import Mathlib.Data.List.Basic
import PhraseGrammar.Proofs.JsonCodec

set_option autoImplicit false

/-! # What a source holds, told apart by its JSON text

Faults and what a source holds are written as JSON texts and never read. That nothing is lost is
said of the writing alone (`write_toJson_inj`). A value is known by its text, since reading would
give it back, whatever its numbers are; so what is left is that different records are different
values. Records of one type have the same names of fields, and faults of different types differ in
the field that comes first.
-/

namespace PhraseGrammar

open PhraseGrammar.Json (Value Token)

/-! ## Values -/

namespace Json.Value

/-- Plain values with the same written form are the same. -/
theorem eq_of_write_eq {first second : Value} (hFirst : first.IsPlain) (hSecond : second.IsPlain)
    (h : first.write = second.write) : first = second := by
  have hRead : parse? first.write = some first := parse?_write hFirst
  rw [h, parse?_write hSecond] at hRead
  exact (Option.some.inj hRead).symm

@[simp] theorem ofText_inj {first second : String} :
    ofText first = ofText second ↔ first = second := by
  simp [ofText]

theorem ofFields_injective : Function.Injective ofFields := by
  intro first second h
  have hKeys : Function.Injective fun field : String × Value =>
      (Literal.text field.1, field.2) := by
    intro field other hField
    obtain ⟨hName, hValue⟩ := Prod.mk.inj hField
    exact Prod.ext (Literal.text.inj hName) hValue
  exact List.map_injective_iff.mpr hKeys (Value.object.inj h)

@[simp] theorem ofFields_inj {first second : List (String × Value)} :
    ofFields first = ofFields second ↔ first = second :=
  ofFields_injective.eq_iff

end Json.Value

/-! ## Rules -/

theorem Symbol.toJson_injective : Function.Injective Symbol.toJson := by
  intro first second h
  have hRead := Symbol.ofJson?_toJson first
  rw [h, Symbol.ofJson?_toJson] at hRead
  exact (Option.some.inj hRead).symm

theorem Rule.toJson_injective : Function.Injective Rule.toJson := by
  rintro ⟨left, right, line⟩ ⟨otherLeft, otherRight, otherLine⟩ h
  simp only [Rule.toJson, Value.ofFields_inj, List.cons.injEq, Prod.mk.injEq, true_and, and_true,
    Value.ofText_inj, Value.array.injEq, Value.natural.injEq] at h
  obtain ⟨hLeft, hRight, hLine⟩ := h
  rw [hLeft, List.map_injective_iff.mpr Symbol.toJson_injective hRight, hLine]

/-! ## Faults -/

namespace Source

theorem Location.toJson_injective : Function.Injective Location.toJson := by
  rintro ⟨line, character⟩ ⟨otherLine, otherCharacter⟩ h
  simpa [Location.toJson] using h

/-- A place that is missing is written otherwise than any place. -/
theorem getD_map_toJson_injective :
    Function.Injective fun location : Option Location =>
      (location.map Location.toJson).getD Value.null := by
  intro first second h
  cases first with
  | none =>
      cases second with
      | none => rfl
      | some second => cases h
  | some first =>
      cases second with
      | none => cases h
      | some second => exact congrArg some (Location.toJson_injective h)

theorem FaultKind.word_injective : Function.Injective FaultKind.word := by
  intro first second h
  cases first <;> cases second <;> first | rfl | exact absurd h (by decide)

theorem Fault.toJson_injective : Function.Injective Fault.toJson := by
  intro first second h
  rw [Fault.toJson, Fault.toJson, Value.ofFields_inj, List.cons.injEq] at h
  obtain ⟨hType, hFields⟩ := h
  have hKind : first.kind = second.kind :=
    FaultKind.word_injective (Value.ofText_inj.mp (Prod.mk.inj hType).2)
  -- faults of one kind have the same fields, which are told apart one by one
  cases first, second, hKind using Fault.cases_of_kind_eq with
  | missingArrow line other | missingClosingBrace line brace other otherBrace
  | invalidLeftHandSide line other | ruleNeverUsed name line other otherLine =>
      simpa [Fault.fields] using hFields
  | noProductionRule name location other otherLocation =>
      simp only [Fault.fields, List.cons.injEq, Prod.mk.injEq, true_and, and_true,
        Value.ofText_inj] at hFields
      obtain ⟨hName, hLocation⟩ := hFields
      rw [hName, getD_map_toJson_injective hLocation]

theorem Location.isPlain_toJson (location : Location) : location.toJson.IsPlain := by
  refine Value.isPlain_ofFields ?_
  simp only [List.forall_mem_cons]
  exact ⟨Value.isPlain_natural _, Value.isPlain_natural _, List.forall_mem_nil _⟩

theorem Fault.isPlain_toJson (fault : Fault) : fault.toJson.IsPlain := by
  have hFields : ∀ field ∈ fault.fields, field.2.IsPlain := by
    cases fault with
    | missingArrow line | invalidLeftHandSide line =>
        exact List.forall_mem_singleton.mpr (Value.isPlain_natural line)
    | missingClosingBrace line brace =>
        simp only [Fault.fields, List.forall_mem_cons]
        exact ⟨Value.isPlain_natural line, Value.isPlain_natural brace, List.forall_mem_nil _⟩
    | noProductionRule name location =>
        simp only [Fault.fields, List.forall_mem_cons]
        refine ⟨Value.isPlain_text name, ?_, List.forall_mem_nil _⟩
        cases location with
        | none => exact Value.isPlain_null
        | some location => exact location.isPlain_toJson
    | ruleNeverUsed name line =>
        simp only [Fault.fields, List.forall_mem_cons]
        exact ⟨Value.isPlain_text name, Value.isPlain_natural line, List.forall_mem_nil _⟩
  exact Value.isPlain_ofFields (List.forall_mem_cons.mpr ⟨Value.isPlain_text _, hFields⟩)

/-! ## Sources -/

theorem Parsed.toJson_injective : Function.Injective Parsed.toJson := by
  rintro ⟨rules, faults⟩ ⟨otherRules, otherFaults⟩ h
  simp only [Parsed.toJson, rulesToJson, faultsToJson, Value.ofFields_inj, List.cons.injEq,
    Prod.mk.injEq, true_and, and_true, Value.array.injEq] at h
  obtain ⟨hRules, hFaults⟩ := h
  rw [List.map_injective_iff.mpr Rule.toJson_injective hRules,
    List.map_injective_iff.mpr Fault.toJson_injective hFaults]

theorem Parsed.isPlain_toJson (parsed : Parsed) : parsed.toJson.IsPlain := by
  have hFaults : (faultsToJson parsed.faults).IsPlain :=
    Value.isPlain_array (List.forall_mem_map.mpr fun fault _ => fault.isPlain_toJson)
  refine Value.isPlain_ofFields ?_
  simp only [List.forall_mem_cons]
  exact ⟨isPlain_rulesToJson parsed.rules, hFaults, List.forall_mem_nil _⟩

/-- **The JSON text of what a source holds loses nothing**: rules and faults with any names, texts
and numbers, with a place or without one, are the same if they are written as the same text. -/
theorem write_toJson_inj (first second : Parsed) :
    first.toJson.write = second.toJson.write ↔ first = second := by
  constructor
  · intro h
    exact Parsed.toJson_injective
      (Value.eq_of_write_eq first.isPlain_toJson second.isPlain_toJson h)
  · rintro rfl
    rfl

example : (Parsed.toJson ⟨[], [.noProductionRule "B" (some ⟨1, 7⟩), .missingArrow 2]⟩).write =
    "\x7b\"rules\":[],\"errors\":[\x7b\"type\":\"noProductionRule\",\"nonTerminal\":\"B\","
      ++ "\"location\":\x7b\"lineNumber\":1,\"characterNumber\":7\x7d\x7d,"
      ++ "\x7b\"type\":\"missingArrow\",\"lineNumber\":2\x7d]\x7d" := by
  decide +kernel

end Source

end PhraseGrammar
