import Mathlib.Data.List.Forall2
import PhraseGrammar.Json.Codec
import PhraseGrammar.Proofs.JsonValues

set_option autoImplicit false

/-! # Records that are read as they were written

Symbols, rules, lists of rules and sentences are written as JSON texts and read back as they were
(`roundTrips_records`). Their texts may hold any characters; their numbers have to fit into
64 bits, and a record that is read from a text has only such numbers. So whatever a text is read
as is written, perhaps as another text, and read as the same again.

Reading a record looks up its fields by name (`fields?_ofFields_eq_some_iff`): each of them has to
be there once, in whatever place, and other fields do not matter.
-/

namespace PhraseGrammar

open PhraseGrammar.Json (Value Token)

namespace Json.Value

/-! ## Lists -/

/-- To read all items of a list is to read each of them. -/
theorem mapM_eq_some_iff {α β : Type} {f : α → Option β} {items : List α} {results : List β} :
    items.mapM f = some results ↔
      List.Forall₂ (fun item result => f item = some result) items results := by
  induction items generalizing results with
  | nil => simp [eq_comm]
  | cons item items ih =>
      rw [List.mapM_cons, List.forall₂_cons_left_iff]
      simp only [Option.pure_def, Option.bind_eq_bind, Option.bind_eq_some_iff, ih,
        Option.some.injEq]
      constructor
      · rintro ⟨result, hItem, rest, hRest, rfl⟩
        exact ⟨result, rest, hItem, hRest, rfl⟩
      · rintro ⟨result, rest, hItem, hRest, rfl⟩
        exact ⟨result, hItem, rest, hRest, rfl⟩

/-- A list is read back if its items are. -/
theorem list?_array_map {α : Type} {toJson : α → Value} {item? : Value → Option α}
    {items : List α} (h : ∀ item ∈ items, item? (toJson item) = some item) :
    (array (items.map toJson)).list? item? = some items := by
  rw [list?, mapM_eq_some_iff, List.forall₂_map_left_iff, List.forall₂_same]
  exact h

/-- What holds of every item that can be read holds of the items of a list. -/
theorem forall_of_list?_eq_some {α : Type} {item? : Value → Option α} {property : α → Prop}
    (hItem : ∀ value item, item? value = some item → property item) {value : Value}
    {items : List α} (h : value.list? item? = some items) : ∀ item ∈ items, property item := by
  cases value with
  | array values =>
      have hItems := mapM_eq_some_iff.mp h
      induction hItems with
      | nil => simp
      | cons hFirst hRest ih =>
          rw [List.forall_mem_cons]
          exact ⟨hItem _ _ hFirst, ih (mapM_eq_some_iff.mpr hRest)⟩
  | _ => simp [list?] at h

theorem word?_natural {n : Nat} (hn : n < 18446744073709551616) :
    (natural n).word? = some n :=
  if_pos hn

theorem lt_of_word?_eq_some {value : Value} {n : Nat} (h : value.word? = some n) :
    n < 18446744073709551616 := by
  cases value with
  | natural m =>
      obtain ⟨hm, hEq⟩ := Option.ite_none_right_eq_some.mp h
      exact Option.some.inj hEq ▸ hm
  | _ => simp [word?] at h

/-! ## Fields -/

theorem isPlain_ofFields {fields : List (String × Value)}
    (h : ∀ field ∈ fields, field.2.IsPlain) : (ofFields fields).IsPlain := by
  refine isPlain_object fun field hField => ?_
  obtain ⟨named, hNamed, rfl⟩ := List.mem_map.mp hField
  exact ⟨rfl, h named hNamed⟩

theorem field?_eq_some_iff {name : String} {fields : List (String × Value)} {value : Value} :
    field? name fields = some value ↔
      fields.filter (fun field => field.1 = name) = [(name, value)] := by
  constructor
  · intro h
    rw [field?] at h
    split at h
    next field hFilter =>
      have hField : field ∈ fields.filter fun field => field.1 = name :=
        hFilter ▸ List.mem_singleton_self field
      have hName : field.1 = name := of_decide_eq_true (List.mem_filter.mp hField).2
      rw [hFilter, ← hName, ← Option.some.inj h]
    next => contradiction
  · intro h
    rw [field?, h]

/-- The fields of a record are found by their names: each name has one field, in whatever place,
and fields of other names do not matter. -/
theorem fields?_ofFields_eq_some_iff {names : List String} {fields : List (String × Value)}
    {values : List Value} :
    (ofFields fields).fields? names = some values ↔
      List.Forall₂ (fun name value =>
        fields.filter (fun field => field.1 = name) = [(name, value)]) names values := by
  have hKeys : (fields.map fun field => (Literal.text field.1, field.2)).mapM textKey? =
      some fields := by
    rw [mapM_eq_some_iff, List.forall₂_map_left_iff, List.forall₂_same]
    exact fun _ _ => rfl
  rw [ofFields, fields?, hKeys, Option.bind_some, mapM_eq_some_iff]
  simp only [field?_eq_some_iff]

/-- Where no name comes twice, each field is the one of its name. -/
theorem filter_fst_eq_singleton {fields : List (String × Value)}
    (hNames : (fields.map Prod.fst).Nodup) :
    ∀ field ∈ fields, fields.filter (fun other => other.1 = field.1) = [field] := by
  induction fields with
  | nil => simp
  | cons first rest ih =>
      rw [List.map_cons, List.nodup_cons, List.mem_map] at hNames
      have hOther : ∀ field ∈ rest, field.1 ≠ first.1 := fun field hField hEq =>
        hNames.1 ⟨field, hField, hEq⟩
      rw [List.forall_mem_cons]
      constructor
      · rw [List.filter_cons_of_pos (by simp), List.filter_eq_nil_iff.mpr (by simpa using hOther)]
      · intro field hField
        rw [List.filter_cons_of_neg (by simpa using (hOther field hField).symm),
          ih hNames.2 field hField]

/-- The values of a record with each name once. -/
theorem fields?_ofFields {names : List String} {fields : List (String × Value)}
    (hNames : fields.map Prod.fst = names) (hNodup : names.Nodup) :
    (ofFields fields).fields? names = some (fields.map Prod.snd) := by
  subst hNames
  rw [fields?_ofFields_eq_some_iff, List.forall₂_map_left_iff, List.forall₂_map_right_iff,
    List.forall₂_same]
  exact filter_fst_eq_singleton hNodup

theorem parts?_ofFields {names : List String} {fields : List (String × Value)}
    (hNames : fields.map Prod.fst = names) (hNodup : names.Nodup) :
    (ofFields fields).parts? names = some (fields.map Prod.snd) :=
  fields?_ofFields hNames hNodup

end Json.Value

/-! ## Symbols, rules and sentences -/

/-- The number of the rule's line fits into 64 bits. -/
def Rule.Fits (rule : Rule) : Prop :=
  rule.lineNumber < 18446744073709551616

/-- The numbers of the sentence's choices fit into 64 bits. -/
def Sentence.Fits (sentence : Sentence) : Prop :=
  ∀ choice ∈ sentence.choices, choice < 18446744073709551616

/-- A tag and a text are looked up in the record of a symbol. -/
theorem Symbol.ofJson?_ofFields (tag content : String) :
    Symbol.ofJson? (.ofFields [("type", .ofText tag), ("value", .ofText content)]) =
      Symbol.ofTag? tag content := by
  rw [Symbol.ofJson?.eq_2, Value.fields?_ofFields]
  · rfl
  · rfl
  · decide
  · rintro _ _ ⟨⟩

theorem Symbol.ofJson?_toJson (symbol : Symbol) : Symbol.ofJson? symbol.toJson = some symbol := by
  cases symbol with
  | terminal text => exact Symbol.ofJson?_ofFields "terminal" text
  | nonTerminal name => exact Symbol.ofJson?_ofFields "nonTerminal" name

theorem Rule.ofJson?_toJson {rule : Rule} (h : rule.Fits) :
    Rule.ofJson? rule.toJson = some rule := by
  have hRight : (Value.array (rule.right.map Symbol.toJson)).list? Symbol.ofJson? =
      some rule.right := Value.list?_array_map fun symbol _ => symbol.ofJson?_toJson
  rw [Rule.ofJson?, Rule.toJson, Value.parts?_ofFields]
  · simp only [List.map_cons, List.map_nil, hRight, Value.word?_natural h]
    rfl
  · rfl
  · decide

theorem rulesOfJson?_rulesToJson {rules : List Rule} (h : ∀ rule ∈ rules, rule.Fits) :
    rulesOfJson? (rulesToJson rules) = some rules :=
  Value.list?_array_map fun rule hRule => Rule.ofJson?_toJson (h rule hRule)

theorem Sentence.ofJson?_toJson {sentence : Sentence} (h : sentence.Fits) :
    Sentence.ofJson? sentence.toJson = some sentence := by
  have hChoices : (Value.array (sentence.choices.map .natural)).list? Value.word? =
      some sentence.choices :=
    Value.list?_array_map fun choice hChoice => Value.word?_natural (h choice hChoice)
  rw [Sentence.ofJson?, Sentence.toJson, Value.parts?_ofFields]
  · simp only [List.map_cons, List.map_nil, hChoices]
    rfl
  · rfl
  · decide

/-! ### What is read -/

theorem Rule.fits_of_ofJson?_eq_some {value : Value} {rule : Rule}
    (h : Rule.ofJson? value = some rule) : rule.Fits := by
  rw [Rule.ofJson?] at h
  split at h
  next =>
    split at h
    next hNumber =>
      cases h
      exact Value.lt_of_word?_eq_some hNumber
    next => contradiction
  next => contradiction

theorem Sentence.fits_of_ofJson?_eq_some {value : Value} {sentence : Sentence}
    (h : Sentence.ofJson? value = some sentence) : sentence.Fits := by
  rw [Sentence.ofJson?] at h
  split at h
  next =>
    split at h
    next hChoices =>
      cases h
      exact Value.forall_of_list?_eq_some (fun _ _ => Value.lt_of_word?_eq_some) hChoices
    next => contradiction
  next => contradiction

/-! ### What is written -/

theorem Symbol.isPlain_toJson (symbol : Symbol) : symbol.toJson.IsPlain := by
  cases symbol with
  | terminal text | nonTerminal name =>
      rw [Symbol.toJson]
      refine Value.isPlain_ofFields ?_
      simp only [List.forall_mem_cons]
      exact ⟨Value.isPlain_text _, Value.isPlain_text _, List.forall_mem_nil _⟩

theorem Rule.isPlain_toJson (rule : Rule) : rule.toJson.IsPlain := by
  refine Value.isPlain_ofFields ?_
  simp only [List.forall_mem_cons]
  refine ⟨Value.isPlain_text _, Value.isPlain_array ?_, Value.isPlain_natural _,
    List.forall_mem_nil _⟩
  exact List.forall_mem_map.mpr fun symbol _ => symbol.isPlain_toJson

theorem isPlain_rulesToJson (rules : List Rule) : (rulesToJson rules).IsPlain :=
  Value.isPlain_array (List.forall_mem_map.mpr fun rule _ => rule.isPlain_toJson)

theorem Sentence.isPlain_toJson (sentence : Sentence) : sentence.toJson.IsPlain := by
  refine Value.isPlain_ofFields ?_
  simp only [List.forall_mem_cons]
  refine ⟨Value.isPlain_text _, Value.isPlain_array ?_, List.forall_mem_nil _⟩
  exact List.forall_mem_map.mpr fun choice _ => Value.isPlain_natural choice

/-! ## Round trips -/

/-- What the text is the JSON form of. -/
def decode? {α : Type} (ofJson? : Value → Option α) (text : String) : Option α :=
  (Value.parse? text).bind ofJson?

/-- Writing and reading agree on a type: what fits is read back from the text that it is written
as, and only what fits is read from any text. -/
structure RoundTrips {α : Type} (toJson : α → Value) (ofJson? : Value → Option α)
    (Fits : α → Prop) : Prop where
  decode?_write : ∀ a, Fits a → decode? ofJson? (toJson a).write = some a
  fits_of_decode? : ∀ text a, decode? ofJson? text = some a → Fits a
  /-- What one text is read as is also read from the text that it is written as. -/
  decode?_write_of_decode? : ∀ text a, decode? ofJson? text = some a →
    decode? ofJson? (toJson a).write = some a

/-- Texts of plain values come and go as the values do. -/
theorem RoundTrips.of_values {α : Type} {toJson : α → Value} {ofJson? : Value → Option α}
    {Fits : α → Prop} (hPlain : ∀ a, (toJson a).IsPlain)
    (hRead : ∀ a, Fits a → ofJson? (toJson a) = some a)
    (hFits : ∀ value a, ofJson? value = some a → Fits a) :
    RoundTrips toJson ofJson? Fits := by
  have hWrite : ∀ a, Fits a → decode? ofJson? (toJson a).write = some a := by
    intro a ha
    rw [decode?, Value.parse?_write (hPlain a), Option.bind_some, hRead a ha]
  have hText : ∀ text a, decode? ofJson? text = some a → Fits a := by
    intro text a h
    obtain ⟨value, -, hValue⟩ := Option.bind_eq_some_iff.mp h
    exact hFits value a hValue
  exact ⟨hWrite, hText, fun text a h => hWrite a (hText text a h)⟩

/-- Sentences come and go as they are. -/
theorem Sentence.roundTrips : RoundTrips Sentence.toJson Sentence.ofJson? Sentence.Fits :=
  .of_values Sentence.isPlain_toJson (fun _ => Sentence.ofJson?_toJson)
    fun _ _ => Sentence.fits_of_ofJson?_eq_some

/-- **Reading undoes writing.** Symbols, rules, lists of rules and sentences with numbers of at
most 64 bits and any texts are read back from the JSON texts that they are written as; and no
record with a larger number is read from a text, so whatever is read is written as a text that is
read as the same. -/
theorem roundTrips_records :
    RoundTrips Symbol.toJson Symbol.ofJson? (fun _ => True) ∧
      RoundTrips Rule.toJson Rule.ofJson? Rule.Fits ∧
      RoundTrips rulesToJson rulesOfJson? (fun rules => ∀ rule ∈ rules, rule.Fits) ∧
      RoundTrips Sentence.toJson Sentence.ofJson? Sentence.Fits :=
  ⟨.of_values Symbol.isPlain_toJson (fun symbol _ => symbol.ofJson?_toJson) fun _ _ _ => trivial,
    .of_values Rule.isPlain_toJson (fun _ => Rule.ofJson?_toJson)
      fun _ _ => Rule.fits_of_ofJson?_eq_some,
    .of_values isPlain_rulesToJson (fun _ => rulesOfJson?_rulesToJson) fun _ _ =>
      Value.forall_of_list?_eq_some fun _ _ => Rule.fits_of_ofJson?_eq_some,
    Sentence.roundTrips⟩

/-- A text with marks of the format, control characters and characters outside of ASCII, and the
largest number. -/
def markedSentence : Sentence :=
  ⟨"\"\\\n\x00\x1f\x7f,😀]", [0, 18446744073709551615]⟩

/-- Rules with such texts in symbols of both kinds, and one with neither a name nor symbols. -/
def markedRules : List Rule :=
  [⟨"\x7b\"", [.terminal "\\u0041\t", .nonTerminal "[\x08é", .terminal ""], 0⟩,
    ⟨"", [], 18446744073709551615⟩]

/-- Marks of the format, control characters and the largest number make no difference. -/
theorem roundTrips_records_escapes :
    decode? Sentence.ofJson? markedSentence.toJson.write = some markedSentence ∧
      decode? rulesOfJson? (rulesToJson markedRules).write = some markedRules := by
  have hSentence : markedSentence.Fits := by
    unfold Sentence.Fits
    decide
  have hRules : ∀ rule ∈ markedRules, rule.Fits := by
    unfold Rule.Fits
    decide
  obtain ⟨-, -, hReadRules, hReadSentence⟩ := roundTrips_records
  exact ⟨hReadSentence.decode?_write _ hSentence, hReadRules.decode?_write _ hRules⟩

example : (Sentence.toJson ⟨"\"\n\x1f", [10]⟩).write =
    "\x7b\"text\":\"\\\"\\n\\u001f\",\"sequence\":[10]\x7d" := by
  decide +kernel

end PhraseGrammar
