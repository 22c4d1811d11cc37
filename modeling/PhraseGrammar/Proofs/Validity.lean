import PhraseGrammar.Proofs.CrossCheck

/-!
# Sources without faults

The check that follows the reading of lines finds nothing exactly if the rules are `WellReferenced`.
This is said of the rules alone, so rules that were read from different sources and differ only in
where they were written are valid together (`isValid_parse_iff`).
-/

set_option autoImplicit false

namespace PhraseGrammar.Source

variable {rules others : List Rule} {rule : Rule} {occurrences : List Occurrence}

/-- The start name has rules, every name that is referred to has rules, and every other name that
has rules is referred to. -/
structure WellReferenced (rules : List Rule) : Prop where
  start_defined : Defined rules startName
  defined_of_referred : ∀ name, Referred rules name → Defined rules name
  referred_of_defined : ∀ name, Defined rules name → name = startName ∨ Referred rules name

/-! ## Where a rule was written does not matter -/

/-- The rule without the place where it was written. -/
def production (rule : Rule) : String × List Symbol :=
  (rule.left, rule.right)

theorem defined_iff_production {name : String} :
    Defined rules name ↔ ∃ entry ∈ rules.map production, entry.1 = name := by
  simp [Defined, production]

theorem referred_iff_production {name : String} :
    Referred rules name ↔
      ∃ entry ∈ rules.map production, name ∈ references ⟨entry.1, entry.2, 0⟩ := by
  simp [Referred, references, production]

theorem WellReferenced.of_map_production_eq (hSame : rules.map production = others.map production)
    (h : WellReferenced rules) : WellReferenced others := by
  have hDefined : ∀ name, Defined rules name ↔ Defined others name := by
    intro name
    rw [defined_iff_production, defined_iff_production, hSame]
  have hReferred : ∀ name, Referred rules name ↔ Referred others name := by
    intro name
    rw [referred_iff_production, referred_iff_production, hSame]
  obtain ⟨hStart, hUndefined, hUnused⟩ := h
  simp only [hDefined, hReferred] at hStart hUndefined hUnused
  exact ⟨hStart, hUndefined, hUnused⟩

/-! ## The first rules have every name -/

theorem mem_rules_of_mem_firstRules (h : rule ∈ firstRules rules) : rule ∈ rules := by
  induction rules with
  | nil => exact absurd h List.not_mem_nil
  | cons first rest ih =>
      rw [firstRules] at h
      rcases List.mem_cons.mp h with rfl | hRest
      · exact List.mem_cons_self
      · exact List.mem_cons_of_mem _ (ih (List.mem_filter.mp hRest).1)

theorem exists_mem_firstRules (h : rule ∈ rules) :
    ∃ first ∈ firstRules rules, first.left = rule.left := by
  induction rules with
  | nil => exact absurd h List.not_mem_nil
  | cons head rest ih =>
      rw [firstRules]
      by_cases hSame : rule.left = head.left
      · exact ⟨head, List.mem_cons_self, hSame.symm⟩
      · -- the head takes away no rule for another name
        have hRest : rule ∈ rest :=
          List.mem_of_ne_of_mem (fun hHead => hSame (congrArg Rule.left hHead)) h
        obtain ⟨first, hFirst, hLeft⟩ := ih hRest
        refine ⟨first, List.mem_cons_of_mem _ (List.mem_filter.mpr ⟨hFirst, ?_⟩), hLeft⟩
        simpa [hLeft] using hSame

/-- What is said of the first rule for each name, by the name, is said of all names with rules. -/
theorem forall_mem_firstRules_iff {property : String → Prop} :
    (∀ rule ∈ firstRules rules, property rule.left) ↔
      ∀ name, Defined rules name → property name := by
  constructor
  · rintro h _ ⟨rule, hRule, rfl⟩
    obtain ⟨first, hFirst, hLeft⟩ := exists_mem_firstRules hRule
    rw [← hLeft]
    exact h first hFirst
  · intro h rule hRule
    exact h rule.left ⟨rule, mem_rules_of_mem_firstRules hRule, rfl⟩

/-! ## What it takes to be without faults -/

/-- The check finds nothing exactly if the rules are well referenced, if its occurrences are those
of the source. -/
theorem crossCheck_eq_nil_iff {source : List Char} (h : OccurrencesIn source rules occurrences) :
    crossCheck rules occurrences = [] ↔ WellReferenced rules := by
  have hReferred : ∀ name, (∃ occurrence ∈ occurrences, occurrence.name = name) ↔
      Referred rules name := by
    intro name
    rw [← decide_eq_true_iff (p := Referred rules name), ← refersTo_eq_decide h]
    simp [refersTo]
  have hStart : missingStart rules occurrences = [] ↔
      Defined rules startName ∨ Referred rules startName := by
    simp [missingStart, defines_eq_decide, refersTo_eq_decide h, or_iff_not_imp_left]
  have hUndefined : undefinedReferences rules occurrences = [] ↔
      ∀ name, Referred rules name → Defined rules name := by
    simp [undefinedReferences, defines_eq_decide, ← hReferred]
  have hUnused : unusedRules rules occurrences = [] ↔
      ∀ name, Defined rules name → name = startName ∨ Referred rules name := by
    rw [← forall_mem_firstRules_iff]
    simp [unusedRules, refersTo_eq_decide h, or_iff_not_imp_left]
  rw [crossCheck, List.append_eq_nil_iff, List.append_eq_nil_iff, hStart, hUndefined, hUnused]
  constructor
  · rintro ⟨⟨hStart, hUndefined⟩, hUnused⟩
    exact ⟨hStart.elim id (hUndefined startName), hUndefined, hUnused⟩
  · intro hRules
    exact ⟨⟨Or.inl hRules.start_defined, hRules.defined_of_referred⟩, hRules.referred_of_defined⟩

/-- **A source is valid exactly if each of its lines is and its rules are well referenced.** -/
theorem isValid_parse_iff (source : String) :
    (parse source).isValid = true ↔
      (parse source).syntacticFaults = [] ∧ WellReferenced (parse source).rules := by
  rw [Parsed.isValid, List.isEmpty_iff, faults_parse, List.append_eq_nil_iff,
    crossCheck_eq_nil_iff (occurrencesIn_parse source), syntacticFaults_parse]

end PhraseGrammar.Source
