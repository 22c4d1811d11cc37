import Mathlib.Tactic.ByContra
import PhraseGrammar.Grammar
import PhraseGrammar.Proofs.Leftmost

/-!
# What generating comes to

The four results of generating are told apart by three things: whether the start name has rules,
whether the enumeration is empty, and whether every reply is below its count (`Outcome`). The
first two do not depend on the selector. So with a selector that keeps below its counts, such as
dice, generating succeeds exactly if there is a sentence at all.
-/

set_option autoImplicit false

namespace PhraseGrammar

variable {σ : Type} {rules : List Rule} {bound : Option Nat} {select : Selector σ} {state : σ}

/-! ## Selectors that keep below their counts -/

/-- Among at least one candidate the selector replies with the number of a candidate. -/
def AlwaysBelow (select : Selector σ) : Prop :=
  ∀ state count, 0 < count → (select state count).1 < count

theorem throwDice_alwaysBelow : AlwaysBelow throwDice := by
  intro dice count hCount
  cases count with
  | zero => exact absurd hCount (Nat.lt_irrefl 0)
  | succ count => exact Nat.mod_lt _ (Nat.succ_pos count)

/-- If such a selector is always asked for at least one candidate, its replies are in range. -/
theorem AlwaysBelow.lt_of_mem_dialogue {final : σ} {log : List (Nat × Nat)}
    (hBelow : AlwaysBelow select) (h : Dialogue select state log final)
    (hCounts : ∀ entry ∈ log, 0 < entry.1) : ∀ entry ∈ log, entry.2 < entry.1 := by
  induction h with
  | nil state => exact fun entry hEntry => absurd hEntry List.not_mem_nil
  | @cons state final count rest _ ih =>
      obtain ⟨hCount, hRest⟩ := List.forall_mem_cons.mp hCounts
      exact List.forall_mem_cons.mpr ⟨hBelow state count hCount, ih hRest⟩

/-! ## Entries of a leftmost derivation -/

theorem LeftmostSteps.lt_of_mem {limit : Nat} {form final : List FormPart}
    {labels : List (Nat × Nat)} (h : LeftmostSteps rules limit form labels final) :
    ∀ label ∈ labels, label.2 < label.1 := by
  induction h with
  | nil form => exact fun label hLabel => absurd hLabel List.not_mem_nil
  | cons step _ ih =>
      cases step with
      | expand texts after hDepth index => exact List.forall_mem_cons.mpr ⟨index.isLt, ih⟩

/-- Nothing is asked among no candidates. -/
theorem Ending.pos_of_mem {answers : List Nat} {form : List FormPart} {rest : List (Nat × Nat)}
    {value : Except GenerateError Sentence} (h : Ending rules bound answers form rest value) :
    ∀ entry ∈ rest, 0 < entry.1 := by
  cases h with
  | complete texts => simp
  | nothing hStuck hNone => simp
  | refused texts after hDepth hSome hIndex => simpa [List.length_pos_iff] using hSome
  | picked hStuck index => simpa using index.pos
  | pickRefused hStuck hSome hIndex => simpa [List.length_pos_iff] using hSome

/-! ## The results, one by one -/

/-- Without a rule for the start name nothing is asked. -/
theorem generateWith_of_not_defines (hDefined : ¬ defines rules startName = true)
    (select : Selector σ) (state : σ) :
    generateWith select rules bound state = ⟨.error .missingStartRule, state, []⟩ := by
  rw [generateWith, generate, if_neg hDefined]
  rfl

/-- With rules for the start name there are two ways: the replies are all in range, and the result
is a listed sentence or says that there is none; or the last reply is out of range, and the result
says which one it is. -/
theorem generateWith_cases (hDefined : defines rules startName = true) (select : Selector σ)
    (bound : Option Nat) (state : σ) :
    (generateWith select rules bound state).InRange ∧
        ((∃ sentence ∈ generateAll rules bound,
            (generateWith select rules bound state).value = .ok sentence) ∨
          generateAll rules bound = [] ∧
            (generateWith select rules bound state).value = .error .noDerivableSentence) ∨
      ∃ earlier count index,
        (generateWith select rules bound state).log = earlier ++ [(count, index)] ∧
          (∀ entry ∈ earlier, entry.2 < entry.1) ∧ count ≤ index ∧
            (generateWith select rules bound state).value =
              .error (.selectionOutOfRange index count) := by
  obtain ⟨steps, final, rest, hLog, hSteps, hEnding⟩ :=
    followsLeftmost_generateWith hDefined select bound state
  have hRange := hSteps.lt_of_mem
  have hInRange : (∀ entry ∈ rest, entry.2 < entry.1) →
      (generateWith select rules bound state).InRange := by
    intro hRest entry hEntry
    rw [hLog] at hEntry
    exact (List.mem_append.mp hEntry).elim (hRange entry) (hRest entry)
  have hMem : ∀ sentence, (generateWith select rules bound state).value = .ok sentence →
      sentence ∈ generateAll rules bound := by
    intro sentence hSentence
    obtain ⟨choices, hLeads⟩ := exists_leads_of_generateWith_eq_ok hSentence
    exact mem_generateAll_of_leads_generate hLeads
  generalize hValue : (generateWith select rules bound state).value = value at hEnding ⊢
  cases hEnding with
  | complete texts => exact Or.inl ⟨hInRange (by simp), Or.inl ⟨_, hMem _ hValue, rfl⟩⟩
  | nothing hStuck hNone => exact Or.inl ⟨hInRange (by simp), Or.inr ⟨hNone, rfl⟩⟩
  | picked hStuck index => exact Or.inl ⟨hInRange (by simp), Or.inl ⟨_, hMem _ hValue, rfl⟩⟩
  | refused texts after hDepth hSome hIndex =>
      exact Or.inr ⟨steps, _, _, hLog, hRange, hIndex, rfl⟩
  | pickRefused hStuck hSome hIndex =>
      exact Or.inr ⟨steps, _, _, hLog, hRange, hIndex, rfl⟩

theorem generateWith_eq_missingStartRule_iff :
    (generateWith select rules bound state).value = .error .missingStartRule ↔
      ¬ defines rules startName = true := by
  by_cases hDefined : defines rules startName = true
  · refine iff_of_false ?_ (not_not_intro hDefined)
    rcases generateWith_cases hDefined select bound state with
      ⟨-, ⟨_, -, hValue⟩ | ⟨-, hValue⟩⟩ | ⟨_, _, _, -, -, -, hValue⟩
    all_goals simp [hValue]
  · simp [generateWith_of_not_defines hDefined, hDefined]

/-- The reply that is told is the last one and the only one that is out of range. -/
theorem generateWith_eq_selectionOutOfRange_iff {index count : Nat} :
    (generateWith select rules bound state).value = .error (.selectionOutOfRange index count) ↔
      count ≤ index ∧ ∃ earlier,
        (generateWith select rules bound state).log = earlier ++ [(count, index)] ∧
          ∀ entry ∈ earlier, entry.2 < entry.1 := by
  by_cases hDefined : defines rules startName = true
  · rcases generateWith_cases hDefined select bound state with
      ⟨hRange, hResult⟩ | ⟨earlier, count, index, hLog, hEarlier, hIndex, hValue⟩
    · refine iff_of_false ?_ ?_
      · rcases hResult with ⟨_, -, hValue⟩ | ⟨-, hValue⟩
        all_goals simp [hValue]
      · rintro ⟨hIndex, earlier, hLog, -⟩
        have hLast : index < count := hRange (count, index) (by simp [hLog])
        omega
    · rw [hValue, hLog]
      constructor
      · intro hSame
        obtain ⟨rfl, rfl⟩ := GenerateError.selectionOutOfRange.inj (Except.error.inj hSame)
        exact ⟨hIndex, earlier, rfl, hEarlier⟩
      · rintro ⟨-, other, hSame, -⟩
        obtain ⟨-, hLast⟩ := List.append_inj' hSame rfl
        obtain ⟨rfl, rfl⟩ := Prod.mk.inj (List.cons.inj hLast).1
        rfl
  · simp [generateWith_of_not_defines hDefined]

/-- Some selection is out of range exactly if some reply is. -/
theorem exists_selectionOutOfRange_iff :
    (∃ index count, (generateWith select rules bound state).value =
        .error (.selectionOutOfRange index count)) ↔
      ¬ (generateWith select rules bound state).InRange := by
  constructor
  · rintro ⟨index, count, hValue⟩ hRange
    obtain ⟨hIndex, earlier, hLog, -⟩ := generateWith_eq_selectionOutOfRange_iff.mp hValue
    have hLast : index < count := hRange (count, index) (by simp [hLog])
    omega
  · intro hOut
    by_cases hDefined : defines rules startName = true
    · rcases generateWith_cases hDefined select bound state with
        ⟨hRange, -⟩ | ⟨_, count, index, -, -, -, hValue⟩
      · exact absurd hRange hOut
      · exact ⟨index, count, hValue⟩
    · rw [generateWith_of_not_defines hDefined] at hOut
      exact absurd (fun entry hEntry => absurd hEntry List.not_mem_nil) hOut

/-- A sentence comes out exactly if there is one and all replies are in range. -/
theorem exists_generateWith_eq_ok_iff :
    (∃ sentence, (generateWith select rules bound state).value = .ok sentence) ↔
      generateAll rules bound ≠ [] ∧ (generateWith select rules bound state).InRange := by
  constructor
  · rintro ⟨sentence, hSentence⟩
    obtain ⟨choices, hLeads⟩ := exists_leads_of_generateWith_eq_ok hSentence
    refine ⟨List.ne_nil_of_mem (mem_generateAll_of_leads_generate hLeads), ?_⟩
    by_contra hOut
    obtain ⟨index, count, hRefused⟩ := exists_selectionOutOfRange_iff.mpr hOut
    rw [hRefused] at hSentence
    cases hSentence
  · rintro ⟨hSome, hRange⟩
    cases hValue : (generateWith select rules bound state).value with
    | ok sentence => exact ⟨sentence, rfl⟩
    | error failure =>
        exfalso
        cases failure with
        | missingStartRule =>
            have hNone : candidates rules startName = [] := by
              by_contra hRules
              exact generateWith_eq_missingStartRule_iff.mp hValue (defines_iff.mpr hRules)
            exact hSome (language_eq_nil_of_candidates_eq_nil hNone (levels bound))
        | noDerivableSentence =>
            exact hSome (generateWith_eq_noDerivableSentence_iff.mp hValue).2.2
        | selectionOutOfRange index count =>
            exact exists_selectionOutOfRange_iff.mp ⟨index, count, hValue⟩ hRange

theorem pos_of_mem_log :
    ∀ entry ∈ (generateWith select rules bound state).log, 0 < entry.1 := by
  by_cases hDefined : defines rules startName = true
  · obtain ⟨steps, final, rest, hLog, hSteps, hEnding⟩ :=
      followsLeftmost_generateWith hDefined select bound state
    intro entry hEntry
    rw [hLog] at hEntry
    rcases List.mem_append.mp hEntry with hStep | hRest
    · have hLess := hSteps.lt_of_mem entry hStep
      omega
    · exact hEnding.pos_of_mem entry hRest
  · simp [generateWith_of_not_defines hDefined]

theorem AlwaysBelow.inRange (hBelow : AlwaysBelow select) :
    (generateWith select rules bound state).InRange :=
  hBelow.lt_of_mem_dialogue (Decision.dialogue_run select _ (generate rules bound) state)
    pos_of_mem_log

/-! ## All of them -/

/-- What a run of generating comes to, told by the rules, the enumeration and the replies. -/
structure Outcome (rules : List Rule) (bound : Option Nat) (state : σ)
    (run : Run σ (Except GenerateError Sentence)) : Prop where
  /-- The start rule is missing if no rule is for the start name. -/
  missingStartRule_iff :
    run.value = .error .missingStartRule ↔ ∀ rule ∈ rules, rule.left ≠ startName
  /-- A grammar of the rules tells the same. -/
  hasNonTerminal_eq_false_iff :
    (⟨rules, bound⟩ : Grammar).hasNonTerminal startName = false ↔
      ∀ rule ∈ rules, rule.left ≠ startName
  /-- In that case the selector is not called. -/
  unasked : run.value = .error .missingStartRule → run.log = [] ∧ run.state = state
  /-- The selector is only asked among at least one candidate. -/
  pos_of_mem : ∀ entry ∈ run.log, 0 < entry.1
  /-- A selection is out of range if some reply is not below its count. -/
  exists_outOfRange_iff :
    (∃ index count, run.value = .error (.selectionOutOfRange index count)) ↔
      ∃ entry ∈ run.log, entry.1 ≤ entry.2
  /-- It is the last reply and the only one that is out of range. -/
  outOfRange_iff : ∀ index count,
    run.value = .error (.selectionOutOfRange index count) ↔
      count ≤ index ∧ ∃ earlier, run.log = earlier ++ [(count, index)] ∧
        ∀ entry ∈ earlier, entry.2 < entry.1
  /-- No sentence is derivable if there are start rules, no sentence, and no reply out of range. -/
  noDerivableSentence_iff :
    run.value = .error .noDerivableSentence ↔
      run.InRange ∧ defines rules startName = true ∧ generateAll rules bound = []
  /-- A sentence is generated if there is one and no reply is out of range. -/
  ok_iff : (∃ sentence, run.value = .ok sentence) ↔ generateAll rules bound ≠ [] ∧ run.InRange

/-- **The result is determined by the start rules, the enumeration and the range of the replies.**
With a selector that keeps below its counts, as dice do, it is a sentence exactly if there is
one. -/
theorem outcome_generateWith (rules : List Rule) (bound : Option Nat) :
    (∀ (σ : Type) (select : Selector σ) (state : σ),
      Outcome rules bound state (generateWith select rules bound state)) ∧
    (∀ (σ : Type) (select : Selector σ), AlwaysBelow select → ∀ state,
      (∃ sentence, (generateWith select rules bound state).value = .ok sentence) ↔
        generateAll rules bound ≠ []) ∧
    ∀ dice, (∃ sentence, (generateWith throwDice rules bound dice).value = .ok sentence) ↔
      generateAll rules bound ≠ [] := by
  have hBelow : ∀ (σ : Type) (select : Selector σ), AlwaysBelow select → ∀ state,
      (∃ sentence, (generateWith select rules bound state).value = .ok sentence) ↔
        generateAll rules bound ≠ [] := by
    intro σ select hSelect state
    rw [exists_generateWith_eq_ok_iff, and_iff_left hSelect.inRange]
  have hNone : ¬ defines rules startName = true ↔ ∀ rule ∈ rules, rule.left ≠ startName := by
    simp [defines]
  refine ⟨fun σ select state => ?_, hBelow, hBelow Dice throwDice throwDice_alwaysBelow⟩
  exact {
    missingStartRule_iff := generateWith_eq_missingStartRule_iff.trans hNone
    hasNonTerminal_eq_false_iff := by rw [← hNone, Grammar.hasNonTerminal, Bool.not_eq_true]
    unasked := fun hMissing => by
      rw [generateWith_of_not_defines (generateWith_eq_missingStartRule_iff.mp hMissing)]
      exact ⟨rfl, rfl⟩
    pos_of_mem := pos_of_mem_log
    exists_outOfRange_iff := by
      rw [exists_selectionOutOfRange_iff]
      simp [Run.InRange]
    outOfRange_iff := fun index count => generateWith_eq_selectionOutOfRange_iff
    noDerivableSentence_iff := generateWith_eq_noDerivableSentence_iff
    ok_iff := exists_generateWith_eq_ok_iff }

/-- Replies with the last candidate. -/
def takeLast : Selector Unit := fun _ count => (count - 1, ())

/-- The last candidate leads too deep and still to a sentence; a reply out of range does not, and
without start rules no reply is needed. -/
theorem outcome_repeatingRules :
    AlwaysBelow takeLast ∧ generateAll repeatingRules (some 3) ≠ [] ∧
      (∃ sentence, (generateWith takeLast repeatingRules (some 3) ()).value = .ok sentence) ∧
      (generateWith replay repeatingRules (some 3) [1, 2]).log = [(2, 1), (2, 2)] ∧
      (generateWith replay repeatingRules (some 3) [1, 2]).value =
        .error (.selectionOutOfRange 2 2) ∧
      (generateWith replay [] (some 3) [1, 2]).value = .error .missingStartRule ∧
      (generateWith replay [] (some 3) [1, 2]).state = [1, 2] := by
  have hBelow : AlwaysBelow takeLast := by
    intro _ count hCount
    exact Nat.sub_lt hCount Nat.one_pos
  have hSome : generateAll repeatingRules (some 3) ≠ [] := by decide +kernel
  have hLog : (generateWith replay repeatingRules (some 3) [1, 2]).log = [(2, 1), (2, 2)] := rfl
  obtain ⟨hOutcome, hSucceeds, -⟩ := outcome_generateWith repeatingRules (some 3)
  refine ⟨hBelow, hSome, (hSucceeds Unit takeLast hBelow ()).mpr hSome, hLog, ?_, ?_⟩
  · refine ((hOutcome _ replay [1, 2]).outOfRange_iff 2 2).mpr ⟨Nat.le_refl 2, [(2, 1)], hLog, ?_⟩
    simp
  · have hMissing : (generateWith replay [] (some 3) [1, 2]).value = .error .missingStartRule := rfl
    obtain ⟨hEmpty, -⟩ := outcome_generateWith [] (some 3)
    exact ⟨hMissing, ((hEmpty _ replay [1, 2]).unasked hMissing).2⟩

end PhraseGrammar
