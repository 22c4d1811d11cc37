import PhraseGrammar.Generate
import PhraseGrammar.Proofs.Decision

/-!
# Walks and the bounded language

The choices that lead a walk to a sentence are the choices of the sentence, and the sentences
that it can be led to are those that the enumeration lists (`leads_walk_iff`). So generating
never leaves the bounded language, whatever the selector replies, and whether the walk ends or
is stuck and a sentence is picked.
-/

set_option autoImplicit false

namespace PhraseGrammar

open Decision

/-! ## Walks -/

/-- If the walks of names find the listed sentences by their choices, so does the walk of a
right-hand side. -/
theorem leads_walkSymbols_iff {walk : String → Decision (Option Sentence)}
    {expand : String → List Sentence}
    (hNames : ∀ name choices sentence, (walk name).Leads choices (some sentence) ↔
      sentence ∈ expand name ∧ sentence.choices = choices)
    (symbols : List Symbol) (choices : List Nat) (sentence : Sentence) :
    (walkSymbols walk symbols).Leads choices (some sentence) ↔
      sentence ∈ expansions expand symbols ∧ sentence.choices = choices := by
  induction symbols generalizing choices sentence with
  | nil =>
      simp only [walkSymbols, leads_done_iff, mem_expansions_nil, Option.some.injEq]
      constructor
      · rintro ⟨rfl, rfl⟩
        exact ⟨rfl, rfl⟩
      · rintro ⟨rfl, rfl⟩
        exact ⟨rfl, rfl⟩
  | cons symbol rest ih =>
      cases symbol with
      | terminal text =>
          rw [walkSymbols, leads_map_some_iff, mem_expansions_terminal]
          constructor
          · rintro ⟨tail, hTail, rfl⟩
            obtain ⟨hMem, rfl⟩ := (ih choices tail).mp hTail
            exact ⟨⟨tail, hMem, rfl⟩, rfl⟩
          · rintro ⟨⟨tail, hMem, rfl⟩, rfl⟩
            exact ⟨tail, (ih _ tail).mpr ⟨hMem, rfl⟩, rfl⟩
      | nonTerminal name =>
          rw [walkSymbols, leads_bind_iff, mem_expansions_nonTerminal]
          constructor
          · rintro ⟨first, found, others, hFront, hRest, rfl⟩
            cases found with
            | none =>
                -- stuck at the name: nothing leads on to a sentence
                cases hRest
            | some front =>
                obtain ⟨tail, hTail, rfl⟩ := leads_map_some_iff.mp hRest
                obtain ⟨hFrontMem, rfl⟩ := (hNames name first front).mp hFront
                obtain ⟨hTailMem, rfl⟩ := (ih others tail).mp hTail
                exact ⟨⟨front, hFrontMem, tail, hTailMem, rfl⟩, rfl⟩
          · rintro ⟨⟨front, hFrontMem, tail, hTailMem, rfl⟩, rfl⟩
            have hFront := (hNames name _ front).mpr ⟨hFrontMem, rfl⟩
            have hTail := (ih _ tail).mpr ⟨hTailMem, rfl⟩
            exact ⟨_, some front, _, hFront, leads_map_some_iff.mpr ⟨tail, hTail, rfl⟩, rfl⟩

/-- **Walks and the enumeration agree.** Choices lead the walk of a name to a sentence exactly if
the sentence is listed for the name and they are its choices. -/
theorem leads_walk_iff (rules : List Rule) (level : Nat) (name : String) (choices : List Nat)
    (sentence : Sentence) :
    (walk rules level name).Leads choices (some sentence) ↔
      sentence ∈ language rules level name ∧ sentence.choices = choices := by
  induction level generalizing name choices sentence with
  | zero => simp [walk, language, leads_done_iff]
  | succ level ih =>
      have hSymbols := leads_walkSymbols_iff ih
      by_cases hNone : candidates rules name = []
      · rw [walk_eq_done_of_candidates_eq_nil hNone, language_eq_nil_of_candidates_eq_nil hNone]
        simp [leads_done_iff]
      · rw [mem_language_succ, walk, if_neg hNone]
        simp only [leads_choose_iff, leads_map_some_iff]
        constructor
        · rintro ⟨index, rest, ⟨tail, hTail, rfl⟩, rfl⟩
          obtain ⟨hMem, rfl⟩ := (hSymbols _ rest tail).mp hTail
          exact ⟨⟨index, tail, hMem, rfl⟩, rfl⟩
        · rintro ⟨⟨index, tail, hMem, rfl⟩, rfl⟩
          have hTail := (hSymbols _ _ tail).mpr ⟨hMem, rfl⟩
          exact ⟨index, _, ⟨tail, hTail, rfl⟩, rfl⟩

/-! ## Generating -/

theorem mem_of_leads_pickSentence {sentences : List Sentence} {choices : List Nat}
    {sentence : Sentence} (h : (pickSentence sentences).Leads choices (.ok sentence)) :
    sentence ∈ sentences := by
  rw [pickSentence] at h
  split at h
  · cases h
  · obtain ⟨index, rest, hDone, -⟩ := leads_choose_iff.mp h
    obtain ⟨-, hIndex⟩ := leads_done_iff.mp hDone
    obtain rfl : sentences[index] = sentence := Except.ok.inj hIndex
    exact List.getElem_mem index.isLt

theorem mem_generateAll_of_leads_generate {rules : List Rule} {bound : Option Nat}
    {choices : List Nat} {sentence : Sentence}
    (h : (generate rules bound).Leads choices (.ok sentence)) :
    sentence ∈ generateAll rules bound := by
  rw [generate] at h
  split at h
  · obtain ⟨first, found, rest, hWalk, hRest, -⟩ := leads_bind_iff.mp h
    cases found with
    | none => exact mem_of_leads_pickSentence hRest
    | some walked =>
        obtain ⟨-, hSame⟩ := leads_done_iff.mp hRest
        obtain rfl : walked = sentence := Except.ok.inj hSame
        exact ((leads_walk_iff rules (levels bound) startName first walked).mp hWalk).1
  · cases h

/-- The choices of a listed sentence lead to it without a fall back to the list. -/
theorem leads_generate_of_mem {rules : List Rule} {bound : Option Nat} {sentence : Sentence}
    (h : sentence ∈ generateAll rules bound) :
    (generate rules bound).Leads sentence.choices (.ok sentence) := by
  have hDefined : defines rules startName = true := by
    rw [defines_iff]
    intro hNone
    rw [generateAll, language_eq_nil_of_candidates_eq_nil hNone] at h
    cases h
  have hWalk := (leads_walk_iff rules (levels bound) startName _ sentence).mpr ⟨h, rfl⟩
  rw [generate, if_pos hDefined]
  exact leads_bind_iff.mpr ⟨_, _, [], hWalk, .done _, List.append_nil _⟩

/-- What choices lead to is the failure to derive a sentence exactly if the start name has rules
and the list is empty. -/
theorem eq_noDerivableSentence_iff_of_leads {rules : List Rule} {bound : Option Nat}
    {choices : List Nat} {value : Except GenerateError Sentence}
    (h : (generate rules bound).Leads choices value) :
    value = .error .noDerivableSentence ↔
      defines rules startName = true ∧ generateAll rules bound = [] := by
  rw [generate] at h
  by_cases hDefined : defines rules startName = true
  · rw [if_pos hDefined] at h
    obtain ⟨first, found, rest, hWalk, hRest, -⟩ := leads_bind_iff.mp h
    cases found with
    | some walked =>
        -- the walk found a sentence, so the list has one
        obtain ⟨-, rfl⟩ := leads_done_iff.mp hRest
        have hMem : walked ∈ generateAll rules bound :=
          ((leads_walk_iff rules (levels bound) startName first walked).mp hWalk).1
        simp [List.ne_nil_of_mem hMem]
    | none =>
        have hPick : (pickSentence (generateAll rules bound)).Leads rest value := hRest
        rw [pickSentence] at hPick
        by_cases hAll : generateAll rules bound = []
        · rw [if_pos hAll] at hPick
          obtain ⟨-, rfl⟩ := leads_done_iff.mp hPick
          simp [hDefined, hAll]
        · rw [if_neg hAll] at hPick
          obtain ⟨index, _, hDone, -⟩ := leads_choose_iff.mp hPick
          obtain ⟨-, rfl⟩ := leads_done_iff.mp hDone
          simp [hAll]
  · rw [if_neg hDefined] at h
    obtain ⟨-, rfl⟩ := leads_done_iff.mp h
    simp [hDefined]

/-- A run fails to derive a sentence exactly if its replies are all below their counts, the start
name has rules and the list is empty. -/
theorem generateWith_eq_noDerivableSentence_iff {σ : Type} {select : Selector σ}
    {rules : List Rule} {bound : Option Nat} {state : σ} :
    (generateWith select rules bound state).value = .error .noDerivableSentence ↔
      (generateWith select rules bound state).InRange ∧ defines rules startName = true ∧
        generateAll rules bound = [] := by
  rcases run_cases select (fun index count => .error (.selectionOutOfRange index count))
      (generate rules bound) state with
    ⟨hRange, hLeads⟩ | ⟨earlier, count, index, hLog, -, hIndex, hRefused⟩
  · have hRange : (generateWith select rules bound state).InRange := hRange
    simp only [hRange, true_and]
    exact eq_noDerivableSentence_iff_of_leads hLeads
  · -- a refusal is another failure, and its reply is out of range
    have hOut : ¬ (generateWith select rules bound state).InRange := by
      intro hRange
      have hLast : index < count :=
        hRange (count, index) (by rw [generateWith, hLog]; simp)
      omega
    constructor
    · intro hValue
      rw [generateWith, hRefused] at hValue
      cases hValue
    · rintro ⟨hRange, -⟩
      exact absurd hRange hOut

/-- A sentence that a run ends at has choices that lead to it. -/
theorem exists_leads_of_generateWith_eq_ok {σ : Type} {select : Selector σ} {rules : List Rule}
    {bound : Option Nat} {state : σ} {sentence : Sentence}
    (h : (generateWith select rules bound state).value = .ok sentence) :
    ∃ choices, (generate rules bound).Leads choices (.ok sentence) := by
  rcases leads_run select _ (generate rules bound) state with hLeads | ⟨index, count, hRefused⟩
  · exact ⟨_, h ▸ hLeads⟩
  · rw [generateWith, hRefused] at h
    cases h

/-- **Generating stays in the bounded language.** Whatever the selector replies, a sentence that
is generated is one of those that are listed, with its text and its choices. -/
theorem mem_generateAll_of_generateWith_eq_ok {σ : Type} (select : Selector σ)
    (rules : List Rule) (bound : Option Nat) (state : σ) (sentence : Sentence)
    (h : (generateWith select rules bound state).value = .ok sentence) :
    sentence ∈ generateAll rules bound := by
  obtain ⟨choices, hLeads⟩ := exists_leads_of_generateWith_eq_ok h
  exact mem_generateAll_of_leads_generate hLeads

/-- A start name with a sentence of its own and one that repeats it. -/
def repeatingRules : List Rule :=
  [⟨startName, [.terminal "B"], 1⟩, ⟨startName, [.terminal "A ", .nonTerminal startName], 2⟩]

/-- Three replies take the repetition too deep, and the fourth picks from the list. -/
theorem mem_generateAll_of_fallback :
    (generateWith replay repeatingRules (some 3) [1, 1, 1, 2]).value = .ok ⟨"A A B", [1, 1, 0]⟩ ∧
      (⟨"A A B", [1, 1, 0]⟩ : Sentence) ∈ generateAll repeatingRules (some 3) :=
  ⟨rfl, mem_generateAll_of_generateWith_eq_ok replay repeatingRules (some 3) [1, 1, 1, 2] _ rfl⟩

end PhraseGrammar
