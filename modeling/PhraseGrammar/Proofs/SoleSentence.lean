import Mathlib.Data.Fintype.Card
import Mathlib.Data.Set.Finite.Basic
import PhraseGrammar.Proofs.Bisimulation
import PhraseGrammar.Proofs.Growth
import PhraseGrammar.Proofs.ListingOrder
import PhraseGrammar.Proofs.Outcome
import PhraseGrammar.Proofs.Productive

/-!
# Grammars without alternatives

Where no name that the start name reaches has a second rule, every choice is zero, and two different
sentences would have to part at some choice; so there is one sentence at most. Whether there is one
shows in the references alone. Each of them has to be followed, one level further down, so a name
that is reached and has no rule, or that leads back to itself, leaves no sentence within any bound
(`founded_of_language_ne_nil`). Where there is no such name, the names that are reached are
productive one after the other, those first that refer to no other (`Founded.productive`).
-/

set_option autoImplicit false

namespace PhraseGrammar

open Relation

variable {rules : List Rule} {name target : String} {level : Nat}

/-- No name that the start name reaches has a second rule. -/
def WithoutAlternatives (rules : List Rule) : Prop :=
  ∀ name, Reachable rules name → (candidates rules name).length ≤ 1

/-- The start name reaches no name without a rule and no name that leads back to itself. -/
structure Founded (rules : List Rule) : Prop where
  defined : ∀ name, Reachable rules name → defines rules name = true
  acyclic : ∀ name, Reachable rules name → ¬ TransGen (Refers rules) name name

/-- It is enough that all rules are for different names. -/
theorem withoutAlternatives_of_nodup (h : (rules.map Rule.left).Nodup) :
    WithoutAlternatives rules := by
  intro name _
  calc (candidates rules name).length
      = (rules.map Rule.left).count name := by
        rw [candidates, ← List.countP_eq_length_filter, List.count, List.countP_map]
        exact List.countP_congr fun rule _ => by simp
    _ ≤ 1 := List.nodup_iff_count_le_one.mp h name

/-! ## Choices that are none -/

mutual

/-- All choices of a derivation are zero if the names that it expands have no alternatives. -/
theorem Derivation.choice_eq_zero (hSole : WithoutAlternatives rules) {level : Nat}
    {name : String} : ∀ derivation : Derivation rules level name, Reachable rules name →
      ∀ choice ∈ derivation.choices, choice = 0
  | .expand index parts, hName => by
      have hOne := hSole name hName
      have hRule := mem_candidates.mp (List.getElem_mem index.isLt)
      rw [Derivation.choices, List.forall_mem_cons]
      constructor
      · omega
      · refine parts.choice_eq_zero hSole fun target hTarget => ?_
        exact hName.tail ⟨_, hRule.1, hRule.2, hTarget⟩

theorem Parts.choice_eq_zero (hSole : WithoutAlternatives rules) {level : Nat}
    {symbols : List Symbol} : ∀ parts : Parts rules level symbols,
      (∀ target, .nonTerminal target ∈ symbols → Reachable rules target) →
        ∀ choice ∈ parts.choices, choice = 0
  | .nil, _ => fun choice hChoice => absurd hChoice List.not_mem_nil
  | .terminal _ parts, hNames => by
      refine parts.choice_eq_zero hSole fun target hTarget => ?_
      exact hNames target (List.mem_cons_of_mem _ hTarget)
  | .nonTerminal front parts, hNames => by
      rw [Parts.choices, List.forall_mem_append]
      constructor
      · exact front.choice_eq_zero hSole (hNames _ List.mem_cons_self)
      · refine parts.choice_eq_zero hSole fun target hTarget => ?_
        exact hNames target (List.mem_cons_of_mem _ hTarget)

end

theorem choice_eq_zero_of_mem_language (hSole : WithoutAlternatives rules)
    (hName : Reachable rules name) : ∀ sentence ∈ language rules level name,
      ∀ choice ∈ sentence.choices, choice = 0 := by
  intro sentence hSentence
  obtain ⟨derivation, rfl⟩ := exists_derivation_of_mem_language hSentence
  exact derivation.choice_eq_zero hSole hName

/-- The second of two lists of choices that part has a choice other than zero. -/
theorem BranchesBefore.exists_ne_zero {first second : List Nat} (h : BranchesBefore first second) :
    ∃ choice ∈ second, choice ≠ 0 := by
  obtain ⟨common, low, high, lowRest, highRest, hLess, -, rfl⟩ := h
  exact ⟨high, by simp, Nat.ne_zero_of_lt hLess⟩

/-- A name without alternatives has one sentence at most. -/
theorem language_eq_nil_or_singleton (hSole : WithoutAlternatives rules)
    (hName : Reachable rules name) (level : Nat) :
    language rules level name = [] ∨ ∃ sentence, language rules level name = [sentence] := by
  have hOrder := pairwise_language rules level name
  have hZero : ∀ sentence ∈ language rules level name, ∀ choice ∈ sentence.choices, choice = 0 :=
    choice_eq_zero_of_mem_language hSole hName
  match hAll : language rules level name with
  | [] => exact Or.inl rfl
  | [sentence] => exact Or.inr ⟨sentence, rfl⟩
  | first :: second :: rest =>
      -- the second sentence would part from the first with a choice other than zero
      rw [hAll] at hOrder hZero
      have hBefore : first.Before second := List.rel_of_pairwise_cons hOrder List.mem_cons_self
      obtain ⟨choice, hChoice, hSome⟩ := hBefore.exists_ne_zero
      exact absurd (hZero second (by simp) choice hChoice) hSome

/-! ## References that have to be followed -/

/-- If a name without alternatives has a sentence, each name that it refers to has one with a level
less. -/
theorem exists_level_lt_of_refers (hSole : WithoutAlternatives rules) (hName : Reachable rules name)
    (hRefers : Refers rules name target) (hSome : language rules level name ≠ []) :
    ∃ lower < level, language rules lower target ≠ [] := by
  cases level with
  | zero => exact absurd rfl hSome
  | succ lower =>
      obtain ⟨rule, hRule, hNames⟩ := language_succ_ne_nil_iff.mp hSome
      obtain ⟨other, hOther, hLeft, hTarget⟩ := hRefers
      have hCandidate := mem_candidates.mpr ⟨hOther, hLeft⟩
      -- both are the one rule for the name
      obtain rfl : rule = other := by
        obtain ⟨only, hOnly⟩ : ∃ only, candidates rules name = [only] :=
          List.length_eq_one_iff.mp
            (Nat.le_antisymm (hSole name hName) (List.length_pos_of_mem hRule))
        rw [hOnly, List.mem_singleton] at hRule hCandidate
        rw [hRule, hCandidate]
      exact ⟨lower, Nat.lt_succ_self lower, hNames target hTarget⟩

theorem exists_level_lt_of_transGen (hSole : WithoutAlternatives rules)
    (hName : Reachable rules name) (hPath : TransGen (Refers rules) name target)
    (hSome : language rules level name ≠ []) :
    ∃ lower < level, language rules lower target ≠ [] := by
  induction hPath with
  | single hRefers => exact exists_level_lt_of_refers hSole hName hRefers hSome
  | tail hPath hRefers ih =>
      obtain ⟨middle, hMiddle, hSomeMiddle⟩ := ih
      have hReached := hName.trans hPath.to_reflTransGen
      obtain ⟨lower, hLower, hSomeLower⟩ :=
        exists_level_lt_of_refers hSole hReached hRefers hSomeMiddle
      exact ⟨lower, hLower.trans hMiddle, hSomeLower⟩

/-- A name that leads back to itself would need a level below every level. -/
theorem language_eq_nil_of_transGen_self (hSole : WithoutAlternatives rules)
    (hName : Reachable rules name) (hCycle : TransGen (Refers rules) name name) (level : Nat) :
    language rules level name = [] := by
  induction level using Nat.strongRecOn with
  | ind level ih =>
      by_contra hSome
      obtain ⟨lower, hLower, hSomeLower⟩ := exists_level_lt_of_transGen hSole hName hCycle hSome
      exact hSomeLower (ih lower hLower)

/-- One sentence of the start name is enough for all names that it reaches to be as they should. -/
theorem founded_of_language_ne_nil (hSole : WithoutAlternatives rules)
    (hSome : language rules level startName ≠ []) : Founded rules := by
  have hReached : ∀ name, Reachable rules name → ∃ lower, language rules lower name ≠ [] := by
    intro name hName
    rcases reflTransGen_iff_eq_or_transGen.mp hName with rfl | hPath
    · exact ⟨level, hSome⟩
    · obtain ⟨lower, -, hLower⟩ := exists_level_lt_of_transGen hSole .refl hPath hSome
      exact ⟨lower, hLower⟩
  constructor
  · intro name hName
    obtain ⟨lower, hLower⟩ := hReached name hName
    exact defines_iff.mpr fun hNone => hLower (language_eq_nil_of_candidates_eq_nil hNone lower)
  · intro name hName hCycle
    obtain ⟨lower, hLower⟩ := hReached name hName
    exact hLower (language_eq_nil_of_transGen_self hSole hName hCycle lower)

/-! ## References that can be followed to their end -/

theorem productive_iff_language_card_ne_nil :
    Productive rules name ↔ language rules (definedNames rules).card name ≠ [] := by
  rw [← not_iff_not, not_not, not_productive_iff le_rfl]

/-- A name is productive if it has a rule that refers to productive names only. -/
theorem productive_of_mem_candidates {rule : Rule} (hRule : rule ∈ candidates rules name)
    (hNames : ∀ target, .nonTerminal target ∈ rule.right → Productive rules target) :
    Productive rules name := by
  have hSome : language rules ((definedNames rules).card + 1) name ≠ [] := by
    refine language_succ_ne_nil_iff.mpr ⟨rule, hRule, fun target hTarget => ?_⟩
    exact productive_iff_language_card_ne_nil.mp (hNames target hTarget)
  exact productive_of_language_ne_nil hSome

/-- From a name that is reached, references lead on finitely often. -/
theorem Founded.wellFounded (h : Founded rules) :
    WellFounded fun low high : { name // Reachable rules name } => Refers rules high low := by
  have : Finite { name // Reachable rules name } := by
    refine Set.Finite.subset (definedNames rules).finite_toSet fun name hName => ?_
    exact mem_definedNames_iff.mpr (defines_iff.mp (h.defined name hName))
  let ahead : { name // Reachable rules name } → { name // Reachable rules name } → Prop :=
    fun low high => TransGen (Refers rules) high low
  have : IsTrans _ ahead := ⟨fun _ _ _ hFirst hSecond => hSecond.trans hFirst⟩
  have : Std.Irrefl ahead := ⟨fun name => h.acyclic name name.2⟩
  have hAhead : WellFounded ahead := Finite.wellFounded_of_trans_of_irrefl ahead
  exact Subrelation.wf (fun hRefers => .single hRefers) hAhead

/-- All names that are reached are productive. -/
theorem Founded.productive (h : Founded rules) (name : { name // Reachable rules name }) :
    Productive rules name := by
  induction name using h.wellFounded.induction with
  | _ name ih =>
      obtain ⟨rule, hRule⟩ :=
        List.exists_mem_of_ne_nil _ (defines_iff.mp (h.defined name name.2))
      obtain ⟨hMem, hLeft⟩ := mem_candidates.mp hRule
      refine productive_of_mem_candidates hRule fun target hTarget => ?_
      have hRefers : Refers rules name target := ⟨rule, hMem, hLeft, hTarget⟩
      exact ih ⟨target, name.2.tail hRefers⟩ hRefers

/-! ## The one sentence -/

/-- With one sentence only, a run generates it exactly if its replies are in range. -/
theorem generateWith_eq_ok_iff_of_singleton {bound : Option Nat} {sentence : Sentence}
    (hAll : generateAll rules bound = [sentence]) {σ : Type} (select : Selector σ) (state : σ) :
    (generateWith select rules bound state).value = .ok sentence ↔
      (generateWith select rules bound state).InRange := by
  have hSome : generateAll rules bound ≠ [] := by simp [hAll]
  constructor
  · intro hValue
    exact (exists_generateWith_eq_ok_iff.mp ⟨sentence, hValue⟩).2
  · intro hRange
    obtain ⟨other, hValue⟩ := exists_generateWith_eq_ok_iff.mpr ⟨hSome, hRange⟩
    obtain ⟨choices, hLeads⟩ := exists_leads_of_generateWith_eq_ok hValue
    have hMem : other ∈ generateAll rules bound := mem_generateAll_of_leads_generate hLeads
    rw [hAll, List.mem_singleton] at hMem
    rw [hValue, hMem]

/-- Without any sentence a run whose replies are in range says that there is none, or that there is
no start rule. -/
theorem generateWith_eq_error_of_eq_nil {bound : Option Nat} (hNone : generateAll rules bound = [])
    {σ : Type} (select : Selector σ) (state : σ)
    (hRange : (generateWith select rules bound state).InRange) :
    (generateWith select rules bound state).value =
      .error (if defines rules startName then .noDerivableSentence else .missingStartRule) := by
  by_cases hDefined : defines rules startName = true
  · rw [if_pos hDefined]
    exact generateWith_eq_noDerivableSentence_iff.mpr ⟨hRange, hDefined, hNone⟩
  · rw [if_neg hDefined]
    exact generateWith_eq_missingStartRule_iff.mpr hDefined

/-- A bound of one level for each defined name gives the same sentence as any larger one. -/
theorem Founded.exists_generateAll_eq_singleton (h : Founded rules)
    (hSole : WithoutAlternatives rules) :
    ∃ sentence, (∀ choice ∈ sentence.choices, choice = 0) ∧
      ∀ bound, (definedNames rules).card ≤ levels bound →
        generateAll rules bound = [sentence] := by
  have hSome : language rules (definedNames rules).card startName ≠ [] :=
    productive_iff_language_card_ne_nil.mp (h.productive ⟨startName, .refl⟩)
  obtain ⟨sentence, hFew⟩ : ∃ sentence,
      language rules (definedNames rules).card startName = [sentence] :=
    (language_eq_nil_or_singleton hSole .refl _).resolve_left hSome
  refine ⟨sentence, ?_, fun bound hBound => ?_⟩
  · exact choice_eq_zero_of_mem_language hSole .refl sentence (hFew ▸ List.mem_singleton_self _)
  · -- what fewer levels list is still listed, and nothing can stand beside it
    have hMem : sentence ∈ generateAll rules bound := by
      have hMore : (language rules (definedNames rules).card startName).Sublist
          (language (rules ++ []) (levels bound) startName) := language_sublist hBound startName
      rwa [hFew, List.singleton_sublist, List.append_nil] at hMore
    obtain ⟨other, hOther⟩ :=
      (language_eq_nil_or_singleton hSole .refl (levels bound)).resolve_left
        (List.ne_nil_of_mem hMem)
    rw [generateAll, hOther, List.mem_singleton] at hMem
    rw [generateAll, hOther, hMem]

/-- **Without alternatives the shape decides.** If each name that the start name reaches has a rule
and none leads back to itself, there is one sentence, all of its choices zero: any bound of at least
one level for each defined name lists it alone, and a run generates it exactly if its replies are in
range. Otherwise no bound lists a sentence, and a run whose replies are in range fails. To have no
bound is one of these bounds, as long as 64 bits count the names. -/
theorem shape_decides_of_withoutAlternatives (rules : List Rule)
    (hSole : WithoutAlternatives rules) :
    (Founded rules → ∃ sentence : Sentence, (∀ choice ∈ sentence.choices, choice = 0) ∧
      ∀ bound, (definedNames rules).card ≤ levels bound →
        generateAll rules bound = [sentence] ∧
          ∀ (σ : Type) (select : Selector σ) (state : σ),
            (generateWith select rules bound state).value = .ok sentence ↔
              (generateWith select rules bound state).InRange) ∧
    (¬ Founded rules → ∀ bound,
      generateAll rules bound = [] ∧
        ∀ (σ : Type) (select : Selector σ) (state : σ),
          (generateWith select rules bound state).InRange →
            (generateWith select rules bound state).value =
              .error (if defines rules startName then .noDerivableSentence
                else .missingStartRule)) := by
  constructor
  · intro hFounded
    obtain ⟨sentence, hZero, hAll⟩ := hFounded.exists_generateAll_eq_singleton hSole
    refine ⟨sentence, hZero, fun bound hBound => ⟨hAll bound hBound, fun σ select state => ?_⟩⟩
    exact generateWith_eq_ok_iff_of_singleton (hAll bound hBound) select state
  · intro hUnfounded bound
    have hNone : generateAll rules bound = [] := by
      by_contra hSome
      exact hUnfounded (founded_of_language_ne_nil hSole hSome)
    refine ⟨hNone, fun σ select state hRange => ?_⟩
    exact generateWith_eq_error_of_eq_nil hNone select state hRange

/-- A name that is used twice, behind a name that is out of reach and has alternatives. -/
def pairRules : List Rule :=
  [⟨"ASIDE", [.nonTerminal startName], 1⟩, ⟨"ASIDE", [.nonTerminal "ASIDE"], 2⟩,
    ⟨startName, [.nonTerminal "PAIR", .terminal "!"], 3⟩,
    ⟨"PAIR", [.nonTerminal "ONE", .terminal " and ", .nonTerminal "ONE"], 4⟩,
    ⟨"ONE", [.terminal "so"], 5⟩]

theorem refers_pairRules (h : Refers pairRules name target) :
    name = "ASIDE" ∨ name = startName ∧ target = "PAIR" ∨ name = "PAIR" ∧ target = "ONE" := by
  obtain ⟨rule, hRule, rfl, hTarget⟩ := h
  simp only [pairRules, List.mem_cons, List.not_mem_nil, or_false] at hRule
  rcases hRule with rfl | rfl | rfl | rfl | rfl
  all_goals simp_all

theorem reachable_pairRules (h : Reachable pairRules name) :
    name = startName ∨ name = "PAIR" ∨ name = "ONE" := by
  induction h with
  | refl => exact Or.inl rfl
  | tail _ hRefers ih =>
      rcases refers_pairRules hRefers with rfl | ⟨-, rfl⟩ | ⟨-, rfl⟩
      · exact absurd ih (by decide)
      · exact Or.inr (Or.inl rfl)
      · exact Or.inr (Or.inr rfl)

theorem withoutAlternatives_pairRules : WithoutAlternatives pairRules := by
  intro name hName
  rcases reachable_pairRules hName with rfl | rfl | rfl
  all_goals decide

/-- From the start name, references lead to names with smaller and smaller numbers. -/
def pairRank (name : String) : Nat :=
  if name = startName then 2 else if name = "PAIR" then 1 else 0

theorem pairRank_lt (hName : Reachable pairRules name)
    (hPath : TransGen (Refers pairRules) name target) : pairRank target < pairRank name := by
  have hStep : ∀ {name target}, Reachable pairRules name → Refers pairRules name target →
      pairRank target < pairRank name := by
    intro name target hName hRefers
    rcases refers_pairRules hRefers with rfl | ⟨rfl, rfl⟩ | ⟨rfl, rfl⟩
    · exact absurd (reachable_pairRules hName) (by decide)
    · decide
    · decide
  induction hPath with
  | single hRefers => exact hStep hName hRefers
  | tail hPath hRefers ih => exact (hStep (hName.trans hPath.to_reflTransGen) hRefers).trans ih

theorem founded_pairRules : Founded pairRules where
  defined := by
    intro name hName
    rcases reachable_pairRules hName with rfl | rfl | rfl
    all_goals decide
  acyclic := fun _ hName hCycle => Nat.lt_irrefl _ (pairRank_lt hName hCycle)

theorem withoutAlternatives_endlessRules : WithoutAlternatives endlessRules :=
  withoutAlternatives_of_nodup (by decide)

theorem not_founded_endlessRules : ¬ Founded endlessRules := by
  intro h
  have hOn : Refers endlessRules startName "REST" := ⟨_, List.mem_cons_self, rfl, by decide⟩
  have hBack : Refers endlessRules "REST" startName :=
    ⟨_, List.mem_cons_of_mem _ List.mem_cons_self, rfl, by decide⟩
  exact h.acyclic startName .refl (.head hOn (.single hBack))

/-- Four expansions give the one sentence, by dice or without a bound as well. Where two names only
lead to each other there is none. -/
theorem shape_decides_pairRules :
    (WithoutAlternatives pairRules ∧ Founded pairRules ∧
      (definedNames pairRules).card ≤ levels (some 4) ∧
      (definedNames pairRules).card ≤ levels none ∧
      generateAll pairRules none = [⟨"so and so!", [0, 0, 0, 0]⟩] ∧
      (generateWith throwDice pairRules none (.ofSeed 7)).value =
        .ok ⟨"so and so!", [0, 0, 0, 0]⟩) ∧
    (WithoutAlternatives endlessRules ∧ ¬ Founded endlessRules ∧
      generateAll endlessRules (some 9) = [] ∧
      (generateWith throwDice endlessRules (some 9) (.ofSeed 7)).value =
        .error .noDerivableSentence) := by
  have hCard : (definedNames pairRules).card = 4 := by decide
  have hFour : generateAll pairRules (some 4) = [⟨"so and so!", [0, 0, 0, 0]⟩] := by
    decide +kernel
  have hSome : (definedNames pairRules).card ≤ levels (some 4) := by rw [hCard]; decide
  have hNone : (definedNames pairRules).card ≤ levels none := by rw [hCard]; decide
  obtain ⟨sentence, -, hBounds⟩ :=
    (shape_decides_of_withoutAlternatives pairRules withoutAlternatives_pairRules).1
      founded_pairRules
  obtain rfl : sentence = ⟨"so and so!", [0, 0, 0, 0]⟩ := by
    rw [(hBounds (some 4) hSome).1] at hFour
    exact (List.cons.inj hFour).1
  obtain ⟨hAll, hRuns⟩ := hBounds none hNone
  obtain ⟨hEndless, hFails⟩ :=
    (shape_decides_of_withoutAlternatives endlessRules withoutAlternatives_endlessRules).2
      not_founded_endlessRules (some 9)
  exact ⟨⟨withoutAlternatives_pairRules, founded_pairRules, hSome, hNone, hAll,
      (hRuns Dice throwDice _).mpr throwDice_alwaysBelow.inRange⟩,
    withoutAlternatives_endlessRules, not_founded_endlessRules, hEndless,
      hFails Dice throwDice _ throwDice_alwaysBelow.inRange⟩

end PhraseGrammar
