import Mathlib.Algebra.Group.Nat.Defs
import Mathlib.Data.Finset.Card
import Mathlib.Data.Finset.Dedup
import Mathlib.Logic.Relation
import PhraseGrammar.Proofs.Derivation
import PhraseGrammar.Proofs.Walk

/-!
# Live references

A reference on the right of a rule is live when every name in front of it has a derivation.
Neither the enumeration nor a walk gets past a name without one, so both follow live references
only. From a name that reaches no cycle of live references, a path of them meets each defined
name once at most; the number of defined names ahead therefore bounds the levels that are ever
used (`language_eq_of_card_le`, `walk_eq_of_card_le`). If the start name reaches no such cycle,
every bound of at least the number of defined names acts as no bound.
-/

set_option autoImplicit false

namespace PhraseGrammar

open Relation

variable {rules : List Rule} {name target : String}

/-! ## References behind names that can be passed -/

/-- The name occurs among the symbols with names in front of it that can all be passed. -/
def OccursBehind (passable : String → Prop) (name : String) (symbols : List Symbol) : Prop :=
  ∃ before after, symbols = before ++ .nonTerminal name :: after ∧
    ∀ other, .nonTerminal other ∈ before → passable other

namespace OccursBehind

variable {passable : String → Prop} {rest : List Symbol}

@[simp] theorem not_nil : ¬ OccursBehind passable name [] := by
  rintro ⟨before, after, hSymbols, -⟩
  cases before <;> cases hSymbols

@[simp] theorem terminal_cons_iff {text : String} :
    OccursBehind passable name (.terminal text :: rest) ↔ OccursBehind passable name rest := by
  constructor
  · rintro ⟨_ | ⟨first, before⟩, after, hSymbols, hBefore⟩
    · cases hSymbols
    · obtain ⟨rfl, rfl⟩ := List.cons.inj hSymbols
      exact ⟨before, after, rfl, fun other hOther => hBefore other (List.mem_cons_of_mem _ hOther)⟩
  · rintro ⟨before, after, rfl, hBefore⟩
    refine ⟨.terminal text :: before, after, rfl, fun other hOther => hBefore other ?_⟩
    simpa using hOther

@[simp] theorem nonTerminal_cons_iff {other : String} :
    OccursBehind passable name (.nonTerminal other :: rest) ↔
      other = name ∨ passable other ∧ OccursBehind passable name rest := by
  constructor
  · rintro ⟨_ | ⟨first, before⟩, after, hSymbols, hBefore⟩
    · cases hSymbols
      exact Or.inl rfl
    · obtain ⟨rfl, rfl⟩ := List.cons.inj hSymbols
      have hLater : ∀ third, .nonTerminal third ∈ before → passable third := by
        intro third hThird
        exact hBefore third (List.mem_cons_of_mem _ hThird)
      have hRest : OccursBehind passable name (before ++ .nonTerminal name :: after) :=
        ⟨before, after, rfl, hLater⟩
      exact Or.inr ⟨hBefore other List.mem_cons_self, hRest⟩
  · rintro (rfl | ⟨hOther, before, after, rfl, hBefore⟩)
    · exact ⟨[], rest, rfl, fun third hThird => absurd hThird List.not_mem_nil⟩
    · refine ⟨.nonTerminal other :: before, after, rfl, fun third hThird => ?_⟩
      rcases List.mem_cons.mp hThird with hSame | hLater
      · exact Symbol.nonTerminal.inj hSame ▸ hOther
      · exact hBefore third hLater

theorem mono {fewer : String → Prop} {symbols : List Symbol}
    (h : OccursBehind fewer name symbols) (hMore : ∀ other, fewer other → passable other) :
    OccursBehind passable name symbols := by
  obtain ⟨before, after, hSymbols, hBefore⟩ := h
  exact ⟨before, after, hSymbols, fun other hOther => hMore other (hBefore other hOther)⟩

end OccursBehind

open OccursBehind

/-- Only names behind names with sentences count for the sentences of a right-hand side. -/
theorem expansions_congr {first second : String → List Sentence} {symbols : List Symbol}
    (h : ∀ name, OccursBehind (fun other => first other ≠ []) name symbols →
      first name = second name) :
    expansions first symbols = expansions second symbols := by
  induction symbols with
  | nil => rfl
  | cons symbol rest ih =>
      cases symbol with
      | terminal text =>
          have hRest := ih fun name hName => h name (terminal_cons_iff.mpr hName)
          rw [expansions, expansions, hRest]
      | nonTerminal other =>
          have hOther := h other (nonTerminal_cons_iff.mpr (Or.inl rfl))
          rw [expansions_nonTerminal, expansions_nonTerminal, ← hOther]
          by_cases hNone : first other = []
          · -- the two products are empty whatever stands on the right
            rw [hNone, List.flatMap_nil, List.flatMap_nil]
          · rw [ih fun name hName => h name (nonTerminal_cons_iff.mpr (Or.inr ⟨hNone, hName⟩))]

/-- Only names behind names that a walk can complete count for the walk of a right-hand side. -/
theorem walkSymbols_congr {first second : String → Decision (Option Sentence)}
    {symbols : List Symbol}
    (h : ∀ name, OccursBehind (fun other => ∃ choices sentence,
      (first other).Leads choices (some sentence)) name symbols → first name = second name) :
    walkSymbols first symbols = walkSymbols second symbols := by
  induction symbols with
  | nil => rfl
  | cons symbol rest ih =>
      cases symbol with
      | terminal text =>
          have hRest := ih fun name hName => h name (terminal_cons_iff.mpr hName)
          rw [walkSymbols, walkSymbols, hRest]
      | nonTerminal other =>
          have hOther := h other (nonTerminal_cons_iff.mpr (Or.inl rfl))
          rw [walkSymbols, walkSymbols, ← hOther]
          refine Decision.bind_congr fun choices found hLeads => ?_
          cases found with
          | none => rfl
          | some front =>
              have hRest := ih fun name hName =>
                h name (nonTerminal_cons_iff.mpr (Or.inr ⟨⟨choices, front, hLeads⟩, hName⟩))
              simp only [hRest]

/-! ## Live references -/

/-- The name has a derivation within some number of levels. -/
def Productive (rules : List Rule) (name : String) : Prop :=
  ∃ level, Nonempty (Derivation rules level name)

/-- Some rule for the name has the target on its right, behind productive names only. -/
def LiveRefers (rules : List Rule) (name target : String) : Prop :=
  ∃ rule ∈ rules, rule.left = name ∧ OccursBehind (Productive rules) target rule.right

/-- No cycle of live references is reached by live references from the name. -/
def LiveAcyclic (rules : List Rule) (name : String) : Prop :=
  ∀ other, ReflTransGen (LiveRefers rules) name other →
    ¬ TransGen (LiveRefers rules) other other

/-- The names with rules. -/
def definedNames (rules : List Rule) : Finset String := (rules.map Rule.left).toFinset

theorem mem_definedNames_iff : name ∈ definedNames rules ↔ candidates rules name ≠ [] := by
  simp [definedNames, candidates]

theorem productive_of_language_ne_nil {level : Nat} (h : language rules level name ≠ []) :
    Productive rules name :=
  ⟨level, nonempty_derivation_iff.mpr h⟩

theorem liveRefers_of_mem_candidates {rule : Rule} (hRule : rule ∈ candidates rules name)
    (hOccurs : OccursBehind (Productive rules) target rule.right) :
    LiveRefers rules name target := by
  obtain ⟨hMem, hLeft⟩ := mem_candidates.mp hRule
  exact ⟨rule, hMem, hLeft, hOccurs⟩

theorem LiveRefers.mem_definedNames (h : LiveRefers rules name target) :
    name ∈ definedNames rules := by
  obtain ⟨rule, hRule, hLeft, -⟩ := h
  exact mem_definedNames_iff.mpr (List.ne_nil_of_mem (mem_candidates.mpr ⟨hRule, hLeft⟩))

theorem LiveAcyclic.of_liveRefers (h : LiveAcyclic rules name)
    (hRefers : LiveRefers rules name target) : LiveAcyclic rules target :=
  fun other hOther => h other (.head hRefers hOther)

/-! ## The defined names ahead -/

open Classical in
/-- The defined names that live references reach from the name, itself included. -/
noncomputable def namesAhead (rules : List Rule) (name : String) : Finset String :=
  (definedNames rules).filter (ReflTransGen (LiveRefers rules) name)

theorem mem_namesAhead_iff {other : String} :
    other ∈ namesAhead rules name ↔
      other ∈ definedNames rules ∧ ReflTransGen (LiveRefers rules) name other := by
  classical
  exact Finset.mem_filter

theorem candidates_eq_nil_of_namesAhead_eq_empty (h : namesAhead rules name = ∅) :
    candidates rules name = [] := by
  by_contra hSome
  have hSelf : name ∈ namesAhead rules name :=
    mem_namesAhead_iff.mpr ⟨mem_definedNames_iff.mpr hSome, .refl⟩
  rw [h] at hSelf
  exact absurd hSelf (Finset.notMem_empty name)

/-- A live reference leaves fewer names ahead: the referring name is not ahead any more. -/
theorem card_namesAhead_lt (h : LiveAcyclic rules name) (hRefers : LiveRefers rules name target) :
    (namesAhead rules target).card < (namesAhead rules name).card := by
  apply Finset.card_lt_card
  refine (Finset.ssubset_iff_of_subset ?_).mpr ⟨name, ?_, ?_⟩
  · intro other hOther
    obtain ⟨hDefined, hPath⟩ := mem_namesAhead_iff.mp hOther
    exact mem_namesAhead_iff.mpr ⟨hDefined, .head hRefers hPath⟩
  · exact mem_namesAhead_iff.mpr ⟨hRefers.mem_definedNames, .refl⟩
  · intro hBack
    exact h name .refl (.head' hRefers (mem_namesAhead_iff.mp hBack).2)

theorem card_namesAhead_le : (namesAhead rules name).card ≤ (definedNames rules).card :=
  Finset.card_le_card fun _ hOther => (mem_namesAhead_iff.mp hOther).1

/-- What is found for a name within some levels does not depend on the levels beyond the number
of names ahead, if it is the same within any levels for a name without rules, and is otherwise
fixed by what is found one level lower for the names that the name live-refers to. -/
theorem eq_of_card_namesAhead_le {α : Type} (found : Nat → String → α)
    (hNone : ∀ low high name, candidates rules name = [] → found low name = found high name)
    (hStep : ∀ low high name,
      (∀ target, LiveRefers rules name target → found low target = found high target) →
        found (low + 1) name = found (high + 1) name)
    {low high : Nat} (hAcyclic : LiveAcyclic rules name)
    (hCard : (namesAhead rules name).card ≤ low) (hLe : low ≤ high) :
    found low name = found high name := by
  induction low generalizing name high with
  | zero =>
      have hEmpty : namesAhead rules name = ∅ := Finset.card_eq_zero.mp (Nat.le_zero.mp hCard)
      exact hNone 0 high name (candidates_eq_nil_of_namesAhead_eq_empty hEmpty)
  | succ low ih =>
      obtain ⟨rest, rfl⟩ := Nat.exists_eq_add_of_le hLe
      rw [Nat.add_right_comm]
      apply hStep
      intro target hRefers
      -- a live reference takes one level and has at least one name less ahead
      have hFewer := card_namesAhead_lt hAcyclic hRefers
      have hTarget : (namesAhead rules target).card ≤ low := by omega
      exact ih (hAcyclic.of_liveRefers hRefers) hTarget (Nat.le_add_right low rest)

/-! ## Levels beyond the names ahead change nothing -/

theorem language_succ_congr {low high : Nat}
    (h : ∀ target, LiveRefers rules name target →
      language rules low target = language rules high target) :
    language rules (low + 1) name = language rules (high + 1) name := by
  rw [language, language]
  refine List.flatMap_congr fun entry hEntry => ?_
  have hRule : entry.1 ∈ candidates rules name := List.fst_mem_of_mem_zipIdx hEntry
  have hRight : expansions (language rules low) entry.1.right =
      expansions (language rules high) entry.1.right := by
    apply expansions_congr
    intro target hOccurs
    have hLive : OccursBehind (Productive rules) target entry.1.right :=
      hOccurs.mono fun other hOther => productive_of_language_ne_nil hOther
    exact h target (liveRefers_of_mem_candidates hRule hLive)
  exact congrArg _ hRight

theorem walk_succ_congr {low high : Nat}
    (h : ∀ target, LiveRefers rules name target → walk rules low target = walk rules high target) :
    walk rules (low + 1) name = walk rules (high + 1) name := by
  rw [walk, walk]
  split
  · rfl
  · congr 1
    funext index
    have hRule : (candidates rules name)[index] ∈ candidates rules name :=
      List.getElem_mem index.isLt
    have hRight : walkSymbols (walk rules low) (candidates rules name)[index].right =
        walkSymbols (walk rules high) (candidates rules name)[index].right := by
      apply walkSymbols_congr
      intro target hOccurs
      have hLive : OccursBehind (Productive rules) target (candidates rules name)[index].right := by
        apply hOccurs.mono
        -- a walk that completes a name has found a sentence of it
        rintro other ⟨choices, sentence, hLeads⟩
        have hMem := ((leads_walk_iff rules low other choices sentence).mp hLeads).1
        exact productive_of_language_ne_nil (List.ne_nil_of_mem hMem)
      exact h target (liveRefers_of_mem_candidates hRule hLive)
    exact congrArg _ hRight

/-- The sentences of a name do not depend on the levels beyond the names ahead. -/
theorem language_eq_of_card_le {low high : Nat} (hAcyclic : LiveAcyclic rules name)
    (hCard : (namesAhead rules name).card ≤ low) (hLe : low ≤ high) :
    language rules low name = language rules high name := by
  refine eq_of_card_namesAhead_le (language rules) (fun low high name hNone => ?_)
    (fun low high name h => language_succ_congr h) hAcyclic hCard hLe
  rw [language_eq_nil_of_candidates_eq_nil hNone, language_eq_nil_of_candidates_eq_nil hNone]

/-- The walk of a name does not depend on the levels beyond the names ahead. -/
theorem walk_eq_of_card_le {low high : Nat} (hAcyclic : LiveAcyclic rules name)
    (hCard : (namesAhead rules name).card ≤ low) (hLe : low ≤ high) :
    walk rules low name = walk rules high name := by
  refine eq_of_card_namesAhead_le (walk rules) (fun low high name hNone => ?_)
    (fun low high name h => walk_succ_congr h) hAcyclic hCard hLe
  rw [walk_eq_done_of_candidates_eq_nil hNone, walk_eq_done_of_candidates_eq_nil hNone]

/-- **Without live cycles the bound has no effect.** If the start name reaches no cycle of live
references, a bound of at least the number of defined names gives the sentences that no bound
gives, and every selector makes the same run under both: the same result after the same counts
and replies, with the same state left. -/
theorem generate_unbounded_of_liveAcyclic (rules : List Rule)
    (hAcyclic : LiveAcyclic rules startName)
    (hFew : (definedNames rules).card < 2 ^ 64) (bound : Nat)
    (hBound : (definedNames rules).card ≤ bound) :
    generateAll rules (some bound) = generateAll rules none ∧
      ∀ (σ : Type) (select : Selector σ) (state : σ),
        generateWith select rules (some bound) state = generateWith select rules none state := by
  have hCard : (namesAhead rules startName).card ≤ (definedNames rules).card := card_namesAhead_le
  have hNone : (namesAhead rules startName).card ≤ levels none := by
    rw [levels]
    omega
  have hSome : (namesAhead rules startName).card ≤ levels (some bound) := hCard.trans hBound
  -- both bounds agree with the number of names ahead as a bound
  have hAll : generateAll rules (some bound) = generateAll rules none := by
    rw [generateAll, generateAll, ← language_eq_of_card_le hAcyclic le_rfl hSome,
      ← language_eq_of_card_le hAcyclic le_rfl hNone]
  have hWalk : walk rules (levels (some bound)) startName =
      walk rules (levels none) startName := by
    rw [← walk_eq_of_card_le hAcyclic le_rfl hSome, ← walk_eq_of_card_le hAcyclic le_rfl hNone]
  constructor
  · exact hAll
  · intro σ select state
    rw [generateWith, generateWith, generate, generate, hAll, hWalk]

/-- A start name with a sentence, and with a rule that repeats it behind a name without rules. -/
def cycleBehindGap : List Rule :=
  [⟨startName, [.nonTerminal "GONE", .nonTerminal startName], 1⟩,
    ⟨startName, [.terminal "Start to ", .nonTerminal "END"], 2⟩,
    ⟨"END", [.terminal "end"], 3⟩]

theorem not_productive_gone : ¬ Productive cycleBehindGap "GONE" := by
  rintro ⟨level, hDerivation⟩
  rw [nonempty_derivation_iff] at hDerivation
  exact hDerivation (language_eq_nil_of_candidates_eq_nil rfl level)

/-- The repetition is a reference, but not a live one. -/
theorem eq_startName_of_liveRefers_cycleBehindGap (h : LiveRefers cycleBehindGap name target) :
    name = startName ∧ target ≠ startName := by
  obtain ⟨rule, hRule, rfl, hOccurs⟩ := h
  simp only [cycleBehindGap, List.mem_cons, List.not_mem_nil, or_false] at hRule
  rcases hRule with rfl | rfl | rfl
  · have hTarget : "GONE" = target := by simpa [not_productive_gone] using hOccurs
    exact ⟨rfl, hTarget ▸ by decide⟩
  · have hTarget : "END" = target := by simpa using hOccurs
    exact ⟨rfl, hTarget ▸ by decide⟩
  · simp at hOccurs

/-- At a cycle that is not live: two levels give what any number of them gives. -/
theorem generate_unbounded_cycleBehindGap :
    LiveAcyclic cycleBehindGap startName ∧
    (definedNames cycleBehindGap).card < 2 ^ 64 ∧ (definedNames cycleBehindGap).card ≤ 2 ∧
    generateAll cycleBehindGap (some 2) = generateAll cycleBehindGap none ∧
      ∀ (σ : Type) (select : Selector σ) (state : σ),
        generateWith select cycleBehindGap (some 2) state =
          generateWith select cycleBehindGap none state := by
  have hAcyclic : LiveAcyclic cycleBehindGap startName := by
    intro name _ hCycle
    obtain ⟨_, hOut, -⟩ := TransGen.head'_iff.mp hCycle
    obtain ⟨_, -, hIn⟩ := TransGen.tail'_iff.mp hCycle
    exact (eq_startName_of_liveRefers_cycleBehindGap hIn).2
      (eq_startName_of_liveRefers_cycleBehindGap hOut).1
  have hCard : (definedNames cycleBehindGap).card = 2 := by decide
  have hFew : (definedNames cycleBehindGap).card < 2 ^ 64 := by rw [hCard]; decide
  exact ⟨hAcyclic, hFew, hCard.le,
    generate_unbounded_of_liveAcyclic cycleBehindGap hAcyclic hFew 2 hCard.le⟩

end PhraseGrammar
