import Mathlib.Data.List.Forall2
import Mathlib.Logic.Relation
import PhraseGrammar.Generate
import PhraseGrammar.Proofs.Decision

/-!
# Rules that generate alike

Neither the enumeration nor a walk looks at a name itself: what counts is how many alternatives
there are for it, what their texts are, and which names stand between the texts. A relation
between the names of two lists of rules is a `Bisimulation` when related names agree in this, with
related names at the same places, and when the start name is related to itself. Related names then
have the same sentences in the same order and the same walk (`Bisimulation.language_eq`,
`Bisimulation.walk_eq`), so the two lists generate alike under every bound and with every selector.

Four changes to a list of rules are of this kind: other line numbers, another order of rules for
different names, other rules for names that the start name does not reach, and other names.
-/

set_option autoImplicit false

namespace PhraseGrammar

open Relation

variable {first second rules : List Rule} {related : String → String → Prop}
  {name other : String} {newName : String → String}

/-! ## Bisimulations -/

/-- The symbols are one text, or related names. -/
inductive Symbol.Alike (related : String → String → Prop) : Symbol → Symbol → Prop where
  | terminal (text : String) : Alike related (.terminal text) (.terminal text)
  | nonTerminal {name other : String} (h : related name other) :
      Alike related (.nonTerminal name) (.nonTerminal other)

/-- The right-hand sides are equally long and alike symbol by symbol. -/
def Rule.Alike (related : String → String → Prop) (first second : Rule) : Prop :=
  List.Forall₂ (Symbol.Alike related) first.right second.right

/-- Related names have equally many alternatives, which are alike in their order. -/
structure Bisimulation (first second : List Rule) (related : String → String → Prop) : Prop where
  start : related startName startName
  alternatives : ∀ {name other : String}, related name other →
    List.Forall₂ (Rule.Alike related) (candidates first name) (candidates second other)

/-- Both lists of rules give the same sentences within every bound, and every selector makes the
same run with both: the same result after the same counts and replies, and the same state left. -/
def GenerateAlike (first second : List Rule) : Prop :=
  ∀ bound, generateAll first bound = generateAll second bound ∧
    ∀ (σ : Type) (select : Selector σ) (state : σ),
      generateWith select first bound state = generateWith select second bound state

/-! ## Sentences of related names -/

/-- Right-hand sides that are alike have the same sentences if related names have. -/
theorem expansions_eq_of_alike {expand otherExpand : String → List Sentence}
    (hNames : ∀ {name other}, related name other → expand name = otherExpand other)
    {symbols others : List Symbol} (h : List.Forall₂ (Symbol.Alike related) symbols others) :
    expansions expand symbols = expansions otherExpand others := by
  induction h with
  | nil => rfl
  | @cons symbol otherSymbol rest otherRest hSymbol _ ih =>
      cases hSymbol with
      | terminal text => rw [expansions, expansions, ih]
      | nonTerminal hRelated =>
          rw [expansions_nonTerminal, expansions_nonTerminal, hNames hRelated, ih]

/-- Lists that correspond element by element, with their numbers, give the same list if each pair of
elements does. -/
theorem flatMap_zipIdx_eq_of_forall₂ {α β γ : Type} {matching : α → β → Prop} {f : α × Nat → List γ}
    {g : β × Nat → List γ} {elements : List α} {others : List β}
    (hSame : ∀ {element other} number, matching element other →
      f (element, number) = g (other, number))
    (h : List.Forall₂ matching elements others) (start : Nat) :
    (elements.zipIdx start).flatMap f = (others.zipIdx start).flatMap g := by
  induction h generalizing start with
  | nil => rfl
  | cons hFirst _ ih =>
      rw [List.zipIdx_cons, List.zipIdx_cons, List.flatMap_cons, List.flatMap_cons,
        hSame start hFirst, ih]

/-- Related names have the same sentences in the same order. -/
theorem Bisimulation.language_eq (h : Bisimulation first second related) (level : Nat)
    (hRelated : related name other) : language first level name = language second level other := by
  induction level generalizing name other with
  | zero => rfl
  | succ level ih =>
      rw [language, language]
      refine flatMap_zipIdx_eq_of_forall₂ (fun number hAlike => ?_) (h.alternatives hRelated) 0
      exact congrArg _ (expansions_eq_of_alike (fun hNames => ih hNames) hAlike)

/-! ## Walks of related names -/

/-- Right-hand sides that are alike have the same walk if related names have. -/
theorem walkSymbols_eq_of_alike {walk otherWalk : String → Decision (Option Sentence)}
    (hNames : ∀ {name other}, related name other → walk name = otherWalk other)
    {symbols others : List Symbol} (h : List.Forall₂ (Symbol.Alike related) symbols others) :
    walkSymbols walk symbols = walkSymbols otherWalk others := by
  induction h with
  | nil => rfl
  | @cons symbol otherSymbol rest otherRest hSymbol _ ih =>
      cases hSymbol with
      | terminal text => rw [walkSymbols, walkSymbols, ih]
      | nonTerminal hRelated => rw [walkSymbols, walkSymbols, hNames hRelated, ih]

theorem Bisimulation.candidates_eq_nil_iff (h : Bisimulation first second related)
    (hRelated : related name other) : candidates first name = [] ↔ candidates second other = [] := by
  rw [← List.length_eq_zero_iff, ← List.length_eq_zero_iff, (h.alternatives hRelated).length_eq]

/-- Related names have the same walk. -/
theorem Bisimulation.walk_eq (h : Bisimulation first second related) (level : Nat)
    (hRelated : related name other) : walk first level name = walk second level other := by
  induction level generalizing name other with
  | zero => rfl
  | succ level ih =>
      have hAlternatives := h.alternatives hRelated
      by_cases hNone : candidates first name = []
      · have hOtherNone := (h.candidates_eq_nil_iff hRelated).mp hNone
        rw [walk_eq_done_of_candidates_eq_nil hNone, walk_eq_done_of_candidates_eq_nil hOtherNone]
      · have hOtherSome := (h.candidates_eq_nil_iff hRelated).not.mp hNone
        rw [walk, walk, if_neg hNone, if_neg hOtherSome]
        refine Decision.choose_eq_choose hAlternatives.length_eq fun index hIndex hOther => ?_
        have hAlike : Rule.Alike related (candidates first name)[index]
            (candidates second other)[index] := hAlternatives.get hIndex hOther
        exact congrArg _ (walkSymbols_eq_of_alike (fun hNames => ih hNames) hAlike)

theorem Bisimulation.defines_startName_eq (h : Bisimulation first second related) :
    defines first startName = defines second startName := by
  rw [Bool.eq_iff_iff, defines_iff, defines_iff]
  exact (h.candidates_eq_nil_iff h.start).not

theorem Bisimulation.generateAlike (h : Bisimulation first second related) :
    GenerateAlike first second := by
  intro bound
  have hAll : generateAll first bound = generateAll second bound :=
    h.language_eq (levels bound) h.start
  have hGenerate : generate first bound = generate second bound := by
    rw [generate, generate, h.defines_startName_eq, h.walk_eq (levels bound) h.start, hAll]
  refine ⟨hAll, fun σ select state => ?_⟩
  rw [generateWith, generateWith, hGenerate]

/-! ## Names out of reach -/

/-- Some rule for the name has the target on its right. -/
def Refers (rules : List Rule) (name target : String) : Prop :=
  ∃ rule ∈ rules, rule.left = name ∧ .nonTerminal target ∈ rule.right

/-- References lead from the start name to the name. -/
def Reachable (rules : List Rule) (name : String) : Prop :=
  ReflTransGen (Refers rules) startName name

/-- A right-hand side is like itself if its names are related to themselves. -/
theorem forall₂_alike_self {symbols : List Symbol}
    (h : ∀ name, .nonTerminal name ∈ symbols → related name name) :
    List.Forall₂ (Symbol.Alike related) symbols symbols := by
  rw [List.forall₂_same]
  intro symbol hSymbol
  cases symbol with
  | terminal text => exact .terminal text
  | nonTerminal name => exact .nonTerminal (h name hSymbol)

/-- Rules generate alike if the names that one of them reaches have the same right-hand sides in the
same order in both. -/
theorem generateAlike_of_map_right_eq
    (h : ∀ name, Reachable first name →
      (candidates first name).map Rule.right = (candidates second name).map Rule.right) :
    GenerateAlike first second := by
  -- a reachable name is related to itself
  have hBisimulation : Bisimulation first second fun name other =>
      name = other ∧ Reachable first name := by
    refine ⟨⟨rfl, .refl⟩, ?_⟩
    rintro name _ ⟨rfl, hReachable⟩
    have hRights : List.Forall₂ (fun rule other => rule.right = other.right)
        (candidates first name) (candidates second name) := by
      rw [← List.forall₂_map_right_iff, ← List.forall₂_map_left_iff, List.forall₂_eq_eq_eq]
      exact h name hReachable
    have hNames : ∀ rule ∈ candidates first name, ∀ target, .nonTerminal target ∈ rule.right →
        Reachable first target := by
      intro rule hRule target hTarget
      obtain ⟨hMem, hLeft⟩ := mem_candidates.mp hRule
      exact hReachable.tail ⟨rule, hMem, hLeft, hTarget⟩
    refine (List.forall₂_and_left _ _ |>.mpr ⟨hNames, hRights⟩).imp fun rule other hBoth => ?_
    obtain ⟨hTargets, hRight⟩ := hBoth
    rw [Rule.Alike, ← hRight]
    exact forall₂_alike_self fun target hTarget => ⟨rfl, hTargets target hTarget⟩
  exact hBisimulation.generateAlike

/-- Rules with the same names on their left and the same symbols on their right have the same
alternatives up to line numbers. -/
theorem map_right_candidates_eq_of_forall₂
    (h : List.Forall₂ (fun rule other => rule.left = other.left ∧ rule.right = other.right)
      first second) (name : String) :
    (candidates first name).map Rule.right = (candidates second name).map Rule.right := by
  induction h with
  | nil => rfl
  | @cons rule other rest otherRest hRule _ ih =>
      obtain ⟨hLeft, hRight⟩ := hRule
      rw [candidates, candidates] at ih ⊢
      by_cases hName : rule.left = name
      · have hOther : other.left = name := hLeft ▸ hName
        rw [List.filter_cons_of_pos (by simpa using hName),
          List.filter_cons_of_pos (by simpa using hOther), List.map_cons, List.map_cons, hRight, ih]
      · have hOther : other.left ≠ name := hLeft ▸ hName
        rw [List.filter_cons_of_neg (by simpa using hName),
          List.filter_cons_of_neg (by simpa using hOther), ih]

/-! ## Other names -/

/-- The name is the start name, or stands on the left or on the right of a rule. -/
def Mentioned (rules : List Rule) (name : String) : Prop :=
  name = startName ∨ ∃ rule ∈ rules, rule.left = name ∨ .nonTerminal name ∈ rule.right

/-- The symbol with another name. -/
def Symbol.rename (newName : String → String) : Symbol → Symbol
  | .terminal text => .terminal text
  | .nonTerminal name => .nonTerminal (newName name)

/-- The rule with other names on both sides. -/
def Rule.rename (newName : String → String) (rule : Rule) : Rule :=
  { rule with left := newName rule.left, right := rule.right.map (Symbol.rename newName) }

/-- The alternatives for a new name are those for the old one, renamed. -/
theorem candidates_map_rename
    (hDistinct : ∀ name other, Mentioned rules name → Mentioned rules other →
      newName name = newName other → name = other)
    (hName : Mentioned rules name) :
    candidates (rules.map (Rule.rename newName)) (newName name) =
      (candidates rules name).map (Rule.rename newName) := by
  rw [candidates, candidates, List.filter_map]
  congr 1
  refine List.filter_congr fun rule hRule => ?_
  have hLeft : Mentioned rules rule.left := Or.inr ⟨rule, hRule, Or.inl rfl⟩
  show decide (newName rule.left = newName name) = decide (rule.left = name)
  rw [decide_eq_decide]
  exact ⟨hDistinct _ _ hLeft hName, congrArg newName⟩

theorem bisimulation_rename
    (hDistinct : ∀ name other, Mentioned rules name → Mentioned rules other →
      newName name = newName other → name = other)
    (hStart : newName startName = startName) :
    Bisimulation rules (rules.map (Rule.rename newName)) fun name other =>
      Mentioned rules name ∧ newName name = other := by
  refine ⟨⟨Or.inl rfl, hStart⟩, ?_⟩
  rintro name _ ⟨hName, rfl⟩
  rw [candidates_map_rename hDistinct hName, List.forall₂_map_right_iff, List.forall₂_same]
  intro rule hRule
  rw [Rule.Alike, Rule.rename, List.forall₂_map_right_iff, List.forall₂_same]
  intro symbol hSymbol
  cases symbol with
  | terminal text => exact .terminal text
  | nonTerminal target =>
      have hMem : rule ∈ rules := (mem_candidates.mp hRule).1
      exact .nonTerminal ⟨Or.inr ⟨rule, hMem, Or.inr hSymbol⟩, rfl⟩

/-! ## What does not matter -/

/-- **Rules matter up to bisimilarity.** Two lists of rules generate alike if a bisimulation relates
them. So it makes no difference on which lines the rules stand, in which order rules for different
names are listed, what rules there are for names that the start name does not reach, and which
names, told apart from each other, are used besides the start name. -/
theorem generateAlike_of_bisimulation :
    (∀ first second related, Bisimulation first second related → GenerateAlike first second) ∧
    (∀ first second : List Rule,
      List.Forall₂ (fun rule other => rule.left = other.left ∧ rule.right = other.right)
        first second → GenerateAlike first second) ∧
    (∀ first second : List Rule, (∀ name, candidates first name = candidates second name) →
      GenerateAlike first second) ∧
    (∀ first second : List Rule,
      (∀ name, Reachable first name → candidates first name = candidates second name) →
        GenerateAlike first second) ∧
    ∀ (rules : List Rule) (newName : String → String),
      (∀ name other, Mentioned rules name → Mentioned rules other →
        newName name = newName other → name = other) →
      newName startName = startName →
        GenerateAlike rules (rules.map (Rule.rename newName)) := by
  refine ⟨fun first second related h => h.generateAlike, fun first second hLines => ?_,
    fun first second hOrder => ?_, fun first second hReachable => ?_,
    fun rules newName hDistinct hStart => ?_⟩
  · exact generateAlike_of_map_right_eq fun name _ => map_right_candidates_eq_of_forall₂ hLines name
  · exact generateAlike_of_map_right_eq fun name _ => congrArg _ (hOrder name)
  · exact generateAlike_of_map_right_eq fun name hName => congrArg _ (hReachable name hName)
  · exact (bisimulation_rename hDistinct hStart).generateAlike

/-- Two names, each of which is a text or the other name. -/
def twinRules : List Rule :=
  [⟨startName, [.nonTerminal "A", .terminal " and ", .nonTerminal "B"], 1⟩,
    ⟨"A", [.terminal "so"], 2⟩, ⟨"A", [.nonTerminal "B"], 3⟩,
    ⟨"B", [.terminal "so"], 4⟩, ⟨"B", [.nonTerminal "A"], 5⟩]

/-- One name for both of them. -/
def mergedRules : List Rule :=
  [⟨"X", [.terminal "so"], 1⟩,
    ⟨startName, [.nonTerminal "X", .terminal " and ", .nonTerminal "X"], 2⟩,
    ⟨"X", [.nonTerminal "X"], 3⟩]

/-- The same in another order, with the start name behind a name that is out of reach. -/
def mergedRulesBehind : List Rule :=
  [⟨"Z", [.nonTerminal startName], 7⟩,
    ⟨startName, [.nonTerminal "X", .terminal " and ", .nonTerminal "X"], 2⟩,
    ⟨"X", [.terminal "so"], 1⟩, ⟨"X", [.nonTerminal "X"], 3⟩]

theorem bisimulation_twinRules :
    Bisimulation twinRules mergedRules fun name other =>
      name = startName ∧ other = startName ∨ (name = "A" ∨ name = "B") ∧ other = "X" := by
  refine ⟨Or.inl ⟨rfl, rfl⟩, ?_⟩
  have hNames : ∀ name, name = "A" ∨ name = "B" → Symbol.Alike (fun name other =>
      name = startName ∧ other = startName ∨ (name = "A" ∨ name = "B") ∧ other = "X")
        (.nonTerminal name) (.nonTerminal "X") :=
    fun name hName => .nonTerminal (Or.inr ⟨hName, rfl⟩)
  rintro name other (⟨rfl, rfl⟩ | ⟨rfl | rfl, rfl⟩)
  · exact .cons (.cons (hNames "A" (Or.inl rfl)) (.cons (.terminal " and ")
      (.cons (hNames "B" (Or.inr rfl)) .nil))) .nil
  · exact .cons (.cons (.terminal "so") .nil) (.cons (.cons (hNames "B" (Or.inr rfl)) .nil) .nil)
  · exact .cons (.cons (.terminal "so") .nil) (.cons (.cons (hNames "A" (Or.inl rfl)) .nil) .nil)

theorem ne_of_reachable_mergedRules (h : Reachable mergedRules name) : name ≠ "Z" := by
  rcases ReflTransGen.cases_tail h with rfl | ⟨_, -, rule, hRule, -, hTarget⟩
  · decide
  · rintro rfl
    revert rule
    decide

theorem candidates_mergedRulesBehind (h : name ≠ "Z") :
    candidates mergedRules name = candidates mergedRulesBehind name := by
  by_cases hStart : name = startName
  · subst hStart
    rfl
  · by_cases hMerged : name = "X"
    · subst hMerged
      rfl
    · simp [candidates, mergedRules, mergedRulesBehind, h.symm, Ne.symm hStart, Ne.symm hMerged]

/-- The names of the twins for each other. -/
def swapTwins (name : String) : String :=
  if name = "A" then "B" else if name = "B" then "A" else name

theorem swapTwins_swapTwins (name : String) : swapTwins (swapTwins name) = name := by
  by_cases hFirst : name = "A"
  · subst hFirst
    rfl
  · by_cases hSecond : name = "B"
    · subst hSecond
      rfl
    · simp [swapTwins, hFirst, hSecond]

/-- The twins merged, the lines all zero, the rules in another order, a rule out of reach, and the
twins' names swapped. -/
theorem generateAlike_twinRules :
    GenerateAlike twinRules mergedRules ∧
      GenerateAlike twinRules (twinRules.map fun rule => { rule with lineNumber := 0 }) ∧
      GenerateAlike mergedRules mergedRulesBehind.tail ∧
      GenerateAlike mergedRules mergedRulesBehind ∧
      GenerateAlike twinRules (twinRules.map (Rule.rename swapTwins)) := by
  obtain ⟨hBisimilar, hLines, hOrder, hReachable, hNames⟩ := generateAlike_of_bisimulation
  refine ⟨hBisimilar _ _ _ bisimulation_twinRules, hLines _ _ ?_, hOrder _ _ fun name => ?_,
    hReachable _ _ fun name hName => ?_, hNames _ _ (fun name other _ _ hSame => ?_) rfl⟩
  · rw [List.forall₂_map_right_iff, List.forall₂_same]
    exact fun rule _ => ⟨rfl, rfl⟩
  · by_cases hName : name = "Z"
    · subst hName
      rfl
    · rw [candidates_mergedRulesBehind hName]
      simp [candidates, mergedRulesBehind, Ne.symm hName]
  · exact candidates_mergedRulesBehind (ne_of_reachable_mergedRules hName)
  · rw [← swapTwins_swapTwins name, hSame, swapTwins_swapTwins]

end PhraseGrammar
