import Mathlib.Order.Monotone.Basic
import PhraseGrammar.Proofs.LiveReference

/-!
# Productive names

A name is productive when it has a derivation. With one level more, the names that become
productive are those with an alternative whose names were productive before; so once a level adds
no name, no later level does. A level that adds a name adds a defined one, and the names that are
productive at all are productive within as many levels as there are defined names
(`language_eq_nil_of_card_eq_nil`). A bound of that many levels therefore decides whether the
start name has any derivation.
-/

set_option autoImplicit false

namespace PhraseGrammar

variable {rules : List Rule} {name : String} {level : Nat}

/-! ## One level more -/

/-- A right-hand side has a sentence exactly if each of its names has one. -/
theorem expansions_ne_nil_iff {expand : String → List Sentence} {symbols : List Symbol} :
    expansions expand symbols ≠ [] ↔
      ∀ name, .nonTerminal name ∈ symbols → expand name ≠ [] := by
  induction symbols with
  | nil => simp [expansions]
  | cons symbol rest ih =>
      cases symbol with
      | terminal text => simpa [expansions] using ih
      | nonTerminal name =>
          have hProduct : expansions expand (.nonTerminal name :: rest) ≠ [] ↔
              expand name ≠ [] ∧ expansions expand rest ≠ [] := by
            rw [expansions_nonTerminal]
            by_cases hRest : expansions expand rest = []
            · simp [hRest]
            · cases expand name with
              | nil => simp
              | cons head more => simp [hRest]
          rw [hProduct, ih]
          constructor
          · rintro ⟨hName, hRest⟩ other hOther
            rcases List.mem_cons.mp hOther with hSame | hLater
            · exact Symbol.nonTerminal.inj hSame ▸ hName
            · exact hRest other hLater
          · intro h
            refine ⟨h name List.mem_cons_self, fun other hOther => ?_⟩
            exact h other (List.mem_cons_of_mem _ hOther)

/-- A name has a sentence within one level more exactly if some alternative for it refers only to
names that have one. -/
theorem language_succ_ne_nil_iff :
    language rules (level + 1) name ≠ [] ↔
      ∃ rule ∈ candidates rules name,
        ∀ other, .nonTerminal other ∈ rule.right → language rules level other ≠ [] := by
  constructor
  · intro h
    obtain ⟨sentence, hSentence⟩ := List.exists_mem_of_ne_nil _ h
    obtain ⟨index, tail, hTail, -⟩ := mem_language_succ.mp hSentence
    exact ⟨_, List.getElem_mem index.isLt, expansions_ne_nil_iff.mp (List.ne_nil_of_mem hTail)⟩
  · rintro ⟨rule, hRule, hNames⟩
    obtain ⟨index, hIndex, rfl⟩ := List.getElem_of_mem hRule
    obtain ⟨tail, hTail⟩ := List.exists_mem_of_ne_nil _ (expansions_ne_nil_iff.mpr hNames)
    exact List.ne_nil_of_mem (mem_language_succ.mpr ⟨⟨index, hIndex⟩, tail, hTail, rfl⟩)

theorem language_succ_ne_nil (h : language rules level name ≠ []) :
    language rules (level + 1) name ≠ [] := by
  induction level generalizing name with
  | zero => exact absurd rfl h
  | succ level ih =>
      obtain ⟨rule, hRule, hNames⟩ := language_succ_ne_nil_iff.mp h
      exact language_succ_ne_nil_iff.mpr
        ⟨rule, hRule, fun other hOther => ih (hNames other hOther)⟩

/-- A name with a sentence within some levels has one within any more. -/
theorem language_ne_nil_mono {low high : Nat} (hLe : low ≤ high)
    (h : language rules low name ≠ []) : language rules high name ≠ [] := by
  induction high, hLe using Nat.le_induction with
  | base => exact h
  | succ high _ ih => exact language_succ_ne_nil ih

/-! ## The names that are productive within some levels -/

/-- The names with a sentence within the levels. -/
def productiveWithin (rules : List Rule) (level : Nat) : Finset String :=
  (definedNames rules).filter fun name => language rules level name ≠ []

theorem mem_productiveWithin_iff :
    name ∈ productiveWithin rules level ↔ language rules level name ≠ [] := by
  rw [productiveWithin, Finset.mem_filter, mem_definedNames_iff, and_iff_right_iff_imp]
  -- a name without rules has no sentence
  intro hSome hNone
  exact hSome (language_eq_nil_of_candidates_eq_nil hNone level)

theorem productiveWithin_mono {low high : Nat} (hLe : low ≤ high) :
    productiveWithin rules low ⊆ productiveWithin rules high := by
  intro name hName
  rw [mem_productiveWithin_iff] at hName ⊢
  exact language_ne_nil_mono hLe hName

/-- What the next level adds depends on the names of the level alone. -/
theorem productiveWithin_succ_congr {low high : Nat}
    (h : productiveWithin rules low = productiveWithin rules high) :
    productiveWithin rules (low + 1) = productiveWithin rules (high + 1) := by
  have hSame : ∀ other, language rules low other ≠ [] ↔ language rules high other ≠ [] := by
    intro other
    rw [← mem_productiveWithin_iff, h, mem_productiveWithin_iff]
  ext name
  simp only [mem_productiveWithin_iff, language_succ_ne_nil_iff, hSame]

/-- Levels beyond the number of defined names make no name productive. -/
theorem productiveWithin_card_eq (hLe : (definedNames rules).card ≤ level) :
    productiveWithin rules (definedNames rules).card = productiveWithin rules level := by
  have hMono : Monotone fun level => (productiveWithin rules level).card := by
    intro low high hLevels
    exact Finset.card_le_card (productiveWithin_mono hLevels)
  have hBounded : ∀ level, (productiveWithin rules level).card ≤ (definedNames rules).card := by
    intro level
    exact Finset.card_le_card (Finset.filter_subset _ _)
  -- as the names only grow in number, an equal number means equal names
  have hSettled : ∀ level,
      (productiveWithin rules level).card = (productiveWithin rules (level + 1)).card →
        (productiveWithin rules (level + 1)).card = (productiveWithin rules (level + 2)).card := by
    intro level hCard
    have hSame : productiveWithin rules level = productiveWithin rules (level + 1) :=
      Finset.eq_of_subset_of_card_le (productiveWithin_mono (Nat.le_succ level)) hCard.ge
    rw [productiveWithin_succ_congr hSame]
  have hCard := Nat.stabilises_of_monotone hMono hBounded hSettled hLe
  exact Finset.eq_of_subset_of_card_le (productiveWithin_mono hLe) hCard.le

/-- A name without a sentence within as many levels as there are defined names has none within
any number of levels. -/
theorem language_eq_nil_of_card_eq_nil
    (h : language rules (definedNames rules).card name = []) (level : Nat) :
    language rules level name = [] := by
  by_contra hSome
  -- raised to at least the number of defined names, the levels add no name to those of `h`
  have hHigh : name ∈ productiveWithin rules (max level (definedNames rules).card) :=
    mem_productiveWithin_iff.mpr (language_ne_nil_mono (Nat.le_max_left _ _) hSome)
  rw [← productiveWithin_card_eq (Nat.le_max_right _ _), mem_productiveWithin_iff] at hHigh
  exact hHigh h

theorem not_productive_iff {bound : Nat} (hBound : (definedNames rules).card ≤ bound) :
    ¬ Productive rules name ↔ language rules bound name = [] := by
  constructor
  · intro h
    by_contra hSome
    exact h (productive_of_language_ne_nil hSome)
  · rintro hNone ⟨level, hDerivation⟩
    have hFew : language rules (definedNames rules).card name = [] := by
      by_contra hSome
      exact language_ne_nil_mono hBound hSome hNone
    exact nonempty_derivation_iff.mp hDerivation (language_eq_nil_of_card_eq_nil hFew level)

/-! ## The bound decides -/

/-- **One level for each defined name decides derivability.** If the start name has no sentence
within as many levels as there are defined names, it has none within any bound. So with such a
bound or a larger one, generating fails to derive a sentence exactly if the replies are all below
their counts, the start name has rules, and it has no derivation within any number of levels. -/
theorem generateAll_eq_nil_of_card (rules : List Rule) :
    (generateAll rules (some (definedNames rules).card) = [] →
      ∀ bound, generateAll rules bound = []) ∧
    ∀ bound, (definedNames rules).card ≤ bound →
      ∀ (σ : Type) (select : Selector σ) (state : σ),
        (generateWith select rules (some bound) state).value = .error .noDerivableSentence ↔
          (generateWith select rules (some bound) state).InRange ∧
            defines rules startName = true ∧ ¬ Productive rules startName := by
  constructor
  · intro h bound
    exact language_eq_nil_of_card_eq_nil h (levels bound)
  · intro bound hBound σ select state
    rw [not_productive_iff hBound]
    exact generateWith_eq_noDerivableSentence_iff

/-- Two names that only rewrite to each other. -/
def endlessRules : List Rule :=
  [⟨startName, [.terminal "on ", .nonTerminal "REST"], 1⟩,
    ⟨"REST", [.terminal "and ", .nonTerminal startName], 2⟩]

/-- Two levels without a sentence show that no bound has one. A run that fails after two replies
shows that the start name has no derivation. -/
theorem generateAll_endlessRules_eq_nil :
    generateAll endlessRules (some (definedNames endlessRules).card) = [] ∧
      generateAll endlessRules none = [] ∧
      (definedNames endlessRules).card ≤ 2 ∧
      (generateWith replay endlessRules (some 2) [0, 0]).value = .error .noDerivableSentence ∧
      defines endlessRules startName = true ∧ ¬ Productive endlessRules startName := by
  have hCard : (definedNames endlessRules).card = 2 := by decide
  have hEmpty : generateAll endlessRules (some (definedNames endlessRules).card) = [] := by
    rw [hCard]
    rfl
  have hValue : (generateWith replay endlessRules (some 2) [0, 0]).value =
      .error .noDerivableSentence := rfl
  obtain ⟨hAll, hGenerate⟩ := generateAll_eq_nil_of_card endlessRules
  obtain ⟨-, hDefined, hNone⟩ := (hGenerate 2 hCard.le (List Nat) replay [0, 0]).mp hValue
  exact ⟨hEmpty, hAll hEmpty none, hCard.le, hValue, hDefined, hNone⟩

end PhraseGrammar
