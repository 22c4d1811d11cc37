import Mathlib.Data.List.Nodup
import PhraseGrammar.Proofs.Derivation

/-!
# The order of the enumeration

`BranchesBefore` compares two lists of choices where they first part: the one with the smaller
number there stands before the other. Lists that part are in lexicographic order and neither is
the beginning of the other, and the relation survives whatever is put behind both lists. This is
why it passes through products (`pairwise_expansions`), where lexicographic order alone does not.

The enumeration is in this order. It therefore lists each derivation once, and a derivation is
known by its choices (`Derivation.eq_of_choices_append`).
-/

set_option autoImplicit false

namespace PhraseGrammar

variable {rules : List Rule} {first second : List Nat}

/-! ## Where two lists of choices part -/

/-- At the first place where the lists differ both have a number, and the first list has the
smaller one. -/
def BranchesBefore (first second : List Nat) : Prop :=
  ∃ common low high lowRest highRest,
    low < high ∧ first = common ++ low :: lowRest ∧ second = common ++ high :: highRest

namespace BranchesBefore

theorem cons_of_lt {low high : Nat} (h : low < high) (first second : List Nat) :
    BranchesBefore (low :: first) (high :: second) :=
  ⟨[], low, high, first, second, h, rfl, rfl⟩

/-- What precedes both lists does not matter. -/
theorem append_left (h : BranchesBefore first second) (before : List Nat) :
    BranchesBefore (before ++ first) (before ++ second) := by
  obtain ⟨common, low, high, lowRest, highRest, hLess, rfl, rfl⟩ := h
  refine ⟨before ++ common, low, high, lowRest, highRest, hLess, ?_, ?_⟩
  · rw [List.append_assoc]
  · rw [List.append_assoc]

/-- What follows each of them does not matter, either. -/
theorem append_right (h : BranchesBefore first second) (firstRest secondRest : List Nat) :
    BranchesBefore (first ++ firstRest) (second ++ secondRest) := by
  obtain ⟨common, low, high, lowRest, highRest, hLess, rfl, rfl⟩ := h
  refine ⟨common, low, high, lowRest ++ firstRest, highRest ++ secondRest, hLess, ?_, ?_⟩
  · rw [List.append_assoc, List.cons_append]
  · rw [List.append_assoc, List.cons_append]

protected theorem lt (h : BranchesBefore first second) : first < second := by
  obtain ⟨common, low, high, lowRest, highRest, hLess, rfl, rfl⟩ := h
  exact List.append_left_lt (List.cons_lt_cons_iff.mpr (Or.inl hLess))

theorem not_prefix (h : BranchesBefore first second) : ¬ first <+: second := by
  obtain ⟨common, low, high, lowRest, highRest, hLess, rfl, rfl⟩ := h
  intro hPrefix
  obtain ⟨rfl, -⟩ := List.cons_prefix_cons.mp ((List.prefix_append_right_inj common).mp hPrefix)
  exact Nat.lt_irrefl _ hLess

theorem not_prefix' (h : BranchesBefore first second) : ¬ second <+: first := by
  obtain ⟨common, low, high, lowRest, highRest, hLess, rfl, rfl⟩ := h
  intro hPrefix
  obtain ⟨rfl, -⟩ := List.cons_prefix_cons.mp ((List.prefix_append_right_inj common).mp hPrefix)
  exact Nat.lt_irrefl _ hLess

protected theorem ne (h : BranchesBefore first second) : first ≠ second := by
  rintro rfl
  exact h.not_prefix List.prefix_rfl

protected theorem asymm (h : BranchesBefore first second) : ¬ BranchesBefore second first :=
  fun hBack => List.lt_irrefl _ (List.lt_trans h.lt hBack.lt)

end BranchesBefore

/-! ## The enumeration is in order -/

/-- The choices of the sentence part from those of the other with a smaller number. -/
def Sentence.Before (first second : Sentence) : Prop :=
  BranchesBefore first.choices second.choices

/-- The sentences of a right-hand side are in order if those of its names are. -/
theorem pairwise_expansions {expand : String → List Sentence}
    (hNames : ∀ name, (expand name).Pairwise Sentence.Before) (symbols : List Symbol) :
    (expansions expand symbols).Pairwise Sentence.Before := by
  induction symbols with
  | nil => exact List.pairwise_singleton _ _
  | cons symbol rest ih =>
      cases symbol with
      | terminal text =>
          -- a text has no choices
          rw [expansions, List.pairwise_map]
          exact ih
      | nonTerminal name =>
          rw [expansions_nonTerminal, List.pairwise_flatMap]
          constructor
          · intro front _
            rw [List.pairwise_map]
            exact ih.imp fun hTails => hTails.append_left front.choices
          · -- different fronts part before the tails begin
            refine (hNames name).imp fun hFronts first hFirst second hSecond => ?_
            obtain ⟨firstTail, -, rfl⟩ := List.mem_map.mp hFirst
            obtain ⟨secondTail, -, rfl⟩ := List.mem_map.mp hSecond
            exact hFronts.append_right firstTail.choices secondTail.choices

theorem pairwise_language (rules : List Rule) (level : Nat) (name : String) :
    (language rules level name).Pairwise Sentence.Before := by
  induction level generalizing name with
  | zero => exact .nil
  | succ level ih =>
      have hNumbers : ((candidates rules name).zipIdx).Pairwise
          fun first second => first.2 < second.2 := by
        rw [← List.pairwise_map (f := Prod.snd) (R := (· < ·)), List.zipIdx_map_snd]
        exact List.pairwise_lt_range'
      rw [language, List.pairwise_flatMap]
      constructor
      · intro entry _
        rw [List.pairwise_map]
        exact (pairwise_expansions ih entry.1.right).imp fun hTails =>
          hTails.append_left [entry.2]
      · -- different alternatives part at the first choice
        refine hNumbers.imp fun hLess first hFirst second hSecond => ?_
        obtain ⟨firstTail, -, rfl⟩ := List.mem_map.mp hFirst
        obtain ⟨secondTail, -, rfl⟩ := List.mem_map.mp hSecond
        exact .cons_of_lt hLess firstTail.choices secondTail.choices

/-! ## A derivation is known by its choices -/

mutual

theorem Derivation.eq_of_choices_append {level : Nat} {name : String} :
    ∀ (first second : Derivation rules level name) (firstRest secondRest : List Nat),
      first.choices ++ firstRest = second.choices ++ secondRest →
        first = second ∧ firstRest = secondRest
  | .expand index parts, .expand other otherParts, firstRest, secondRest, h => by
      rw [Derivation.choices, Derivation.choices, List.cons_append, List.cons_append] at h
      obtain ⟨hIndex, hParts⟩ := List.cons.inj h
      obtain rfl : index = other := Fin.ext hIndex
      obtain ⟨rfl, hRest⟩ := parts.eq_of_choices_append otherParts firstRest secondRest hParts
      exact ⟨rfl, hRest⟩

theorem Parts.eq_of_choices_append {level : Nat} {symbols : List Symbol} :
    ∀ (first second : Parts rules level symbols) (firstRest secondRest : List Nat),
      first.choices ++ firstRest = second.choices ++ secondRest →
        first = second ∧ firstRest = secondRest
  | .nil, .nil, _, _, h => ⟨rfl, h⟩
  | .terminal text parts, .terminal _ otherParts, firstRest, secondRest, h => by
      obtain ⟨rfl, hRest⟩ := parts.eq_of_choices_append otherParts firstRest secondRest h
      exact ⟨rfl, hRest⟩
  | .nonTerminal front parts, .nonTerminal otherFront otherParts, firstRest, secondRest, h => by
      rw [Parts.choices, Parts.choices, List.append_assoc, List.append_assoc] at h
      obtain ⟨rfl, hParts⟩ := front.eq_of_choices_append otherFront _ _ h
      obtain ⟨rfl, hRest⟩ := parts.eq_of_choices_append otherParts firstRest secondRest hParts
      exact ⟨rfl, hRest⟩

end

theorem Derivation.eq_of_choices_eq {level : Nat} {name : String}
    {first second : Derivation rules level name} (h : first.choices = second.choices) :
    first = second :=
  (first.eq_of_choices_append second [] [] (congrArg (· ++ []) h)).1

/-! ## What the order comes to -/

/-- The sentences are listed in the order of their choices. -/
structure ListedInOrder (sentences : List Sentence) : Prop where
  /-- The choices increase in lexicographic order. -/
  increasing : (sentences.map Sentence.choices).Pairwise (· < ·)
  /-- The choices of no sentence are the beginning of those of another one. -/
  prefix_free : (sentences.map Sentence.choices).Pairwise fun first second =>
    ¬ first <+: second ∧ ¬ second <+: first
  /-- No two sentences have the same choices, even if they have the same text. -/
  nodup : (sentences.map Sentence.choices).Nodup
  /-- Of two sentences the earlier one takes the earlier alternative where they first differ. -/
  lt_iff : ∀ first second : Fin sentences.length,
    first < second ↔ BranchesBefore (sentences.get first).choices (sentences.get second).choices

theorem listedInOrder_of_pairwise {sentences : List Sentence}
    (h : sentences.Pairwise Sentence.Before) : ListedInOrder sentences where
  increasing := List.pairwise_map.mpr (h.imp fun hBefore => hBefore.lt)
  prefix_free :=
    List.pairwise_map.mpr (h.imp fun hBefore => ⟨hBefore.not_prefix, hBefore.not_prefix'⟩)
  nodup := List.pairwise_map.mpr (h.imp fun hBefore => hBefore.ne)
  lt_iff := by
    have hBefore : ∀ low high : Fin sentences.length, low < high →
        BranchesBefore sentences[low].choices sentences[high].choices := by
      intro low high hLess
      exact List.pairwise_iff_getElem.mp h low high low.isLt high.isLt hLess
    intro first second
    refine ⟨hBefore first second, fun hBranches => ?_⟩
    rcases Nat.lt_trichotomy first second with hLess | hSame | hGreater
    · exact hLess
    · obtain rfl := Fin.ext hSame
      exact absurd hBranches hBranches.asymm
    · exact absurd hBranches (hBefore second first hGreater).asymm

/-- **The enumeration is in order and without ambiguity.** Its choices increase and none begins
another; different derivations have different choices, and each derivation is listed in exactly
one place. -/
theorem listedInOrder_generateAll (rules : List Rule) (bound : Option Nat) :
    ListedInOrder (generateAll rules bound) ∧
      (Function.Injective fun derivation : Derivation rules (levels bound) startName =>
        derivation.choices) ∧
      ∀ derivation : Derivation rules (levels bound) startName,
        ∃! index : Fin (generateAll rules bound).length,
          (generateAll rules bound)[index] = derivation.sentence := by
  have hOrder : ListedInOrder (generateAll rules bound) :=
    listedInOrder_of_pairwise (pairwise_language rules (levels bound) startName)
  refine ⟨hOrder, fun _ _ hSame => Derivation.eq_of_choices_eq hSame, fun derivation => ?_⟩
  obtain ⟨index, hIndex, hSentence⟩ := List.getElem_of_mem derivation.sentence_mem_language
  refine ⟨⟨index, hIndex⟩, hSentence, fun other hOther => ?_⟩
  -- another place would have the same choices
  have hNodup : (generateAll rules bound).Nodup := hOrder.nodup.of_map
  exact Fin.ext (hNodup.getElem_inj_iff.mp (hOther.trans hSentence.symm))

/-- One text by two derivations is listed twice, and the choices tell which is which. -/
example : generateAll [⟨startName, [.terminal "a"], 1⟩, ⟨startName, [.terminal "a"], 2⟩] (some 1) =
    [⟨"a", [0]⟩, ⟨"a", [1]⟩] := rfl

end PhraseGrammar
