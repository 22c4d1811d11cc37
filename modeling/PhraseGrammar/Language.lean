import PhraseGrammar.Rule
import PhraseGrammar.Sentence

/-!
# The bounded language of a grammar

A name has a sentence within `n + 1` levels when the right-hand side of one of its alternatives
has one in which every name takes at most `n` levels; nothing has a sentence within zero levels.
`language` lists these sentences, those by an earlier alternative first, and `expansions` lists
the sentences of a right-hand side, given those of its names.

A right-hand side has no sentence once one of its names has none. Nothing to the right of such a
name is looked at, which is what ends the enumeration of a cycle behind it.
-/

set_option autoImplicit false

namespace PhraseGrammar

/-- The number of levels for a bound. To have no bound counts as the largest number that 64 bits
hold. -/
def levels : Option Nat → Nat
  | some bound => bound
  | none => 18446744073709551615

/-- The sentences of a right-hand side: an earlier symbol varies more slowly than a later one. -/
def expansions (expand : String → List Sentence) : List Symbol → List Sentence
  | [] => [Sentence.empty]
  | .terminal text :: rest => (expansions expand rest).map fun tail => Sentence.ofText text ++ tail
  | .nonTerminal name :: rest =>
    match expand name with
    | [] => []
    | head :: more =>
      let tails := expansions expand rest
      (head :: more).flatMap fun front => tails.map fun tail => front ++ tail

/-- The early end at a name without sentences is that of a product with an empty list. -/
theorem expansions_nonTerminal (expand : String → List Sentence) (name : String)
    (rest : List Symbol) :
    expansions expand (.nonTerminal name :: rest) =
      (expand name).flatMap fun front =>
        (expansions expand rest).map fun tail => front ++ tail := by
  rw [expansions]
  cases expand name with
  | nil => rfl
  | cons head more => rfl

theorem mem_expansions_nil {expand : String → List Sentence} {sentence : Sentence} :
    sentence ∈ expansions expand [] ↔ Sentence.empty = sentence := by
  rw [expansions, List.mem_singleton, eq_comm]

theorem mem_expansions_terminal {expand : String → List Sentence} {text : String}
    {rest : List Symbol} {sentence : Sentence} :
    sentence ∈ expansions expand (.terminal text :: rest) ↔
      ∃ tail ∈ expansions expand rest, Sentence.ofText text ++ tail = sentence := by
  rw [expansions, List.mem_map]

theorem mem_expansions_nonTerminal {expand : String → List Sentence} {name : String}
    {rest : List Symbol} {sentence : Sentence} :
    sentence ∈ expansions expand (.nonTerminal name :: rest) ↔
      ∃ front ∈ expand name, ∃ tail ∈ expansions expand rest, front ++ tail = sentence := by
  simp only [expansions_nonTerminal, List.mem_flatMap, List.mem_map]

/-- The sentences of a name within a number of levels. -/
def language (rules : List Rule) : Nat → String → List Sentence
  | 0, _ => []
  | level + 1, name =>
    (candidates rules name).zipIdx.flatMap fun entry =>
      (expansions (fun name => language rules level name) entry.1.right).map
        (Sentence.chosen entry.2)

/-- A sentence of a name is one of some alternative, with the number of the alternative in front
of its choices. -/
theorem mem_language_succ {rules : List Rule} {level : Nat} {name : String}
    {sentence : Sentence} :
    sentence ∈ language rules (level + 1) name ↔
      ∃ index : Fin (candidates rules name).length,
        ∃ tail ∈ expansions (language rules level) (candidates rules name)[index].right,
          tail.chosen index = sentence := by
  rw [language]
  -- a numbered rule of the list is a rule at its number
  simp only [List.mem_flatMap, List.mem_map, Prod.exists, List.mem_zipIdx_iff_getElem?]
  constructor
  · rintro ⟨rule, index, hRule, tail, hTail, rfl⟩
    obtain ⟨hIndex, rfl⟩ := List.getElem?_eq_some_iff.mp hRule
    exact ⟨⟨index, hIndex⟩, tail, hTail, rfl⟩
  · rintro ⟨index, tail, hTail, rfl⟩
    exact ⟨_, index, List.getElem?_eq_getElem index.isLt, tail, hTail, rfl⟩

theorem language_eq_nil_of_candidates_eq_nil {rules : List Rule} {name : String}
    (h : candidates rules name = []) (level : Nat) : language rules level name = [] := by
  cases level with
  | zero => rfl
  | succ level => rw [language, h]; rfl

/-- Every sentence of the start name within the bound. -/
def generateAll (rules : List Rule) (bound : Option Nat) : List Sentence :=
  language rules (levels bound) startName

end PhraseGrammar
