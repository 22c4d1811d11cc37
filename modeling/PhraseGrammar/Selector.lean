import PhraseGrammar.Decision

/-!
# Selectors

A replay gives a list of recorded choices back. Dice draw from a generator of 64-bit words that
a seed fixes, so that one seed always makes the same choices.
-/

set_option autoImplicit false

namespace PhraseGrammar

/-- Takes the choices of a list in order, whatever the counts; after the last one it replies
zero. The state is the list of choices not taken yet. -/
def replay : Selector (List Nat)
  | [], _ => (0, [])
  | index :: rest, _ => (index, rest)

/-- A source of 64-bit words. Each word is a scrambled form of a counter that advances by an odd
constant, so the words repeat only after `2 ^ 64` of them. -/
structure Dice where
  counter : UInt64

namespace Dice

/-- The dice that a seed fixes. -/
def ofSeed (seed : Nat) : Dice := ⟨UInt64.ofNat seed⟩

/-- The next word. -/
def roll (dice : Dice) : UInt64 × Dice :=
  let counter := dice.counter + 0x9E3779B97F4A7C15
  let mixed := (counter ^^^ (counter >>> 30)) * 0xBF58476D1CE4E5B9
  let mixed := (mixed ^^^ (mixed >>> 27)) * 0x94D049BB133111EB
  (mixed ^^^ (mixed >>> 31), ⟨counter⟩)

end Dice

/-- Replies with the remainder of a word by the count. Among no candidates it replies zero and
draws nothing. -/
def throwDice : Selector Dice
  | dice, 0 => (0, dice)
  | dice, count + 1 =>
    let rolled := dice.roll
    (rolled.1.toNat % (count + 1), rolled.2)

end PhraseGrammar
