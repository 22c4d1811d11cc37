/-!
# Symbols and rules

A phrase grammar is a list of rules. A rule rewrites the name on its left to the symbols on its
right, and the rules that share a name are its alternatives: their order in the list is the
order in which they are numbered, from zero.
-/

set_option autoImplicit false

namespace PhraseGrammar

/-- A symbol on the right of a rule: text that stands for itself, or a name to be rewritten. -/
inductive Symbol where
  | terminal (text : String)
  | nonTerminal (name : String)
  deriving DecidableEq

namespace Symbol

/-- Whether the symbol is text. -/
def isTerminal : Symbol → Bool
  | terminal _ => true
  | nonTerminal _ => false

/-- Whether the symbol is a name. -/
def isNonTerminal : Symbol → Bool
  | terminal _ => false
  | nonTerminal _ => true

end Symbol

/-- One way to rewrite the name `left`. The line number says where the rule was written, from
one; it has no part in what the rule produces. -/
structure Rule where
  left : String
  right : List Symbol
  lineNumber : Nat
  deriving DecidableEq

/-- The name that every sentence is rewritten from. -/
def startName : String := "SENTENCE"

/-- The alternatives for a name, in the order of their numbers. -/
def candidates (rules : List Rule) (name : String) : List Rule :=
  rules.filter fun rule => rule.left = name

/-- Whether some rule rewrites the name. -/
def defines (rules : List Rule) (name : String) : Bool :=
  rules.any fun rule => rule.left = name

theorem mem_candidates {rules : List Rule} {name : String} {rule : Rule} :
    rule ∈ candidates rules name ↔ rule ∈ rules ∧ rule.left = name := by
  simp [candidates]

theorem candidates_append (rules more : List Rule) (name : String) :
    candidates (rules ++ more) name = candidates rules name ++ candidates more name :=
  List.filter_append ..

theorem defines_iff {rules : List Rule} {name : String} :
    defines rules name = true ↔ candidates rules name ≠ [] := by
  simp [defines, candidates]

end PhraseGrammar
