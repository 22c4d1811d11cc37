import PhraseGrammar.Decision
import PhraseGrammar.Language

/-!
# Generating one sentence

A walk rewrites the start name from left to right, asking for an alternative at each name. It
gets stuck at a name without rules, or where the levels run out. What it has gathered is then
dropped, and the sentence is instead picked from all sentences of the bounded language.
-/

set_option autoImplicit false

namespace PhraseGrammar

/-- Why no sentence was generated. -/
inductive GenerateError where
  /-- The start name has no rule. -/
  | missingStartRule
  /-- The bounded language is empty. -/
  | noDerivableSentence
  /-- The selector replied with an index that is not below the number of candidates. -/
  | selectionOutOfRange (index candidates : Nat)
  deriving DecidableEq

/-- The failure in words. -/
def GenerateError.message : GenerateError → String
  | missingStartRule => "No production rule for the start symbol $" ++ startName
  | noDerivableSentence => "No complete sentence can be derived within the depth limit"
  | selectionOutOfRange index candidates =>
    "Selector chose index " ++ toString index ++ " but only " ++ toString candidates
      ++ " candidate(s) exist"

/-- Walks a right-hand side from left to right, given the walks of its names. The value is `none`
as soon as one of them is stuck. -/
def walkSymbols (walk : String → Decision (Option Sentence)) :
    List Symbol → Decision (Option Sentence)
  | [] => .done (some Sentence.empty)
  | .terminal text :: rest =>
    (walkSymbols walk rest).map fun tail => tail.map fun tail => Sentence.ofText text ++ tail
  | .nonTerminal name :: rest =>
    (walk name).bind fun
      | none => .done none
      | some front =>
        (walkSymbols walk rest).map fun tail => tail.map fun tail => front ++ tail

/-- Walks a name within a number of levels. -/
def walk (rules : List Rule) : Nat → String → Decision (Option Sentence)
  | 0, _ => .done none
  | level + 1, name =>
    let options := candidates rules name
    if options = [] then .done none
    else .choose options.length fun index =>
      (walkSymbols (fun name => walk rules level name) options[index].right).map fun sentence =>
        sentence.map (Sentence.chosen index)

theorem walk_eq_done_of_candidates_eq_nil {rules : List Rule} {name : String}
    (h : candidates rules name = []) (level : Nat) : walk rules level name = .done none := by
  cases level with
  | zero => rfl
  | succ level => rw [walk, if_pos h]

/-- Picks a sentence from a list. -/
def pickSentence (sentences : List Sentence) : Decision (Except GenerateError Sentence) :=
  if sentences = [] then .done (.error .noDerivableSentence)
  else .choose sentences.length fun index => .done (.ok sentences[index])

/-- One sentence of the start name within the bound. -/
def generate (rules : List Rule) (bound : Option Nat) : Decision (Except GenerateError Sentence) :=
  if defines rules startName then
    (walk rules (levels bound) startName).bind fun
      | some sentence => .done (.ok sentence)
      | none => pickSentence (generateAll rules bound)
  else .done (.error .missingStartRule)

/-- Generates with a selector's replies. -/
def generateWith {σ : Type} (select : Selector σ) (rules : List Rule) (bound : Option Nat)
    (state : σ) : Run σ (Except GenerateError Sentence) :=
  (generate rules bound).run select
    (fun index count => .error (.selectionOutOfRange index count)) state

end PhraseGrammar
