import PhraseGrammar.Rule

/-!
# Faults in a source

What can be wrong with the text of a grammar. Three kinds of fault are seen on one line; the
other two only once every line has been read. Lines and characters are counted from one, and a
character is a Unicode scalar value.
-/

set_option autoImplicit false

namespace PhraseGrammar.Source

/-- The place of a reference: its line, and there the character `$` that opens it. -/
structure Location where
  lineNumber : Nat
  characterNumber : Nat
  deriving DecidableEq

/-- A fault in the text of a grammar. -/
inductive Fault where
  /-- The name on the left is not followed by `->`. -/
  | missingArrow (lineNumber : Nat)
  /-- A brace at this character is opened after `$` and never closed on the line. -/
  | missingClosingBrace (lineNumber openingBrace : Nat)
  /-- The line does not start with `$` and a name. -/
  | invalidLeftHandSide (lineNumber : Nat)
  /-- A name has no rule: the start name, or a name referred to at the location. -/
  | noProductionRule (name : String) (location : Option Location)
  /-- No rule refers to the name, and the rule on this line is the first for it. -/
  | ruleNeverUsed (name : String) (lineNumber : Nat)
  deriving DecidableEq

/-- What a fault is about, without its place. -/
inductive FaultKind where
  | missingArrow
  | missingClosingBrace
  | invalidLeftHandSide
  | noProductionRule
  | ruleNeverUsed
  deriving DecidableEq

/-- Whether faults of the kind are seen on one line alone. -/
def FaultKind.isSyntactic : FaultKind → Bool
  | .missingArrow | .missingClosingBrace | .invalidLeftHandSide => true
  | .noProductionRule | .ruleNeverUsed => false

/-- The word for the kind in written form. -/
def FaultKind.word : FaultKind → String
  | .missingArrow => "missingArrow"
  | .missingClosingBrace => "missingClosingBrace"
  | .invalidLeftHandSide => "invalidLeftHandSide"
  | .noProductionRule => "noProductionRule"
  | .ruleNeverUsed => "ruleNeverUsed"

namespace Fault

def kind : Fault → FaultKind
  | missingArrow _ => .missingArrow
  | missingClosingBrace _ _ => .missingClosingBrace
  | invalidLeftHandSide _ => .invalidLeftHandSide
  | noProductionRule _ _ => .noProductionRule
  | ruleNeverUsed _ _ => .ruleNeverUsed

/-- The line that the fault points at. -/
def line? : Fault → Option Nat
  | missingArrow line | missingClosingBrace line _ | invalidLeftHandSide line => some line
  | noProductionRule _ location => location.map Location.lineNumber
  | ruleNeverUsed _ line => some line

/-- The character that the fault points at: an opening brace, or the `$` of a reference. -/
def character? : Fault → Option Nat
  | missingClosingBrace _ brace => some brace
  | noProductionRule _ location => location.map Location.characterNumber
  | missingArrow _ | invalidLeftHandSide _ | ruleNeverUsed _ _ => none

/-- The fault in words. -/
def message : Fault → String
  | missingArrow line => "Missing symbol on line " ++ toString line ++ ": ->"
  | missingClosingBrace line brace =>
    "Missing closing brace on line " ++ toString line ++ " (opening brace at character "
      ++ toString brace ++ ")"
  | invalidLeftHandSide line => "Missing non-terminal at start of line " ++ toString line
  | noProductionRule name none => "No production rule for non-terminal $" ++ name
  | noProductionRule name (some location) =>
    "No production rule for non-terminal $" ++ name ++ " (line " ++ toString location.lineNumber
      ++ ", character " ++ toString location.characterNumber ++ ")"
  | ruleNeverUsed name line =>
    "Production rule with start symbol $" ++ name ++ " is never used (line " ++ toString line
      ++ ")"

/-- Two faults of one kind, case by case: they differ in names and places only. -/
@[elab_as_elim]
theorem cases_of_kind_eq {motive : ∀ first second : Fault, first.kind = second.kind → Prop}
    (missingArrow : ∀ line other, motive (missingArrow line) (missingArrow other) rfl)
    (missingClosingBrace : ∀ line brace other otherBrace,
      motive (missingClosingBrace line brace) (missingClosingBrace other otherBrace) rfl)
    (invalidLeftHandSide : ∀ line other,
      motive (invalidLeftHandSide line) (invalidLeftHandSide other) rfl)
    (noProductionRule : ∀ name location other otherLocation,
      motive (noProductionRule name location) (noProductionRule other otherLocation) rfl)
    (ruleNeverUsed : ∀ name line other otherLine,
      motive (ruleNeverUsed name line) (ruleNeverUsed other otherLine) rfl)
    (first second : Fault) (h : first.kind = second.kind) : motive first second h := by
  cases first <;> cases second <;> cases h
  · exact missingArrow _ _
  · exact missingClosingBrace _ _ _ _
  · exact invalidLeftHandSide _ _
  · exact noProductionRule _ _ _ _
  · exact ruleNeverUsed _ _ _ _

end Fault

end PhraseGrammar.Source
