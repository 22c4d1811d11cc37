import PhraseGrammar.Source.Body
import PhraseGrammar.Source.Fault
import PhraseGrammar.Text.Blank

/-!
# Source lines

A line that is not blank holds one rule: a dollar sign and a name, an arrow, and the right-hand
side. Blanks may stand at both ends of the line and on both sides of the arrow, and they belong
to no part. `readLine` gives the rule of such a line or the one fault that it has.
-/

set_option autoImplicit false

namespace PhraseGrammar.Source

open PhraseGrammar.Text

/-- The name that the line starts with, and what follows the blanks after it. -/
def leftHandSide? (line : List Char) : Option (List Char × List Char) :=
  match line.dropWhile isBlank with
  | '$' :: rest =>
    match rest.takeWhile isNameChar with
    | [] => none
    | name => some (name, (rest.dropWhile isNameChar).dropWhile isBlank)
  | _ => none

/-- What follows an arrow at the start of the text, without the blanks that it starts with. -/
def afterArrow? : List Char → Option (List Char)
  | '-' :: '>' :: rest => some (rest.dropWhile isBlank)
  | _ => none

/-- A line that holds a rule, cut into the name on the left and the pieces on the right. -/
structure RuleLine where
  left : List Char
  pieces : List Piece
  lineNumber : Nat
  deriving DecidableEq

/-- The rule that the line holds. -/
def RuleLine.rule (line : RuleLine) : Rule where
  left := String.ofList line.left
  right := line.pieces.map Piece.symbol
  lineNumber := line.lineNumber

/-- A name that a line refers to, and where. -/
structure Occurrence where
  name : String
  location : Location
  deriving DecidableEq

/-- The references of the line, from left to right. -/
def RuleLine.occurrences (line : RuleLine) : List Occurrence :=
  line.pieces.filterMap fun
    | .text _ => none
    | .reference characterNumber r =>
      some ⟨String.ofList r.name, ⟨line.lineNumber, characterNumber⟩⟩

/-- Reads the line with the given number, which is not blank. The right-hand side is a tail of
the line, so the characters before it are those that it does not have. -/
def readLine (lineNumber : Nat) (line : List Char) : Except Fault RuleLine :=
  match leftHandSide? line with
  | none => .error (.invalidLeftHandSide lineNumber)
  | some (left, rest) =>
    match afterArrow? rest with
    | none => .error (.missingArrow lineNumber)
    | some body =>
      let before := line.length - body.length
      match unclosedBrace? before body with
      | some openingBrace => .error (.missingClosingBrace lineNumber openingBrace)
      | none => .ok ⟨left, pieces before (trimEnd body), lineNumber⟩

end PhraseGrammar.Source
