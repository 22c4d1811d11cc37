/-!
# Lines

A line ends at a line feed, and one carriage return directly before that line feed belongs to
the line's end. Any other carriage return is a character of its line. What follows the last line
feed is a line only if it is not empty.
-/

set_option autoImplicit false

namespace PhraseGrammar.Text

/-- Puts a character in front of the first line. -/
def pushFront (c : Char) : List (List Char) → List (List Char)
  | [] => [[c]]
  | line :: rest => (c :: line) :: rest

/-- The lines of a text, without their ends. -/
def lines : List Char → List (List Char)
  | [] => []
  | '\n' :: rest => [] :: lines rest
  | '\r' :: '\n' :: rest => [] :: lines rest
  | c :: rest => pushFront c (lines rest)

end PhraseGrammar.Text
