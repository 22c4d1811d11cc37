import PhraseGrammar.Rule

/-!
# The right-hand side of a source line

A right-hand side is text in which `$NAME` and `$\{NAME}` stand for a name. Where neither form
starts, a dollar sign is a character like any other. `pieces` cuts a right-hand side into its
references and the stretches of text around them, and `unclosedBrace?` finds the one fault that
a right-hand side can have.

Positions count the characters of the whole line, and the first character of a line has the
number one.
-/

set_option autoImplicit false

namespace PhraseGrammar.Source

/-- Names are written with the ASCII letters, the ASCII digits and the underscore. -/
def isNameChar (c : Char) : Bool :=
  c.isAlphanum || c = '_'

/-- A name as a right-hand side refers to it, with or without braces. -/
structure Reference where
  name : List Char
  braced : Bool
  deriving DecidableEq

/-- The characters of the reference. -/
def Reference.spelling (reference : Reference) : List Char :=
  if reference.braced then '$' :: '{' :: (reference.name ++ ['}']) else '$' :: reference.name

/-- The number of characters of the reference. -/
def Reference.width (reference : Reference) : Nat :=
  reference.spelling.length

/-- The reference that the text starts with. A bare name is as long as it can be; a braced one
fills its braces. -/
def reference? : List Char → Option Reference
  | '$' :: '{' :: rest =>
    match rest.takeWhile isNameChar, rest.dropWhile isNameChar with
    | c :: name, '}' :: _ => some ⟨c :: name, true⟩
    | _, _ => none
  | '$' :: rest =>
    match rest.takeWhile isNameChar with
    | c :: name => some ⟨c :: name, false⟩
    | [] => none
  | _ => none

/-- A part of a right-hand side: text, or a reference together with the number of its dollar
sign. -/
inductive Piece where
  | text (chars : List Char)
  | reference (characterNumber : Nat) (reference : Reference)
  deriving DecidableEq

/-- The characters of the piece. -/
def Piece.spelling : Piece → List Char
  | text chars => chars
  | reference _ r => r.spelling

/-- What the piece stands for in a rule. -/
def Piece.symbol : Piece → Symbol
  | text chars => .terminal (String.ofList chars)
  | reference _ r => .nonTerminal (String.ofList r.name)

/-- Puts a character in front of the text that the pieces start with, or makes it a text. -/
def pushText (c : Char) : List Piece → List Piece
  | .text chars :: rest => .text (c :: chars) :: rest
  | rest => .text [c] :: rest

/-- The pieces of a text that `before` characters of the line precede. -/
def pieces (before : Nat) : List Char → List Piece
  | [] => []
  | c :: rest =>
    match reference? (c :: rest) with
    | some r => .reference (before + 1) r :: pieces (before + r.width) (rest.drop (r.width - 1))
    | none => pushText c (pieces (before + 1) rest)
termination_by input => input.length
decreasing_by
  · simp only [List.length_cons, List.length_drop]
    omega
  · simp

/-- The number of the first brace that follows a dollar sign and is closed nowhere after it, in
a text that `before` characters of the line precede. -/
def unclosedBrace? (before : Nat) : List Char → Option Nat
  | [] => none
  | c :: rest =>
    if c = '$' ∧ rest.head? = some '{' ∧ '}' ∉ rest then some (before + 2)
    else unclosedBrace? (before + 1) rest

end PhraseGrammar.Source
