import PhraseGrammar.Json.Literal

/-!
# Tokens

The tokens of a JSON text, their written forms, and the tokens of a text. Between tokens there
may be spaces, tabs, line feeds and carriage returns. A number without sign, fraction and
exponent is kept as the number that it is; any other number is kept as it is written.
-/

set_option autoImplicit false

namespace PhraseGrammar.Json

/-- A token of a JSON text. -/
inductive Token where
  | openBracket
  | closeBracket
  | openBrace
  | closeBrace
  | comma
  | colon
  | null
  | bool (value : Bool)
  | natural (n : Nat)
  | decimal (numeral : List Char)
  | literal (content : Literal)
  deriving DecidableEq

/-- The written form of a token. -/
def Token.spelling : Token → List Char
  | openBracket => ['[']
  | closeBracket => [']']
  | openBrace => ['{']
  | closeBrace => ['}']
  | comma => [',']
  | colon => [':']
  | null => ['n', 'u', 'l', 'l']
  | bool true => ['t', 'r', 'u', 'e']
  | bool false => ['f', 'a', 'l', 's', 'e']
  | natural n => Nat.toDigits 10 n
  | decimal numeral => numeral
  | literal content => content.spelling

/-! ## Numerals -/

/-- What follows the digits that the text starts with, of which there has to be one. -/
def afterDigits? : List Char → Option (List Char)
  | [] => none
  | c :: rest => if c.isDigit then some (rest.dropWhile Char.isDigit) else none

/-- What follows an integer part: a zero, or digits of which the first is no zero. -/
def afterInteger? : List Char → Option (List Char)
  | '0' :: rest => some rest
  | rest => afterDigits? rest

/-- What follows a fraction, which may be missing. -/
def afterFraction? : List Char → Option (List Char)
  | '.' :: rest => afterDigits? rest
  | rest => some rest

/-- What follows an exponent, which may be missing. -/
def afterExponent? : List Char → Option (List Char)
  | c :: rest =>
    if c = 'e' ∨ c = 'E' then
      match rest with
      | '+' :: digits | '-' :: digits => afterDigits? digits
      | digits => afterDigits? digits
    else some (c :: rest)
  | [] => some []

/-- The text without the minus sign that it may start with. -/
def afterMinus : List Char → List Char
  | '-' :: rest => rest
  | rest => rest

/-- Whether the text is a number of the format. -/
def isNumeral (chars : List Char) : Bool :=
  ((afterInteger? (afterMinus chars)).bind afterFraction?).bind afterExponent? == some []

/-- The characters that numbers are written with. -/
def isNumeralChar (c : Char) : Bool :=
  c.isDigit || c = '-' || c = '+' || c = '.' || c = 'e' || c = 'E'

/-- The token that a numeral is. -/
def numeralToken? (chars : List Char) : Option Token :=
  if isNumeral chars then
    if chars.all Char.isDigit then some (.natural (Nat.ofDigitChars 10 chars 0))
    else some (.decimal chars)
  else none

/-! ## Reading -/

/-- The characters that may stand between tokens. -/
def isSpace (c : Char) : Bool :=
  c = ' ' || c = '\t' || c = '\n' || c = '\r'

/-- The token of a word. -/
def wordToken? (chars : List Char) : Option Token :=
  if chars = ['n', 'u', 'l', 'l'] then some .null
  else if chars = ['t', 'r', 'u', 'e'] then some (.bool true)
  else if chars = ['f', 'a', 'l', 's', 'e'] then some (.bool false)
  else none

/-- The token of a single mark. -/
def markToken? : Char → Option Token
  | '[' => some .openBracket
  | ']' => some .closeBracket
  | '{' => some .openBrace
  | '}' => some .closeBrace
  | ',' => some .comma
  | ':' => some .colon
  | _ => none

/-- The token that starts with the character `c`, which is no space, and what follows it. -/
def nextToken? (c : Char) (rest : List Char) : Option (Token × List Char) :=
  if c = '"' then
    (units? rest).map fun read => (.literal (Literal.ofUnits read.1), read.2)
  else if c.isLower then
    (wordToken? (c :: rest.takeWhile Char.isLower)).map fun token =>
      (token, rest.dropWhile Char.isLower)
  else if isNumeralChar c then
    (numeralToken? (c :: rest.takeWhile isNumeralChar)).map fun token =>
      (token, rest.dropWhile isNumeralChar)
  else (markToken? c).map fun token => (token, rest)

/-- A token takes up at least its first character. -/
theorem length_le_of_nextToken? {c : Char} {rest : List Char} {read : Token × List Char}
    (h : nextToken? c rest = some read) : read.2.length ≤ rest.length := by
  unfold nextToken? at h
  split at h
  · obtain ⟨units, hunits, rfl⟩ := Option.map_eq_some_iff.1 h
    exact length_le_of_units? hunits
  split at h
  · obtain ⟨token, -, rfl⟩ := Option.map_eq_some_iff.1 h
    exact (List.dropWhile_sublist _).length_le
  split at h
  · obtain ⟨token, -, rfl⟩ := Option.map_eq_some_iff.1 h
    exact (List.dropWhile_sublist _).length_le
  · obtain ⟨token, -, rfl⟩ := Option.map_eq_some_iff.1 h
    exact Nat.le_refl _

/-- The tokens of a text, if it consists of tokens and spaces. -/
def tokens? : List Char → Option (List Token)
  | [] => some []
  | c :: rest =>
    if isSpace c then tokens? rest
    else
      match _read : nextToken? c rest with
      | none => none
      | some (token, after) => (tokens? after).map fun tokens => token :: tokens
termination_by input => input.length
decreasing_by
  · simp
  · have : after.length ≤ rest.length := length_le_of_nextToken? _read
    simp only [List.length_cons]
    omega

end PhraseGrammar.Json
