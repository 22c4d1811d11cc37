/-!
# String literals

The body of a string literal is a sequence of characters and escapes. An escape `\u` with four
hexadecimal digits gives a UTF-16 unit: two surrogates in a row, a high one and a low one, give
one character, and a literal that leaves a surrogate without its partner denotes no text. Such a
literal is still a literal, so its units are kept.

Written literals escape the quotation mark, the backslash and the characters below U+0020, and
nothing else.
-/

set_option autoImplicit false

namespace PhraseGrammar.Json

/-- One unit of the body of a literal. -/
inductive LiteralUnit where
  | char (c : Char)
  | surrogate (unit : Nat)
  deriving DecidableEq

/-- A string literal: the text that it denotes, or its units if it denotes none. -/
inductive Literal where
  | text (content : String)
  | unpaired (units : List LiteralUnit)
  deriving DecidableEq

/-! ## Writing -/

/-- The lower-case hexadecimal digits of the number's last four places. -/
def hexDigits (n : Nat) : List Char :=
  [Nat.digitChar (n / 4096 % 16), Nat.digitChar (n / 256 % 16), Nat.digitChar (n / 16 % 16),
    Nat.digitChar (n % 16)]

/-- The escape of a UTF-16 unit. -/
def unitEscape (unit : Nat) : List Char := '\\' :: 'u' :: hexDigits unit

/-- The written form of a character. -/
def escape (c : Char) : List Char :=
  if c = '"' then ['\\', '"']
  else if c = '\\' then ['\\', '\\']
  else if c = '\x08' then ['\\', 'b']
  else if c = '\x0c' then ['\\', 'f']
  else if c = '\n' then ['\\', 'n']
  else if c = '\r' then ['\\', 'r']
  else if c = '\t' then ['\\', 't']
  else if c.toNat < 0x20 then unitEscape c.toNat
  else [c]

/-- The written form of a unit. -/
def LiteralUnit.spelling : LiteralUnit → List Char
  | char c => escape c
  | surrogate unit => unitEscape unit

/-- The units of a literal. -/
def Literal.units : Literal → List LiteralUnit
  | text content => content.toList.map LiteralUnit.char
  | unpaired units => units

/-- The written form of a literal, with its quotation marks. -/
def Literal.spelling (literal : Literal) : List Char :=
  '"' :: (literal.units.flatMap LiteralUnit.spelling ++ ['"'])

/-! ## Reading -/

/-- The value of a hexadecimal digit of either case. -/
def hexValue? (c : Char) : Option Nat :=
  if c.isDigit then some (c.toNat - '0'.toNat)
  else if 'a' ≤ c ∧ c ≤ 'f' then some (c.toNat - 'a'.toNat + 10)
  else if 'A' ≤ c ∧ c ≤ 'F' then some (c.toNat - 'A'.toNat + 10)
  else none

/-- The number that hexadecimal digits write. -/
def hexNumber? (digits : List Char) : Option Nat :=
  digits.foldlM (fun n c => (hexValue? c).map fun value => 16 * n + value) 0

/-- The unit with a number below `2 ^ 16`. -/
def LiteralUnit.ofNat (unit : Nat) : LiteralUnit :=
  if 0xD800 ≤ unit ∧ unit ≤ 0xDFFF then surrogate unit else char (Char.ofNat unit)

/-- What a backslash makes of the character after it, if that is no `u`. -/
def shortEscape? : Char → Option Char
  | '"' => some '"'
  | '\\' => some '\\'
  | '/' => some '/'
  | 'b' => some '\x08'
  | 'f' => some '\x0c'
  | 'n' => some '\n'
  | 'r' => some '\r'
  | 't' => some '\t'
  | _ => none

/-- Puts a unit in front of the units that were read. -/
def pushUnit (unit : LiteralUnit) (read : List LiteralUnit × List Char) :
    List LiteralUnit × List Char :=
  (unit :: read.1, read.2)

/-- The units up to the next quotation mark, and what follows it. -/
def units? : List Char → Option (List LiteralUnit × List Char)
  | [] => none
  | '"' :: rest => some ([], rest)
  | '\\' :: 'u' :: a :: b :: c :: d :: rest =>
    (hexNumber? [a, b, c, d]).bind fun unit => (units? rest).map (pushUnit (.ofNat unit))
  | '\\' :: c :: rest =>
    (shortEscape? c).bind fun c => (units? rest).map (pushUnit (.char c))
  | c :: rest =>
    if c = '\\' ∨ c.toNat < 0x20 then none else (units? rest).map (pushUnit (.char c))

/-- The character of a high and a low surrogate. -/
def pairedChar (high low : Nat) : Char :=
  Char.ofNat (0x10000 + (high - 0xD800) * 0x400 + (low - 0xDC00))

/-- The characters that units denote, if every surrogate has its partner. -/
def chars? : List LiteralUnit → Option (List Char)
  | [] => some []
  | .char c :: rest => (chars? rest).map fun chars => c :: chars
  | .surrogate high :: .surrogate low :: rest =>
    if high < 0xDC00 ∧ 0xDC00 ≤ low then
      (chars? rest).map fun chars => pairedChar high low :: chars
    else none
  | .surrogate _ :: _ => none

/-- The literal with these units. -/
def Literal.ofUnits (units : List LiteralUnit) : Literal :=
  match chars? units with
  | some chars => .text (String.ofList chars)
  | none => .unpaired units

/-- The units end no later than the input. -/
theorem length_le_of_units? {input : List Char} {read : List LiteralUnit × List Char}
    (h : units? input = some read) : read.2.length ≤ input.length := by
  fun_induction units? input generalizing read with
  | case1 => simp at h
  | case2 rest =>
    cases h
    simp
  | case3 a b c d rest ih =>
    obtain ⟨unit, -, h⟩ := Option.bind_eq_some_iff.1 h
    obtain ⟨tail, htail, rfl⟩ := Option.map_eq_some_iff.1 h
    have := ih htail
    simp only [pushUnit, List.length_cons]
    omega
  | case4 c rest _ ih =>
    obtain ⟨unit, -, h⟩ := Option.bind_eq_some_iff.1 h
    obtain ⟨tail, htail, rfl⟩ := Option.map_eq_some_iff.1 h
    have := ih htail
    simp only [pushUnit, List.length_cons]
    omega
  | case5 => simp at h
  | case6 c rest _ _ _ _ ih =>
    obtain ⟨tail, htail, rfl⟩ := Option.map_eq_some_iff.1 h
    have := ih htail
    simp only [pushUnit, List.length_cons]
    omega

end PhraseGrammar.Json
