/-!
# Blank characters

A character is blank when it has the Unicode property `White_Space`. The zero-width space
(U+200B), the byte order mark (U+FEFF) and the separators U+001C to U+001F do not have it.
-/

set_option autoImplicit false

namespace PhraseGrammar.Text

/-- The ranges of the property `White_Space`, each with both ends. -/
def blankRanges : List (Nat × Nat) :=
  [(0x0009, 0x000D), (0x0020, 0x0020), (0x0085, 0x0085), (0x00A0, 0x00A0), (0x1680, 0x1680),
    (0x2000, 0x200A), (0x2028, 0x2029), (0x202F, 0x202F), (0x205F, 0x205F), (0x3000, 0x3000)]

/-- Whether the character lies in one of the `blankRanges`. -/
def isBlank (c : Char) : Bool :=
  blankRanges.any fun range => range.1 ≤ c.toNat && c.toNat ≤ range.2

/-- The text without the blanks at its end. -/
def trimEnd (text : List Char) : List Char :=
  (text.reverse.dropWhile isBlank).reverse

end PhraseGrammar.Text
