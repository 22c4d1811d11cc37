import PhraseGrammar.Json.Token
import PhraseGrammar.Proofs.Decimal

set_option autoImplicit false

/-! # Tokens that are read as they were written

The written form of a token is read back as that token, whatever comes after it: a literal ends
at its quotation mark and a mark is one character, but a word or a numeral has to be followed by
something that cannot continue it. In the written form of a value a mark or the end follows every
token, so this module states the round trip for texts that are `Delimited` on the right, and puts
runs of tokens together from runs that start with a mark.

Two kinds of tokens are left out. A numeral with a sign, a fraction or an exponent is kept as it
was written, and a literal whose surrogates have no partner denotes no text; no record of the
grammar's is written with them.
-/

namespace PhraseGrammar.Json

open PhraseGrammar.Source (takeWhile_dropWhile_eq)
open PhraseGrammar.Text

/-! ## Literals -/

theorem hexValue?_digitChar {n : Nat} (hn : n < 16) : hexValue? (Nat.digitChar n) = some n := by
  have hAll : ∀ n < 16, hexValue? (Nat.digitChar n) = some n := by decide
  exact hAll n hn

/-- Four hexadecimal digits are enough for a UTF-16 unit. -/
theorem hexNumber?_hexDigits {n : Nat} (hn : n < 65536) : hexNumber? (hexDigits n) = some n := by
  have hDigit : ∀ m, hexValue? (Nat.digitChar (m % 16)) = some (m % 16) := fun m =>
    hexValue?_digitChar (Nat.mod_lt m (by decide))
  simp only [hexDigits, hexNumber?, List.foldlM_cons, List.foldlM_nil, hDigit, Option.map_some,
    Option.bind_eq_bind, Option.bind_some, Option.pure_def, Option.some.injEq]
  omega

theorem units?_unitEscape {n : Nat} (hn : n < 65536) (rest : List Char) :
    units? (unitEscape n ++ rest) = (units? rest).map (pushUnit (.ofNat n)) := by
  have hRead := hexNumber?_hexDigits hn
  rw [hexDigits] at hRead
  simp only [unitEscape, hexDigits, List.cons_append, List.nil_append, units?, hRead,
    Option.bind_some]

/-- A character below the surrogates is the unit of its number. -/
theorem LiteralUnit.ofNat_toNat {c : Char} (hc : c.toNat < 0xD800) :
    LiteralUnit.ofNat c.toNat = .char c := by
  rw [LiteralUnit.ofNat, if_neg (by omega), Char.ofNat_toNat]

/-- A character is read back from its written form, whatever follows. -/
theorem units?_escape (c : Char) (rest : List Char) :
    units? (escape c ++ rest) = (units? rest).map (pushUnit (.char c)) := by
  fun_cases escape c
  case case8 hControl =>
      rw [units?_unitEscape (by omega), LiteralUnit.ofNat_toNat (by omega)]
  case case9 hQuote hBackslash _ _ _ _ _ hPrinted =>
      rw [List.singleton_append, units?]
      · simp [hBackslash, hPrinted]
      all_goals simp_all
  -- what is left are the characters with an escape of their own
  all_goals subst_vars; rfl

theorem units?_text (chars rest : List Char) :
    units? (chars.flatMap escape ++ '"' :: rest) = some (chars.map .char, rest) := by
  induction chars with
  | nil => rfl
  | cons c chars ih =>
      rw [List.flatMap_cons, List.append_assoc, units?_escape, ih]
      rfl

theorem chars?_map_char (chars : List Char) :
    chars? (chars.map LiteralUnit.char) = some chars := by
  induction chars with
  | nil => rfl
  | cons c chars ih => rw [List.map_cons, chars?, ih, Option.map_some]

/-- A text is the literal of its own characters. -/
theorem Literal.ofUnits_units_text (content : String) :
    Literal.ofUnits (Literal.text content).units = .text content := by
  rw [Literal.units, Literal.ofUnits, chars?_map_char]
  exact congrArg Literal.text String.ofList_toList

theorem Literal.spelling_text (content : String) :
    (Literal.text content).spelling = '"' :: (content.toList.flatMap escape ++ ['"']) := by
  rw [Literal.spelling, Literal.units, List.flatMap_map]
  rfl

/-! ## Numerals -/

/-- The decimal digits of a number are an integer part. -/
theorem afterInteger?_toDigits (n : Nat) : afterInteger? (Nat.toDigits 10 n) = some [] := by
  obtain ⟨c, rest, hEq, hc, hRest⟩ := exists_toDigits_eq_cons n
  by_cases hZero : c = '0'
  · have hn : n = 0 := eq_zero_of_toDigits_eq_zero_cons (hZero ▸ hEq)
    rw [hn]
    rfl
  · rw [hEq, afterInteger?.eq_2 _ (by rintro _ ⟨⟩; exact hZero rfl), afterDigits?, if_pos hc,
      List.dropWhile_eq_nil_iff.mpr hRest]

theorem afterMinus_toDigits (n : Nat) : afterMinus (Nat.toDigits 10 n) = Nat.toDigits 10 n := by
  obtain ⟨c, rest, hEq, hc, -⟩ := exists_toDigits_eq_cons n
  rw [hEq]
  refine afterMinus.eq_2 _ ?_
  rintro _ ⟨⟩
  exact absurd hc (by decide)

/-- The digits of a number are the token of that number. -/
theorem numeralToken?_toDigits (n : Nat) :
    numeralToken? (Nat.toDigits 10 n) = some (.natural n) := by
  have hNumeral : isNumeral (Nat.toDigits 10 n) = true := by
    rw [isNumeral, afterMinus_toDigits, afterInteger?_toDigits]
    rfl
  have hDigits : (Nat.toDigits 10 n).all Char.isDigit = true :=
    List.all_eq_true.mpr fun _ => isDigit_of_mem_toDigits
  rw [numeralToken?, if_pos hNumeral, if_pos hDigits, Nat.ofDigitChars_ten_toDigits]

/-! ## Single tokens -/

/-- Whether the token is a single mark. -/
def Token.isMark : Token → Bool
  | openBracket | closeBracket | openBrace | closeBrace | comma | colon => true
  | _ => false

/-- Whether the token is neither a numeral kept as it is written nor a literal that denotes no
text. -/
def Token.isPlain : Token → Bool
  | decimal _ | literal (.unpaired _) => false
  | _ => true

/-- Nothing that could continue a word or a numeral comes first. -/
def Delimited (rest : List Char) : Prop :=
  ∀ c ∈ rest.head?, c.isLower = false ∧ isNumeralChar c = false

theorem delimited_nil : Delimited [] := by
  rintro c ⟨⟩

theorem delimited_spelling_append {token : Token} (hMark : token.isMark = true)
    (rest : List Char) : Delimited (token.spelling ++ rest) := by
  cases token <;> first | contradiction | (rintro c ⟨⟩; decide)

theorem nextToken?_word {token : Token} {c : Char} {body rest : List Char}
    (hc : c.isLower = true) (hBody : body.all Char.isLower = true)
    (hToken : wordToken? (c :: body) = some token) (hRest : Delimited rest) :
    nextToken? c (body ++ rest) = some (token, rest) := by
  obtain ⟨hTake, hDrop⟩ :=
    takeWhile_dropWhile_eq (List.all_eq_true.mp hBody) fun c h => (hRest c h).1
  have hQuote : c ≠ '"' := by
    rintro rfl
    exact absurd hc (by decide)
  rw [nextToken?, if_neg hQuote, if_pos hc, hTake, hDrop, hToken, Option.map_some]

theorem isNumeralChar_of_isDigit {c : Char} (hc : c.isDigit = true) : isNumeralChar c = true := by
  rw [isNumeralChar, hc]
  rfl

theorem isLower_of_isDigit {c : Char} (hc : c.isDigit = true) : c.isLower = false := by
  have hUpper : c.val ≤ 57 := by simpa using (Bool.and_eq_true_iff.mp hc).2
  refine Bool.and_eq_false_imp.mpr fun hLower => ?_
  have : (97 : UInt32) ≤ c.val := by simpa using hLower
  exact absurd (UInt32.le_trans this hUpper) (by decide)

/-- Digits are read as the number that they write. -/
theorem nextToken?_natural {n : Nat} {c : Char} {body rest : List Char}
    (hDigits : Nat.toDigits 10 n = c :: body) (hRest : Delimited rest) :
    isSpace c = false ∧ nextToken? c (body ++ rest) = some (.natural n, rest) := by
  have hDigit : ∀ d ∈ c :: body, d.isDigit = true := fun _ hd =>
    isDigit_of_mem_toDigits (hDigits ▸ hd)
  rw [List.forall_mem_cons] at hDigit
  obtain ⟨hTake, hDrop⟩ := takeWhile_dropWhile_eq
    (fun d hd => isNumeralChar_of_isDigit (hDigit.2 d hd)) fun d hd => (hRest d hd).2
  have hNot : ∀ d, d.isDigit = false → c ≠ d := by
    rintro d hd rfl
    exact absurd hDigit.1 (by simp [hd])
  constructor
  · simp [isSpace, hNot]
  · rw [nextToken?, if_neg (hNot '"' rfl), if_neg (by simp [isLower_of_isDigit hDigit.1]),
      if_pos (isNumeralChar_of_isDigit hDigit.1), hTake, hDrop, ← hDigits, numeralToken?_toDigits,
      Option.map_some]

/-- A token is read back from its written form, if nothing after it continues it. -/
theorem nextToken?_spelling {token : Token} (hPlain : token.isPlain = true) {rest : List Char}
    (hRest : token.isMark = false → Delimited rest) :
    ∃ c body, token.spelling = c :: body ∧ isSpace c = false ∧
      nextToken? c (body ++ rest) = some (token, rest) := by
  cases token with
  | openBracket => exact ⟨'[', [], rfl, rfl, rfl⟩
  | closeBracket => exact ⟨']', [], rfl, rfl, rfl⟩
  | openBrace => exact ⟨'\x7b', [], rfl, rfl, rfl⟩
  | closeBrace => exact ⟨'\x7d', [], rfl, rfl, rfl⟩
  | comma => exact ⟨',', [], rfl, rfl, rfl⟩
  | colon => exact ⟨':', [], rfl, rfl, rfl⟩
  | null => exact ⟨'n', ['u', 'l', 'l'], rfl, rfl, nextToken?_word rfl rfl rfl (hRest rfl)⟩
  | bool value =>
      cases value with
      | true => exact ⟨'t', _, rfl, rfl, nextToken?_word rfl rfl rfl (hRest rfl)⟩
      | false => exact ⟨'f', _, rfl, rfl, nextToken?_word rfl rfl rfl (hRest rfl)⟩
  | natural n =>
      obtain ⟨c, body, hDigits, -, -⟩ := exists_toDigits_eq_cons n
      exact ⟨c, body, hDigits, nextToken?_natural hDigits (hRest rfl)⟩
  | decimal numeral => contradiction
  | literal content =>
      cases content with
      | unpaired units => contradiction
      | text content =>
          refine ⟨'"', _, Literal.spelling_text content, rfl, ?_⟩
          rw [nextToken?, if_pos rfl, List.append_assoc, List.singleton_append, units?_text,
            Option.map_some, ← Literal.ofUnits_units_text]
          rfl

/-! ## Control characters -/

theorem toNat_of_mem_hexDigits (n : Nat) : ∀ c ∈ hexDigits n, 0x20 ≤ c.toNat := by
  have hDigit : ∀ m < 16, 0x20 ≤ (Nat.digitChar m).toNat := by decide
  have hPlace : ∀ m, 0x20 ≤ (Nat.digitChar (m % 16)).toNat := fun m =>
    hDigit _ (Nat.mod_lt m (by decide))
  simp only [hexDigits, List.forall_mem_cons, hPlace, List.not_mem_nil, false_implies,
    implies_true, and_self]

/-- Control characters are escaped. -/
theorem toNat_of_mem_escape (c : Char) : ∀ d ∈ escape c, 0x20 ≤ d.toNat := by
  fun_cases escape c
  case case8 =>
      rw [unitEscape, List.forall_mem_cons, List.forall_mem_cons]
      exact ⟨by decide, by decide, toNat_of_mem_hexDigits _⟩
  case case9 hPrinted =>
      exact List.forall_mem_singleton.mpr (Nat.not_lt.mp hPrinted)
  all_goals simp

/-- The written form of a plain token is free of control characters. -/
theorem toNat_of_mem_spelling {token : Token} (hPlain : token.isPlain = true) :
    ∀ c ∈ token.spelling, 0x20 ≤ c.toNat := by
  cases token with
  | openBracket | closeBracket | openBrace | closeBrace | comma | colon | null =>
      simp [Token.spelling]
  | bool value => cases value <;> simp [Token.spelling]
  | natural n =>
      rw [Token.spelling]
      intro c hc
      exact (Char.isDigit_iff_toNat.mp (isDigit_of_mem_toDigits hc)).1.trans' (by decide)
  | decimal numeral => contradiction
  | literal content =>
      cases content with
      | unpaired units => contradiction
      | text content =>
          rw [Token.spelling, Literal.spelling_text, List.forall_mem_cons, List.forall_mem_append]
          refine ⟨by decide, ?_, List.forall_mem_singleton.mpr (by decide)⟩
          intro d hd
          obtain ⟨c, -, hd⟩ := List.mem_flatMap.mp hd
          exact toNat_of_mem_escape c d hd

/-! ## Runs of tokens -/

theorem tokens?_cons {c : Char} (hSpace : isSpace c = false) (rest : List Char) :
    tokens? (c :: rest) = (nextToken? c rest).bind fun read =>
      (tokens? read.2).map fun tokens => read.1 :: tokens := by
  rw [tokens?, if_neg (by simp [hSpace])]
  split
  next hRead => rw [hRead, Option.bind_none]
  next token after hRead => rw [hRead, Option.bind_some]

theorem tokens?_spelling_append {token : Token} (hPlain : token.isPlain = true)
    {rest : List Char} (hRest : token.isMark = false → Delimited rest) :
    tokens? (token.spelling ++ rest) = (tokens? rest).map fun tokens => token :: tokens := by
  obtain ⟨c, body, hSpelling, hSpace, hNext⟩ := nextToken?_spelling hPlain hRest
  rw [hSpelling, List.cons_append, tokens?_cons hSpace, hNext, Option.bind_some]

/-- The tokens are read back from their written forms in a row, whatever comes after them that
does not continue the last. -/
def Scans (tokens : List Token) : Prop :=
  ∀ rest, Delimited rest →
    tokens? (tokens.flatMap Token.spelling ++ rest) =
      (tokens? rest).map fun after => tokens ++ after

theorem Scans.singleton {token : Token} (hPlain : token.isPlain = true) : Scans [token] := by
  intro rest hRest
  rw [List.flatMap_singleton, tokens?_spelling_append hPlain fun _ => hRest]
  rfl

/-- After a mark anything may stand. -/
theorem Scans.cons_mark {token : Token} {tokens : List Token} (hMark : token.isMark = true)
    (hTokens : Scans tokens) : Scans (token :: tokens) := by
  intro rest hRest
  have hPlain : token.isPlain = true := by cases token <;> trivial
  rw [List.flatMap_cons, List.append_assoc,
    tokens?_spelling_append hPlain fun h => absurd hMark (by simp [h]), hTokens rest hRest,
    Option.map_map]
  rfl

/-- Before a mark anything may stand. -/
theorem Scans.append {before after : List Token} (hBefore : Scans before) (hAfter : Scans after)
    (hMark : ∀ token ∈ after.head?, token.isMark = true) : Scans (before ++ after) := by
  intro rest hRest
  have hDelimited : Delimited (after.flatMap Token.spelling ++ rest) := by
    cases after with
    | nil => exact hRest
    | cons token after =>
        rw [List.flatMap_cons, List.append_assoc]
        exact delimited_spelling_append (hMark token rfl) _
  rw [List.flatMap_append, List.append_assoc, hBefore _ hDelimited, hAfter rest hRest,
    Option.map_map]
  simp [Function.comp_def]

end PhraseGrammar.Json
