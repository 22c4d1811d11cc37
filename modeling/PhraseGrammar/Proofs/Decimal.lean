import PhraseGrammar.Proofs.Pieces

set_option autoImplicit false

/-! # Decimal numbers

A number is written with at least one digit and with digits only, and but for zero the first of
them is no zero. Where something else than a digit follows, the number is told apart from it
(`eq_of_toDigits_append_eq`), so numbers in a row with marks between them can be read again.
-/

namespace PhraseGrammar.Text

open PhraseGrammar.Source (eq_of_run_append_eq)

theorem toList_toString (n : Nat) : (toString n).toList = Nat.toDigits 10 n := by
  rw [Nat.toString_eq_repr, Nat.toList_repr]

theorem isDigit_of_mem_toDigits {n : Nat} {c : Char} (hc : c ∈ Nat.toDigits 10 n) :
    c.isDigit = true :=
  Nat.isDigit_of_mem_toDigits (by decide) (by decide) hc

/-- A number is written with at least one digit, and with digits only. -/
theorem exists_toDigits_eq_cons (n : Nat) :
    ∃ c rest, Nat.toDigits 10 n = c :: rest ∧ c.isDigit = true ∧
      ∀ d ∈ rest, d.isDigit = true := by
  have hDigits : ∀ c ∈ Nat.toDigits 10 n, c.isDigit = true := fun _ => isDigit_of_mem_toDigits
  obtain ⟨c, rest, hEq⟩ := List.exists_cons_of_ne_nil (Nat.toDigits_ne_nil (n := n) (b := 10))
  rw [hEq, List.forall_mem_cons] at hDigits
  exact ⟨c, rest, hEq, hDigits⟩

/-- The digits of zero are the only ones that start with a zero. -/
theorem eq_zero_of_toDigits_eq_zero_cons {n : Nat} {rest : List Char}
    (h : Nat.toDigits 10 n = '0' :: rest) : n = 0 := by
  induction n using Nat.strongRecOn generalizing rest with
  | ind n ih =>
      rw [Nat.toDigits_eq_if (by decide)] at h
      by_cases hn : n < 10
      · rw [if_pos hn] at h
        exact Nat.digitChar_eq_zero.mp (List.cons.inj h).1
      · -- the digits before the last are those of `n / 10`, which is not zero
        rw [if_neg hn] at h
        obtain ⟨c, front, hFront, -⟩ := exists_toDigits_eq_cons (n / 10)
        rw [hFront, List.cons_append, List.cons.injEq] at h
        have := ih (n / 10) (by omega) (h.1 ▸ hFront)
        omega

theorem toDigits_injective : Function.Injective (Nat.toDigits 10) := by
  intro first second h
  calc first
      = Nat.ofDigitChars 10 (Nat.toDigits 10 first) 0 := Nat.ofDigitChars_ten_toDigits.symm
    _ = Nat.ofDigitChars 10 (Nat.toDigits 10 second) 0 := by rw [h]
    _ = second := Nat.ofDigitChars_ten_toDigits

/-- Numbers that are followed by no digit are told apart from what follows them. -/
theorem eq_of_toDigits_append_eq {first second : Nat} {rest more : List Char}
    (hRest : ∀ c ∈ rest.head?, c.isDigit = false) (hMore : ∀ c ∈ more.head?, c.isDigit = false)
    (h : Nat.toDigits 10 first ++ rest = Nat.toDigits 10 second ++ more) :
    first = second ∧ rest = more := by
  obtain ⟨hSame, hRest⟩ := eq_of_run_append_eq (fun _ => isDigit_of_mem_toDigits)
    (fun _ => isDigit_of_mem_toDigits) hRest hMore h
  exact ⟨toDigits_injective hSame, hRest⟩

end PhraseGrammar.Text
