import Strongbox.Decimal.Layout

/-!
# The digits of a natural number

A natural number is written without leading zeros, and its digits denote it.
-/

set_option autoImplicit false

namespace Strongbox.Decimal

/-- A digit stands between `0` and `9`. -/
theorem toNat_of_mem_digitsOf {n : Nat} {c : Char} (h : c ∈ digitsOf n) :
    48 ≤ c.toNat ∧ c.toNat ≤ 57 := by
  have hdigit : c.isDigit = true := Nat.isDigit_of_mem_toDigits (by omega) (by omega) h
  unfold Char.isDigit at hdigit
  rw [Bool.and_eq_true, decide_eq_true_eq, decide_eq_true_eq] at hdigit
  exact ⟨hdigit.1, hdigit.2⟩

/-- Every number has a digit. -/
theorem digitsOf_ne_nil (n : Nat) : digitsOf n ≠ [] := Nat.toDigits_ne_nil

/-- The digits of a number denote it. -/
theorem foldl_digitsOf (n : Nat) :
    (digitsOf n).foldl (fun m c => m * 10 + (c.toNat - 48)) 0 = n := by
  have hsame : (fun (m : Nat) (c : Char) => m * 10 + (c.toNat - 48)) =
      fun m c => 10 * m + (c.toNat - '0'.toNat) := by
    funext m c
    rw [Nat.mul_comm]
    rfl
  rw [hsame, ← Nat.ofDigitChars_eq_foldl]
  exact Nat.ofDigitChars_ten_toDigits

/-- A number below ten is one digit. -/
theorem digitsOf_of_lt {n : Nat} (h : n < 10) : digitsOf n = [n.digitChar] :=
  Nat.toDigits_of_lt_base h

/-- Any other is the digits of its tenth with one more. -/
theorem digitsOf_of_le {n : Nat} (h : 10 ≤ n) :
    digitsOf n = digitsOf (n / 10) ++ [(n % 10).digitChar] :=
  Nat.toDigits_of_base_le (by omega) h

/-- Only zero is written with a zero in front. -/
theorem head?_digitsOf_ne {n : Nat} (h : 0 < n) : (digitsOf n).head? ≠ some '0' := by
  induction n using Nat.strongRecOn with
  | ind n ih =>
    rcases Nat.lt_or_ge n 10 with hlt | hge
    · have hchar : ∀ m < 10, 0 < m → Nat.digitChar m ≠ '0' := by decide
      rw [digitsOf_of_lt hlt, List.head?_cons]
      intro hsame
      exact hchar n hlt h (Option.some.inj hsame)
    · have hhead : (digitsOf n).head? = (digitsOf (n / 10)).head? := by
        rw [digitsOf_of_le hge]
        cases hdigits : digitsOf (n / 10) with
        | nil => exact absurd hdigits (digitsOf_ne_nil _)
        | cons c cs => rfl
      rw [hhead]
      exact ih (n / 10) (by omega) (by omega)

end Strongbox.Decimal
