import ZoneHistory.Text.Digits

/-!
# Decimal digits

`digits n` is never empty, holds digits only (`isDigit_of_mem_digits`), begins with a
zero only if `n` is zero (`digits_eq_zero_cons`) and has the value `n`
(`ofDigitChars_digits`).
-/

namespace ZoneHistory.Text

theorem IntegerRange.contains_iff {range : IntegerRange} {n : Int} :
    range.contains n = true ↔ range.least ≤ n ∧ n ≤ range.greatest := by
  simp [contains]

theorem digits_ne_nil (n : Nat) : digits n ≠ [] :=
  Nat.toDigits_ne_nil

theorem isDigit_of_mem_digits {n : Nat} {c : Char} (h : c ∈ digits n) : c.isDigit = true :=
  Nat.isDigit_of_mem_toDigits (by decide) (by decide) h

theorem ofDigitChars_digits (n : Nat) : Nat.ofDigitChars 10 (digits n) 0 = n :=
  Nat.ofDigitChars_ten_toDigits

/-- Only zero is written with a zero in front. -/
theorem digits_eq_zero_cons {n : Nat} {rest : List Char} (h : digits n = '0' :: rest) :
    n = 0 := by
  induction n using Nat.strongRecOn generalizing rest with
  | ind n ih =>
      rw [digits, Nat.toDigits_eq_if (by decide)] at h
      split at h
      next hlt =>
        simp only [List.cons.injEq, Nat.digitChar_eq_zero] at h
        exact h.1
      next hge =>
        have hlt : n / 10 < n := by omega
        cases hdigits : Nat.toDigits 10 (n / 10) with
        | nil => exact absurd hdigits Nat.toDigits_ne_nil
        | cons d ds =>
            rw [hdigits, List.cons_append, List.cons.injEq] at h
            have hrest : digits (n / 10) = '0' :: ds := by rw [digits, hdigits, h.1]
            have := ih (n / 10) hlt hrest
            omega

end ZoneHistory.Text
