import ZoneHistory.Proofs.Text.Digits

/-!
# Reading numerals

An `Unsigned` numeral is digits, perhaps after a plus sign, and a `Signed` one may have
a minus sign in place of that. `readInteger` reads the numerals of its range and no other
text: `readIntegerOf_signed_iff` for a range with negative numbers and
`readIntegerOf_unsigned_iff` for one without.

The readers stop at the first digit that leaves the range. Digits never bring a number
back to the range (`le_ofDigitChars`), so this is the range of the whole number.
-/

namespace ZoneHistory.Text

/-- One or more decimal digits with the value `n`. -/
structure Decimal (n : Nat) (cs : List Char) : Prop where
  ne_nil : cs ≠ []
  digits : ∀ c ∈ cs, c.isDigit = true
  value : Nat.ofDigitChars 10 cs 0 = n

inductive Unsigned : Nat → List Char → Prop
  | bare {n : Nat} {cs : List Char} : Decimal n cs → Unsigned n cs
  | plus {n : Nat} {cs : List Char} : Decimal n cs → Unsigned n ('+' :: cs)

inductive Signed : Int → List Char → Prop
  | unsigned {n : Nat} {cs : List Char} : Unsigned n cs → Signed n cs
  | minus {n : Nat} {cs : List Char} : Decimal n cs → Signed (-n) ('-' :: cs)

theorem decimal_digits (n : Nat) : Decimal n (digits n) :=
  ⟨digits_ne_nil n, fun _ => isDigit_of_mem_digits, ofDigitChars_digits n⟩

/-! ## The characters of numerals -/

theorem Decimal.head_isDigit {n : Nat} {c : Char} {cs : List Char} (h : Decimal n (c :: cs)) :
    c.isDigit = true :=
  h.digits c List.mem_cons_self

theorem Unsigned.ne_nil {n : Nat} {cs : List Char} (h : Unsigned n cs) : cs ≠ [] := by
  cases h with
  | bare h => exact h.ne_nil
  | plus h => nofun

theorem Signed.ne_nil {n : Int} {cs : List Char} (h : Signed n cs) : cs ≠ [] := by
  cases h with
  | unsigned h => exact h.ne_nil
  | minus h => nofun

theorem Unsigned.digit_or_plus {n : Nat} {cs : List Char} (h : Unsigned n cs) :
    ∀ c ∈ cs, c.isDigit = true ∨ c = '+' := by
  intro c hc
  cases h with
  | bare h => exact Or.inl (h.digits c hc)
  | plus h =>
      rcases List.mem_cons.mp hc with rfl | hc
      · exact Or.inr rfl
      · exact Or.inl (h.digits c hc)

theorem Signed.digit_or_sign {n : Int} {cs : List Char} (h : Signed n cs) :
    ∀ c ∈ cs, c.isDigit = true ∨ c = '+' ∨ c = '-' := by
  intro c hc
  cases h with
  | unsigned h => exact (h.digit_or_plus c hc).imp_right Or.inl
  | minus h =>
      rcases List.mem_cons.mp hc with rfl | hc
      · exact Or.inr (Or.inr rfl)
      · exact Or.inl (h.digits c hc)

def EndsWithDigit (cs : List Char) : Prop :=
  ∃ front c, cs = front ++ [c] ∧ c.isDigit = true

theorem EndsWithDigit.append {cs : List Char} (h : EndsWithDigit cs) (front : List Char) :
    EndsWithDigit (front ++ cs) := by
  obtain ⟨front', c, rfl, hc⟩ := h
  exact ⟨front ++ front', c, (List.append_assoc ..).symm, hc⟩

theorem Decimal.endsWithDigit {n : Nat} {cs : List Char} (h : Decimal n cs) : EndsWithDigit cs :=
  ⟨_, _, (List.dropLast_concat_getLast h.ne_nil).symm, h.digits _ (List.getLast_mem h.ne_nil)⟩

theorem Signed.endsWithDigit {n : Int} {cs : List Char} (h : Signed n cs) : EndsWithDigit cs := by
  cases h with
  | unsigned h =>
      cases h with
      | bare h => exact h.endsWithDigit
      | plus h => exact h.endsWithDigit.append ['+']
  | minus h => exact h.endsWithDigit.append ['-']

theorem Unsigned.head?_ne_minus {k : Nat} {cs : List Char} (h : Unsigned k cs) :
    cs.head? ≠ some '-' := by
  have hsign : '-'.isDigit ≠ true := by decide
  intro hhead
  obtain ⟨cs, rfl⟩ := List.head?_eq_some_iff.mp hhead
  cases h with
  | bare h => exact absurd h.head_isDigit hsign

/-- A signed numeral without a minus sign is unsigned. -/
theorem Signed.unsigned_of_head? {n : Int} {cs : List Char} (h : Signed n cs)
    (hhead : cs.head? ≠ some '-') : ∃ k : Nat, n = k ∧ Unsigned k cs := by
  cases h with
  | unsigned h => exact ⟨_, rfl, h⟩
  | minus h => exact absurd rfl hhead

/-! ## Reading digits -/

theorem digitValue?_eq_some_iff {c : Char} {d : Nat} :
    digitValue? c = some d ↔ c.isDigit = true ∧ d = c.toNat - '0'.toNat := by
  rw [digitValue?]
  split
  next h => simp [h, eq_comm]
  next h => simp [h]

theorem le_ofDigitChars (n : Nat) (cs : List Char) : n ≤ Nat.ofDigitChars 10 cs n := by
  rw [Nat.ofDigitChars_eq_ofDigitChars_zero]
  exact Nat.le_add_right_of_le (Nat.le_mul_of_pos_left n (Nat.pow_pos (by decide)))

section Reading

variable {range : IntegerRange}

/-- Reading digits upwards succeeds if the number that they complete is not too large. -/
theorem readUp_eq_ok_iff {n : Int} : ∀ {cs : List Char} {start : Nat}, start ≤ range.greatest →
    (readUp range cs start = .ok n ↔ (∀ c ∈ cs, c.isDigit = true) ∧
      n = Nat.ofDigitChars 10 cs start ∧ n ≤ range.greatest)
  | [], start, hstart => by
      simp only [readUp, Except.ok.injEq, Nat.ofDigitChars_nil, List.not_mem_nil, false_imp_iff,
        implies_true, true_and]
      omega
  | c :: cs, start, hstart => by
      rw [readUp, Nat.ofDigitChars_cons]
      cases hvalue : digitValue? c with
      | none =>
          refine ⟨nofun, fun ⟨hdigits, _, _⟩ => ?_⟩
          rw [digitValue?, if_pos (hdigits c List.mem_cons_self)] at hvalue
          cases hvalue
      | some d =>
          obtain ⟨hc, rfl⟩ := digitValue?_eq_some_iff.mp hvalue
          have hnext : (start : Int) * 10 + (c.toNat - '0'.toNat : Nat) =
              (10 * start + (c.toNat - '0'.toNat) : Nat) := by omega
          have hle := le_ofDigitChars (10 * start + (c.toNat - '0'.toNat)) cs
          simp only [hnext, List.forall_mem_cons, hc, true_and]
          split
          next hlarge =>
            refine ⟨nofun, fun ⟨_, hn, hgreatest⟩ => ?_⟩
            omega
          next hfits => exact readUp_eq_ok_iff (Int.not_lt.mp hfits)

theorem readDown_eq_ok_iff {n : Int} : ∀ {cs : List Char} {start : Nat},
    range.least ≤ -(start : Int) →
    (readDown range cs (-start) = .ok n ↔ (∀ c ∈ cs, c.isDigit = true) ∧
      n = -(Nat.ofDigitChars 10 cs start : Int) ∧ range.least ≤ n)
  | [], start, hstart => by
      simp only [readDown, Except.ok.injEq, Nat.ofDigitChars_nil, List.not_mem_nil, false_imp_iff,
        implies_true, true_and]
      omega
  | c :: cs, start, hstart => by
      rw [readDown, Nat.ofDigitChars_cons]
      cases hvalue : digitValue? c with
      | none =>
          refine ⟨nofun, fun ⟨hdigits, _, _⟩ => ?_⟩
          rw [digitValue?, if_pos (hdigits c List.mem_cons_self)] at hvalue
          cases hvalue
      | some d =>
          obtain ⟨hc, rfl⟩ := digitValue?_eq_some_iff.mp hvalue
          have hnext : -(start : Int) * 10 - (c.toNat - '0'.toNat : Nat) =
              -((10 * start + (c.toNat - '0'.toNat) : Nat) : Int) := by omega
          have hle := le_ofDigitChars (10 * start + (c.toNat - '0'.toNat)) cs
          simp only [hnext, List.forall_mem_cons, hc, true_and]
          split
          next hsmall =>
            refine ⟨nofun, fun ⟨_, hn, hleast⟩ => ?_⟩
            omega
          next hfits => exact readDown_eq_ok_iff (Int.not_lt.mp hfits)

/-! ## Reading numerals -/

theorem readUp_zero_iff (hrange : 0 ≤ range.greatest) {n : Int} {cs : List Char} (hne : cs ≠ []) :
    readUp range cs 0 = .ok n ↔ ∃ k : Nat, n = k ∧ Decimal k cs ∧ n ≤ range.greatest := by
  refine (readUp_eq_ok_iff (show ((0 : Nat) : Int) ≤ range.greatest from hrange)).trans ?_
  constructor
  · rintro ⟨hdigits, hn, hle⟩
    exact ⟨_, hn, ⟨hne, hdigits, rfl⟩, hle⟩
  · rintro ⟨k, hn, h, hle⟩
    exact ⟨h.digits, by rw [h.value, hn], hle⟩

theorem readDown_zero_iff (hrange : range.least ≤ 0) {n : Int} {cs : List Char} (hne : cs ≠ []) :
    readDown range cs 0 = .ok n ↔ ∃ k : Nat, n = -(k : Int) ∧ Decimal k cs ∧ range.least ≤ n := by
  refine (readDown_eq_ok_iff (show range.least ≤ -((0 : Nat) : Int) from hrange)).trans ?_
  constructor
  · rintro ⟨hdigits, hn, hle⟩
    exact ⟨_, hn, ⟨hne, hdigits, rfl⟩, hle⟩
  · rintro ⟨k, hn, h, hle⟩
    exact ⟨h.digits, by rw [h.value, hn], hle⟩

theorem readIntegerOf_plus {cs : List Char} (hne : cs ≠ []) :
    readIntegerOf range ('+' :: cs) = readUp range cs 0 := by
  cases cs with
  | nil => exact absurd rfl hne
  | cons c cs => rfl

theorem readIntegerOf_minus {cs : List Char} (hne : cs ≠ []) :
    readIntegerOf range ('-' :: cs) =
      if range.least < 0 then readDown range cs 0 else .error .invalidDigit := by
  cases cs with
  | nil => exact absurd rfl hne
  | cons c cs => rfl

theorem readIntegerOf_bare {c : Char} {cs : List Char} (hplus : c ≠ '+') (hminus : c ≠ '-') :
    readIntegerOf range (c :: cs) = readUp range (c :: cs) 0 := by
  unfold readIntegerOf
  split <;> simp_all

/-- Without a minus sign, exactly the unsigned numerals of the range can be read. -/
theorem readIntegerOf_of_head? (hrange : 0 ≤ range.greatest) {n : Int} {cs : List Char}
    (hhead : cs.head? ≠ some '-') :
    readIntegerOf range cs = .ok n ↔ ∃ k : Nat, n = k ∧ Unsigned k cs ∧ n ≤ range.greatest := by
  have hsign : '+'.isDigit ≠ true := by decide
  match cs with
  | [] => exact ⟨nofun, fun ⟨_, _, h, _⟩ => absurd rfl h.ne_nil⟩
  | c :: cs =>
    by_cases hplus : c = '+'
    · subst hplus
      by_cases hne : cs = []
      · subst hne
        refine ⟨nofun, fun ⟨_, _, h, _⟩ => ?_⟩
        cases h with
        | bare h => exact absurd h.head_isDigit hsign
        | plus h => exact absurd rfl h.ne_nil
      · rw [readIntegerOf_plus hne, readUp_zero_iff hrange hne]
        constructor
        · rintro ⟨k, hn, h, hle⟩
          exact ⟨k, hn, .plus h, hle⟩
        · rintro ⟨k, hn, h, hle⟩
          cases h with
          | bare h => exact absurd h.head_isDigit hsign
          | plus h => exact ⟨k, hn, h, hle⟩
    · have hminus : c ≠ '-' := by simpa using hhead
      rw [readIntegerOf_bare hplus hminus, readUp_zero_iff hrange (List.cons_ne_nil c cs)]
      constructor
      · rintro ⟨k, hn, h, hle⟩
        exact ⟨k, hn, .bare h, hle⟩
      · rintro ⟨k, hn, h, hle⟩
        cases h with
        | bare h => exact ⟨k, hn, h, hle⟩
        | plus h => exact absurd rfl hplus

/-- A range with negative numbers has the signed numerals. -/
theorem readIntegerOf_signed_iff (hleast : range.least < 0) (hgreatest : 0 ≤ range.greatest)
    {n : Int} {cs : List Char} :
    readIntegerOf range cs = .ok n ↔ Signed n cs ∧ range.contains n = true := by
  rw [IntegerRange.contains_iff]
  by_cases hhead : cs.head? = some '-'
  · obtain ⟨cs, rfl⟩ := List.head?_eq_some_iff.mp hhead
    by_cases hne : cs = []
    · subst hne
      refine ⟨nofun, fun ⟨h, _⟩ => ?_⟩
      cases h with
      | unsigned h => exact absurd rfl h.head?_ne_minus
      | minus h => exact absurd rfl h.ne_nil
    · rw [readIntegerOf_minus hne, if_pos hleast, readDown_zero_iff (Int.le_of_lt hleast) hne]
      constructor
      · rintro ⟨k, rfl, h, hle⟩
        exact ⟨.minus h, hle, by omega⟩
      · rintro ⟨h, hle, -⟩
        cases h with
        | unsigned h => exact absurd rfl h.head?_ne_minus
        | minus h => exact ⟨_, rfl, h, hle⟩
  · rw [readIntegerOf_of_head? hgreatest hhead]
    constructor
    · rintro ⟨k, rfl, h, hle⟩
      exact ⟨.unsigned h, by omega, hle⟩
    · rintro ⟨h, -, hle⟩
      obtain ⟨k, hn, hk⟩ := h.unsigned_of_head? hhead
      exact ⟨k, hn, hk, hle⟩

/-- A range without negative numbers has the unsigned numerals only. -/
theorem readIntegerOf_unsigned_iff (hleast : range.least = 0) (hgreatest : 0 ≤ range.greatest)
    {n : Int} {cs : List Char} :
    readIntegerOf range cs = .ok n ↔
      ∃ k : Nat, n = k ∧ Unsigned k cs ∧ range.contains n = true := by
  by_cases hhead : cs.head? = some '-'
  · obtain ⟨cs, rfl⟩ := List.head?_eq_some_iff.mp hhead
    refine ⟨fun h => ?_, fun ⟨k, hn, h, _⟩ => absurd rfl h.head?_ne_minus⟩
    by_cases hne : cs = []
    · subst hne
      cases h
    · rw [readIntegerOf_minus hne, if_neg (by omega)] at h
      cases h
  · rw [readIntegerOf_of_head? hgreatest hhead]
    refine exists_congr fun k => and_congr_right fun hn => and_congr_right fun _ => ?_
    rw [IntegerRange.contains_iff]
    omega

end Reading

end ZoneHistory.Text
