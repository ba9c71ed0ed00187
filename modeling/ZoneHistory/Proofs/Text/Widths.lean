import ZoneHistory.Proofs.Text.Digits

/-!
# Numbers in front of other text

A number is told from the text that follows it, however wide it is: its digits go up to the
first character that is no digit, and zeros in front of them do not count. A sign goes up to
the first digit in the same way (`signOf_append_inj`).
-/

namespace ZoneHistory.Text

/-- The text does not begin with a digit. -/
def EndsNumber (cs : List Char) : Prop :=
  ∀ c, cs.head? = some c → c.isDigit = false

theorem endsNumber_nil : EndsNumber [] := by
  intro c h
  cases h

theorem endsNumber_cons {c : Char} {cs : List Char} (h : c.isDigit = false) :
    EndsNumber (c :: cs) := by
  intro d hd
  cases hd
  exact h

/-! ## Padded numbers -/

theorem toList_padded (width n : Nat) : (padded width n).toList =
    List.replicate (width - (digits n).length) '0' ++ digits n :=
  String.toList_ofList

theorem isDigit_of_mem_padded {width n : Nat} {c : Char} (h : c ∈ (padded width n).toList) :
    c.isDigit = true := by
  rw [toList_padded] at h
  rcases List.mem_append.mp h with hzero | hdigit
  · rw [List.eq_of_mem_replicate hzero]
    rfl
  · exact isDigit_of_mem_digits hdigit

theorem padded_ne_nil (width n : Nat) : (padded width n).toList ≠ [] := by
  rw [toList_padded]
  intro h
  exact digits_ne_nil n (List.append_eq_nil_iff.mp h).2

/-- The value of a padded number, whatever the width. -/
theorem ofDigitChars_padded (width n : Nat) :
    Nat.ofDigitChars 10 (padded width n).toList 0 = n := by
  rw [toList_padded, Nat.ofDigitChars_append, Nat.ofDigitChars_replicate_zero, Nat.mul_zero,
    ofDigitChars_digits]

theorem takeWhile_padded_append {width n : Nat} {rest : List Char} (h : EndsNumber rest) :
    ((padded width n).toList ++ rest).takeWhile Char.isDigit = (padded width n).toList := by
  rw [List.takeWhile_append_of_pos fun c hc => isDigit_of_mem_padded hc]
  cases rest with
  | nil => simp
  | cons c cs => simp [h c rfl]

theorem padded_append_inj {width width' m n : Nat} {s t : List Char} (hs : EndsNumber s)
    (ht : EndsNumber t) (h : (padded width m).toList ++ s = (padded width' n).toList ++ t) :
    m = n ∧ s = t := by
  have hdigits : (padded width m).toList = (padded width' n).toList := by
    rw [← takeWhile_padded_append hs, h, takeWhile_padded_append ht]
  refine ⟨?_, ?_⟩
  · rw [← ofDigitChars_padded width m, hdigits, ofDigitChars_padded]
  · rw [hdigits] at h
    exact List.append_cancel_left h

/-! ## Signs -/

/-- What may stand in front of a number that is not negative. -/
def IsPlus (cs : List Char) : Prop :=
  cs = [] ∨ cs = ['+']

/-- The sign of a number: a minus sign, or the sign for numbers that are not negative. -/
def signOf (plus : List Char) (n : Int) : List Char :=
  if n < 0 then ['-'] else plus

theorem isDigit_of_mem_signOf {plus : List Char} (hplus : IsPlus plus) {n : Int} {c : Char}
    (h : c ∈ signOf plus n) : c.isDigit = false := by
  rw [signOf] at h
  split at h
  · rw [List.mem_singleton.mp h]
    rfl
  · rcases hplus with rfl | rfl
    · cases h
    · rw [List.mem_singleton.mp h]
      rfl

theorem signOf_eq_minus_iff {plus : List Char} (hplus : IsPlus plus) {n : Int} :
    signOf plus n = ['-'] ↔ n < 0 := by
  by_cases h : n < 0
  · simp [signOf, h]
  · rcases hplus with rfl | rfl <;> simp [signOf, h]

theorem takeWhile_signOf_append {plus : List Char} (hplus : IsPlus plus) (n : Int)
    (width k : Nat) (rest : List Char) :
    (signOf plus n ++ ((padded width k).toList ++ rest)).takeWhile (fun c => !c.isDigit) =
      signOf plus n := by
  rw [List.takeWhile_append_of_pos fun c hc => by simp [isDigit_of_mem_signOf hplus hc]]
  obtain ⟨c, cs, hcs⟩ := List.exists_cons_of_ne_nil (padded_ne_nil width k)
  have hdigit : c.isDigit = true := isDigit_of_mem_padded (hcs ▸ List.mem_cons_self)
  rw [hcs]
  simp [hdigit]

/-- Both the sign and the number after it are told from what follows. -/
theorem signOf_append_inj {plus plus' s t : List Char} {m n : Int} {width width' k l : Nat}
    (hplus : IsPlus plus) (hplus' : IsPlus plus') (hs : EndsNumber s) (ht : EndsNumber t)
    (h : signOf plus m ++ ((padded width k).toList ++ s) =
      signOf plus' n ++ ((padded width' l).toList ++ t)) :
    (m < 0 ↔ n < 0) ∧ k = l ∧ s = t := by
  have hsign : signOf plus m = signOf plus' n := by
    rw [← takeWhile_signOf_append hplus m width k s, h, takeWhile_signOf_append hplus']
  rw [hsign] at h
  refine ⟨?_, padded_append_inj hs ht (List.append_cancel_left h)⟩
  rw [← signOf_eq_minus_iff hplus, hsign, signOf_eq_minus_iff hplus']

/-- A signed number is told from what follows. -/
theorem integer_append_inj {plus plus' s t : List Char} {m n : Int} {width width' : Nat}
    (hplus : IsPlus plus) (hplus' : IsPlus plus') (hs : EndsNumber s) (ht : EndsNumber t)
    (h : signOf plus m ++ ((padded width m.natAbs).toList ++ s) =
      signOf plus' n ++ ((padded width' n.natAbs).toList ++ t)) :
    m = n ∧ s = t := by
  obtain ⟨hsign, hsize, hrest⟩ := signOf_append_inj hplus hplus' hs ht h
  exact ⟨by omega, hrest⟩

end ZoneHistory.Text
