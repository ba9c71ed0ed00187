import ZoneHistory.Proofs.Batch.RoundTrip
import ZoneHistory.Proofs.Batch.Validation

/-!
# Offsets in hours and minutes

Main statement: the minutes of a record take the sign of its hours, unless there are hours
east of UTC and minutes west of it (`OffsetRecord.toOffset_unless_opposed`).

West of UTC the sign of the minutes is dropped, east of it it is kept. So the minutes of an
`Opposed` record are taken from its hours, and this decides both which of these records are
accepted and what they are worth. Opposite records have opposite offsets if neither of the
two is opposed. What is accepted can be written again in any case, since the writer gives an
offset a record that is not opposed.
-/

namespace ZoneHistory

namespace OffsetRecord

/-- The record on the other side of UTC. -/
def opposite (r : OffsetRecord) : OffsetRecord :=
  ⟨-r.hours, -r.minutes⟩

variable {r : OffsetRecord} {o : Offset}

theorem toOffset_eq_ok_iff : r.toOffset = .ok o ↔ r.worth.natAbs < 1440 ∧ o = ⟨r.worth⟩ := by
  rw [r.checks_toOffset.eq_ok_iff, List.forall_mem_singleton]

/-! ## What a record is worth -/

/-- Minutes to the west of hours to the east make less of these, not more. -/
theorem worth_lt_size_of_opposed (h : r.Opposed) : r.worth < r.size := by
  obtain ⟨hhours, hminutes⟩ := h
  rw [worth_of_opposed ⟨hhours, hminutes⟩, size]
  omega

theorem natAbs_worth_of_not_opposed (hhours : r.hours ≠ 0) (h : ¬r.Opposed) :
    r.worth.natAbs = r.size := by
  rw [worth_of_not_opposed hhours h, Int.natAbs_mul, Int.natAbs_sign_of_ne_zero hhours, one_mul,
    Int.natAbs_natCast]

/-! ## Opposite records -/

/-- If hours and minutes have the same sign, or one of them has none, both records are read with
that sign. -/
theorem worth_opposite (h : 0 ≤ r.hours * r.minutes) : r.opposite.worth = -r.worth := by
  simp only [← total_eq_worth, total, opposite]
  rcases lt_trichotomy r.hours 0 with hwest | hnone | heast
  · have hminutes : r.minutes ≤ 0 := nonpos_of_mul_nonneg_right h hwest
    omega
  · omega
  · have hminutes : 0 ≤ r.minutes := nonneg_of_mul_nonneg_right h heast
    omega

/-- One of the two records is opposed, and so the nearer one to UTC. -/
theorem worth_opposite_ne (h : r.hours * r.minutes < 0) : r.opposite.worth ≠ -r.worth := by
  simp only [← total_eq_worth, total, opposite]
  rcases mul_neg_iff.mp h with ⟨heast, hminutes⟩ | ⟨hwest, hminutes⟩ <;> omega

theorem toOffset_opposite_iff (h : 0 ≤ r.hours * r.minutes) :
    r.opposite.toOffset = .ok ⟨-o.minutes⟩ ↔ r.toOffset = .ok o := by
  obtain ⟨minutes⟩ := o
  rw [toOffset_eq_ok_iff, toOffset_eq_ok_iff, worth_opposite h, Int.natAbs_neg, Offset.mk.injEq,
    Offset.mk.injEq, neg_inj]

theorem not_toOffset_opposite (h : r.hours * r.minutes < 0) (hr : r.toOffset = .ok o) :
    r.opposite.toOffset ≠ .ok ⟨-o.minutes⟩ := by
  intro hopposite
  obtain ⟨-, rfl⟩ := toOffset_eq_ok_iff.mp hr
  obtain ⟨-, heq⟩ := toOffset_eq_ok_iff.mp hopposite
  exact worth_opposite_ne h (Offset.mk.inj heq).symm

/-! ## Which records are accepted -/

/-- The minutes take the sign of the hours, and have their own if there are none, except where
hours east of UTC have minutes west of it: these keep their sign there, so that the offset is the
difference. Records on both sides of UTC have opposite offsets exactly if neither is so. What was
accepted is written as a record with the same offset. -/
theorem toOffset_unless_opposed (r : OffsetRecord) :
    (r.hours = 0 → ∀ o, r.toOffset = .ok o ↔ r.minutes.natAbs < 1440 ∧ o = ⟨r.minutes⟩) ∧
    (r.hours ≠ 0 → ¬r.Opposed →
      ∀ o, r.toOffset = .ok o ↔ r.size < 1440 ∧ o = ⟨r.hours.sign * r.size⟩) ∧
    (r.Opposed → 60 * r.hours + r.minutes < r.size ∧ ∀ o, r.toOffset = .ok o ↔
      (60 * r.hours + r.minutes).natAbs < 1440 ∧ o = ⟨60 * r.hours + r.minutes⟩) ∧
    (∀ o, r.toOffset = .ok o →
      (r.opposite.toOffset = .ok ⟨-o.minutes⟩ ↔ 0 ≤ r.hours * r.minutes) ∧
      (ofOffset o).toOffset = .ok o ∧ ¬(ofOffset o).Opposed) := by
  refine ⟨?_, ?_, ?_, ?_⟩
  · intro hnone o
    rw [toOffset_eq_ok_iff, worth_of_no_hours hnone]
  · intro hhours h o
    rw [toOffset_eq_ok_iff, natAbs_worth_of_not_opposed hhours h, worth_of_not_opposed hhours h]
  · intro h
    rw [← worth_of_opposed h]
    exact ⟨worth_lt_size_of_opposed h, fun _ => toOffset_eq_ok_iff⟩
  · intro o hr
    refine ⟨⟨?_, fun h => (toOffset_opposite_iff h).mpr hr⟩,
      toOffset_ofOffset (withinDay_of_toOffset hr), ?_⟩
    · intro hopposite
      by_contra h
      exact not_toOffset_opposite (Int.not_le.mp h) hr hopposite
    · rintro ⟨heast, hminutes⟩
      rcases ofOffset_cases o with ⟨hsign, h⟩ | ⟨hsign, h⟩ | ⟨hsign, h⟩ <;>
      · rw [h] at heast hminutes
        dsimp only at heast hminutes
        omega

/-- Nine hours and a half to the west, with the sign on both fields. -/
theorem toOffset_nine_and_a_half_west :
    (⟨-9, -30⟩ : OffsetRecord).toOffset = .ok ⟨-570⟩ ∧
      (⟨-9, -30⟩ : OffsetRecord).opposite.toOffset = .ok ⟨570⟩ ∧
      (ofOffset ⟨-570⟩).toOffset = .ok ⟨-570⟩ := by
  have hopposed : ¬(⟨-9, -30⟩ : OffsetRecord).Opposed := by
    intro h
    exact absurd h.1 (by decide)
  obtain ⟨-, hsame, -, hback⟩ := toOffset_unless_opposed ⟨-9, -30⟩
  have h := (hsame (by decide) hopposed ⟨-570⟩).mpr (by decide)
  obtain ⟨hopposite, hwritten, -⟩ := hback _ h
  exact ⟨h, hopposite.mpr (by decide), hwritten⟩

/-- Half an hour to the west is taken from five hours to the east, and an hour from a whole day,
which is then not too far from UTC. The opposite of the first record is half an hour further. -/
theorem toOffset_of_five_hours_and_minus_thirty :
    (⟨5, -30⟩ : OffsetRecord).toOffset = .ok ⟨270⟩ ∧
      Int.sign 5 * (⟨5, -30⟩ : OffsetRecord).size = 330 ∧
      (⟨-5, 30⟩ : OffsetRecord).toOffset = .ok ⟨-330⟩ ∧
      (⟨24, -60⟩ : OffsetRecord).toOffset = .ok ⟨1380⟩ ∧
      (⟨24, -60⟩ : OffsetRecord).size = 1500 := by
  decide

end OffsetRecord

end ZoneHistory
