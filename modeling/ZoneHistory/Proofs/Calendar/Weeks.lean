import ZoneHistory.Proofs.Calendar.Succession

/-!
# Days of the week by counting

1970-01-01 was a Thursday, and the days of the week go round from there, onward and
backward (`Date.FallsOn`). A date is reached by as many steps as its number says, so the
weekday that is calculated from the number is the one that is counted
(`Date.Valid.fallsOn_iff`).
-/

namespace ZoneHistory.Calendar

def Weekday.next : Weekday → Weekday
  | monday => tuesday
  | tuesday => wednesday
  | wednesday => thursday
  | thursday => friday
  | friday => saturday
  | saturday => sunday
  | sunday => monday

theorem Weekday.next_injective : Function.Injective Weekday.next := by
  intro v w
  cases v <;> cases w <;> decide

theorem Weekday.number_injective : Function.Injective Weekday.number := by
  intro v w
  cases v <;> cases w <;> decide

theorem Weekday.number_next (w : Weekday) :
    w.next.number = if w.number = 7 then 1 else w.number + 1 := by
  cases w <;> rfl

theorem weekdayOf_succ (n : Int) : weekdayOf (n + 1) = (weekdayOf n).next := by
  refine Weekday.number_injective ?_
  rw [Weekday.number_next, number_weekdayOf, number_weekdayOf, weekdayNumber_succ]

theorem weekdayOf_add (n : Int) (days : Nat) :
    weekdayOf (n + days) = Weekday.next^[days] (weekdayOf n) := by
  induction days with
  | zero => rw [Nat.cast_zero, Int.add_zero, Function.iterate_zero_apply]
  | succ days ih =>
      rw [Nat.cast_succ, ← Int.add_assoc, weekdayOf_succ, ih, Function.iterate_succ_apply']

/-- Day by day from the Thursday of 1970-01-01, or back to it, the date comes out on the weekday. -/
def Date.FallsOn (d : Date) (w : Weekday) : Prop :=
  ∃ days : Nat,
    (d = Date.next^[days] ⟨1970, 1, 1⟩ ∧ w = Weekday.next^[days] .thursday) ∨
      (Date.next^[days] d = ⟨1970, 1, 1⟩ ∧ Weekday.next^[days] w = .thursday)

/-- So many days later, the number of the date is greater by so many. -/
theorem Date.Proper.dayNumber_iterate_next {d : Date} (h : d.Proper)
    (hyear : -400 * shiftCycles < d.year) (days : Nat) :
    (Date.next^[days] d).dayNumber = d.dayNumber + days := by
  induction days generalizing d with
  | zero => rw [Function.iterate_zero_apply, Nat.cast_zero, Int.add_zero]
  | succ days ih =>
      rw [Function.iterate_succ_apply, ih h.next (Int.lt_of_lt_of_le hyear d.year_le_next),
        h.dayNumber_next hyear, Nat.cast_succ]
      omega

theorem Date.Valid.fallsOn_weekday {d : Date} (h : d.Valid) : d.FallsOn d.weekday := by
  have hday := h.dayNumber_mem
  have hzero : Date.ofDayNumber 0 = ⟨1970, 1, 1⟩ := by decide +kernel
  have hthursday : weekdayOf 0 = .thursday := rfl
  rcases Int.lt_or_le d.dayNumber 0 with hlt | hle
  · obtain ⟨days, hdays⟩ := Int.le.dest (Int.le_of_lt hlt)
    refine ⟨days, Or.inr ⟨?_, ?_⟩⟩
    · rw [← hzero, ← hdays, ofDayNumber_add (by omega) (by omega), h.ofDayNumber_dayNumber]
    · rw [← hthursday, ← hdays, weekdayOf_add]
      rfl
  · obtain ⟨days, hdays⟩ := Int.le.dest hle
    refine ⟨days, Or.inl ⟨?_, ?_⟩⟩
    · rw [← hzero, ← ofDayNumber_add (by decide) (by omega), hdays, h.ofDayNumber_dayNumber]
    · rw [← hthursday, ← weekdayOf_add, hdays]
      rfl

/-- The weekday that is calculated is the only one that can be counted. -/
theorem Date.Valid.fallsOn_iff {d : Date} (h : d.Valid) {w : Weekday} :
    d.FallsOn w ↔ d.weekday = w := by
  constructor
  · rintro ⟨days, ⟨hd, rfl⟩ | ⟨hd, hw⟩⟩
    · have horigin : Date.Proper ⟨1970, 1, 1⟩ :=
        Date.proper_mk (by decide) (by decide) (by decide) (by decide)
      have hday := horigin.dayNumber_iterate_next (by decide) days
      rw [← hd, show Date.dayNumber ⟨1970, 1, 1⟩ = 0 by decide] at hday
      rw [Date.weekday, hday, weekdayOf_add]
      rfl
    · have hfirst : firstYear ≤ d.year := h.1
      have hday := h.proper.dayNumber_iterate_next
        (Int.lt_of_lt_of_le (by decide) hfirst) days
      refine (Weekday.next_injective.iterate days) ?_
      rw [Date.weekday, ← weekdayOf_add, ← hday, hd, hw]
      rfl
  · rintro rfl
    exact h.fallsOn_weekday

end ZoneHistory.Calendar
