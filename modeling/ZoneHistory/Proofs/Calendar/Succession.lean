import Mathlib.Logic.Function.Iterate
import ZoneHistory.Calendar.Weekday
import ZoneHistory.Proofs.Calendar.Words

/-!
# One day after another

The calendar as people count it, with no arithmetic of eras in it: a month is over after its
number of days, a year after December (`Date.next`). `ofDayNumber_succ` says that the count
goes from one date to the next in just this way, and `ofDayNumber_add` takes any number of such
steps. So the two functions of the count are the proleptic Gregorian calendar, which
`days_follow_the_calendar` puts together with the lengths of the months and the days of the week.

The count works on years that begin in March. Its steps are therefore taken from the first of one
calendar month to the first of the next (`dayNumber_succ_month`, `dayNumber_succ_year`), where
only the step out of February crosses into another year of the count.
-/

namespace ZoneHistory.Calendar

/-! ## The lengths of the months -/

/-- The days of the months from January to December. -/
def monthLengths (year : Int) : List Nat :=
  [31, if 4 ∣ year ∧ (¬100 ∣ year ∨ 400 ∣ year) then 29 else 28,
    31, 30, 31, 30, 31, 31, 30, 31, 30, 31]

theorem daysInMonth_eq_getD (year : Int) (month : Nat) :
    daysInMonth year month = (0 :: monthLengths year).getD month 0 := by
  match month with
  | 2 => simp only [daysInMonth, isLeapYear_iff]; rfl
  | 0 | 1 | 3 | 4 | 5 | 6 | 7 | 8 | 9 | 10 | 11 | 12 => rfl
  | month + 13 => rfl

/-- No month has fewer days than a February. -/
theorem le_daysInMonth (year : Int) :
    ∀ {month : Nat}, 1 ≤ month → month ≤ 12 → 28 ≤ daysInMonth year month
  | 2, _, _ => by
      show 28 ≤ if isLeapYear year then 29 else 28
      split <;> decide
  | 1, _, _ | 3, _, _ | 4, _, _ | 5, _, _ | 6, _, _ | 7, _, _ | 8, _, _ | 9, _, _ | 10, _, _
  | 11, _, _ | 12, _, _ => Nat.le_add_left 28 _

theorem daysInMonth_pos (year : Int) {month : Nat} (h1 : 1 ≤ month) (h12 : month ≤ 12) :
    1 ≤ daysInMonth year month :=
  Nat.le_trans (by decide) (le_daysInMonth year h1 h12)

/-! ## From one month to the next -/

theorem dayNumber_add (year : Int) (month day days : Nat) :
    dayNumber year month (day + days) = dayNumber year month day + days := by
  simp only [dayNumber, Nat.cast_add]
  omega

/-- A day of a month, counted from the first. -/
theorem Date.Proper.dayNumber_eq_first {d : Date} (h : d.Proper) :
    d.dayNumber = Calendar.dayNumber d.year d.month 1 + (d.day - 1 : Nat) := by
  rw [← dayNumber_add, Nat.add_sub_cancel' h.day_pos]
  rfl

theorem dayNumber_succ_month {year : Int} (hyear : -400 * shiftCycles < year) {month : Nat}
    (h1 : 1 ≤ month) (h11 : month ≤ 11) :
    dayNumber year (month + 1) 1 = dayNumber year month 1 + daysInMonth year month := by
  rcases show month = 1 ∨ month = 2 ∨ 2 < month by omega with rfl | rfl | hlt
  · obtain ⟨marchYear, rfl⟩ : ∃ marchYear : Nat, year = marchYear + 1 - 400 * shiftCycles :=
      ⟨(year + 400 * shiftCycles - 1).toNat, by omega⟩
    rw [dayNumber_of_le (by decide) (by decide), dayNumber_of_le (by decide) (by decide),
      show daysBeforeMonth (1 + 1 + 12) = daysBeforeMonth (1 + 12) + 31 from rfl,
      show daysInMonth _ 1 = 31 from rfl]
    omega
  · -- the year that began in March is over
    obtain ⟨marchYear, rfl⟩ : ∃ marchYear : Nat, year = marchYear + 1 - 400 * shiftCycles :=
      ⟨(year + 400 * shiftCycles - 1).toNat, by omega⟩
    have hfebruary := daysBeforeYear_succ_february marchYear
    have hmarch := @dayNumber_of_lt (marchYear + 1) 3 (by decide) 1
    rw [Nat.cast_add, Nat.cast_one] at hmarch
    rw [hmarch, dayNumber_of_le (by decide) (by decide), hfebruary, daysInMonth_sub_shift,
      show daysBeforeMonth 3 = 0 from rfl, show 2 + 12 = 14 from rfl]
    omega
  · obtain ⟨marchYear, rfl⟩ : ∃ marchYear : Nat, year = marchYear - 400 * shiftCycles :=
      ⟨(year + 400 * shiftCycles).toNat, by omega⟩
    have hlength := daysBeforeMonth_succ hlt (by omega) (marchYear - 400 * shiftCycles)
    rw [if_neg (by omega)] at hlength
    rw [dayNumber_of_lt hlt, dayNumber_of_lt (by omega), hlength]
    omega

theorem dayNumber_succ_year {year : Int} (hyear : -400 * shiftCycles ≤ year) :
    dayNumber (year + 1) 1 1 = dayNumber year 12 1 + daysInMonth year 12 := by
  obtain ⟨marchYear, rfl⟩ : ∃ marchYear : Nat, year = marchYear - 400 * shiftCycles :=
    ⟨(year + 400 * shiftCycles).toNat, by omega⟩
  rw [show (marchYear : Int) - 400 * shiftCycles + 1 = marchYear + 1 - 400 * shiftCycles by omega,
    dayNumber_of_le (by decide) (by decide), dayNumber_of_lt (by decide),
    show daysBeforeMonth (1 + 12) = daysBeforeMonth 12 + 31 from rfl,
    show daysInMonth _ 12 = 31 from rfl]
  omega

/-! ## From one day to the next -/

/-- The date of the next day: in the same month, or else on the first of the next one. -/
def Date.next (d : Date) : Date :=
  if d.day < daysInMonth d.year d.month then ⟨d.year, d.month, d.day + 1⟩
  else if d.month < 12 then ⟨d.year, d.month + 1, 1⟩
  else ⟨d.year + 1, 1, 1⟩

theorem Date.year_le_next (d : Date) : d.year ≤ d.next.year := by
  unfold Date.next
  split
  · exact Int.le_refl _
  · split
    · exact Int.le_refl _
    · exact Int.le_of_lt (Int.lt_succ _)

theorem Date.Proper.next {d : Date} (h : d.Proper) : d.next.Proper := by
  unfold Date.next
  split
  next hlt => exact Date.proper_mk h.month_pos h.month_le (by omega) hlt
  next =>
    split
    next hmonth =>
      exact Date.proper_mk (by omega) hmonth (by decide) (daysInMonth_pos _ (by omega) hmonth)
    next =>
      exact Date.proper_mk (by decide) (by decide) (by decide)
        (daysInMonth_pos _ (by decide) (by decide))

theorem Date.Proper.dayNumber_next {d : Date} (h : d.Proper) (hyear : -400 * shiftCycles < d.year) :
    d.next.dayNumber = d.dayNumber + 1 := by
  have hmonth := h.month_pos
  have hmonth' := h.month_le
  have hday := h.day_pos
  have hday' := h.day_le
  have hfirst := h.dayNumber_eq_first
  unfold Date.next
  split
  next hlt => exact dayNumber_add d.year d.month d.day 1
  next hend =>
    split
    next hlt =>
      have hnext := dayNumber_succ_month hyear hmonth (Nat.le_of_lt_succ hlt)
      show Calendar.dayNumber d.year (d.month + 1) 1 = d.dayNumber + 1
      omega
    next hlast =>
      have hnext := dayNumber_succ_year (Int.le_of_lt hyear)
      have hdecember : d.month = 12 := by omega
      rw [hdecember] at hfirst hend hday'
      show Calendar.dayNumber (d.year + 1) 1 1 = d.dayNumber + 1
      omega

/-- The years of the window lie after the shifted start. -/
theorem lt_year_ofDayNumber {n : Int} (h : -536000000 ≤ n) (h' : n ≤ 536000000) :
    -400 * shiftCycles < (Date.ofDayNumber n).year := by
  have hshift : shiftDays = 536895458 := rfl
  obtain ⟨year, day, hdate, hn, hlt⟩ := exists_ofDayNumber_eq h h'
  have hpos : 0 < year := by
    refine Nat.pos_of_ne_zero ?_
    rintro rfl
    have hfirst : daysBeforeYear (0 + 1) = 365 := rfl
    omega
  rw [hdate, ofMarch]
  dsimp only
  omega

/-- The next day of the count is the next date. A proper date comes back from its day, so it is
enough that the day of the next date is the next day. -/
theorem ofDayNumber_succ {n : Int} (h : -536000000 ≤ n) (h' : n + 1 ≤ 536000000) :
    Date.ofDayNumber (n + 1) = (Date.ofDayNumber n).next := by
  have hshift : shiftDays = 536895458 := rfl
  have hproper := proper_ofDayNumber h (by omega)
  have hyear := lt_year_ofDayNumber h (by omega)
  have hday := hproper.dayNumber_next hyear
  rw [dayNumber_ofDayNumber h (by omega)] at hday
  have hle := (Date.ofDayNumber n).year_le_next
  rw [← hday]
  exact hproper.next.ofDayNumber_dayNumber (by omega) (by omega)

/-- As many days later in the count is as many dates later. -/
theorem ofDayNumber_add {n : Int} (h : -536000000 ≤ n) :
    ∀ {days : Nat}, n + days ≤ 536000000 →
      Date.ofDayNumber (n + days) = Date.next^[days] (Date.ofDayNumber n)
  | 0, _ => by rw [Nat.cast_zero, Int.add_zero, Function.iterate_zero_apply]
  | days + 1, h' => by
      rw [Nat.cast_succ, ← Int.add_assoc] at h' ⊢
      rw [ofDayNumber_succ (by omega) h', ofDayNumber_add h (by omega),
        Function.iterate_succ_apply']

theorem exists_ofDayNumber_eq_next {m n : Int} (hm : -536000000 ≤ m) (hle : m ≤ n)
    (hn : n ≤ 536000000) :
    ∃ days : Nat, n = m + days ∧ Date.ofDayNumber n = Date.next^[days] (Date.ofDayNumber m) := by
  obtain ⟨days, rfl⟩ := Int.le.dest hle
  exact ⟨days, rfl, ofDayNumber_add hm hn⟩

/-! ## Days of the week -/

theorem weekdayNumber_mem (n : Int) : 1 ≤ weekdayNumber n ∧ weekdayNumber n ≤ 7 := by
  unfold weekdayNumber
  omega

theorem weekdayNumber_succ (n : Int) :
    weekdayNumber (n + 1) = if weekdayNumber n = 7 then 1 else weekdayNumber n + 1 := by
  unfold weekdayNumber
  split <;> omega

theorem weekdayNumber_pred (n : Int) :
    weekdayNumber (n - 1) = if weekdayNumber n = 1 then 7 else weekdayNumber n - 1 := by
  unfold weekdayNumber
  split <;> omega

/-- The count of days is the proleptic Gregorian calendar. The months have their lengths; day 0 is
1 January 1970; within 536 000 000 days of it each day has a proper date, which comes out of machine
words as it is, and the date counts back to the day and is followed by the next date; each date of
the years up to 1 465 000 on either side is the date of its day; and the week goes round from the
Thursday of day 0, onward and backward. -/
theorem days_follow_the_calendar :
    (∀ year month, daysInMonth year month = (0 :: monthLengths year).getD month 0) ∧
    Date.ofDayNumber 0 = ⟨1970, 1, 1⟩ ∧
    (∀ n, -536000000 ≤ n → n ≤ 536000000 →
      Date.inWords? n = some (Date.ofDayNumber n) ∧
      (Date.ofDayNumber n).Proper ∧ (Date.ofDayNumber n).dayNumber = n ∧
      (n + 1 ≤ 536000000 → Date.ofDayNumber (n + 1) = (Date.ofDayNumber n).next)) ∧
    (∀ year month day, -1465000 ≤ year → year ≤ 1465000 → 1 ≤ month → month ≤ 12 →
      1 ≤ day → day ≤ daysInMonth year month →
      Date.ofDayNumber (dayNumber year month day) = ⟨year, month, day⟩) ∧
    weekdayNumber 0 = 4 ∧
    ∀ n, 1 ≤ weekdayNumber n ∧ weekdayNumber n ≤ 7 ∧
      weekdayNumber (n + 1) = (if weekdayNumber n = 7 then 1 else weekdayNumber n + 1) ∧
      weekdayNumber (n - 1) = (if weekdayNumber n = 1 then 7 else weekdayNumber n - 1) := by
  refine ⟨daysInMonth_eq_getD, by decide +kernel, fun n h h' => ?_, ?_, by decide, fun n => ?_⟩
  · exact ⟨Date.inWords?_eq h h', proper_ofDayNumber h h', dayNumber_ofDayNumber h h',
      ofDayNumber_succ h⟩
  · intro year month day hfrom hto h1 h12 hpos hle
    have hdate := ofDayNumber_dayNumber (Date.proper_mk h1 h12 hpos hle) hfrom hto
    exact hdate
  · exact ⟨(weekdayNumber_mem n).1, (weekdayNumber_mem n).2, weekdayNumber_succ n,
      weekdayNumber_pred n⟩

/-- The leap day of a year that 400 divides and the day after it, and a date of the first year
of the span. -/
theorem day_after_leap_day :
    Date.ofDayNumber 11016 = ⟨2000, 2, 29⟩ ∧ Date.ofDayNumber 11017 = ⟨2000, 3, 1⟩ ∧
      Date.ofDayNumber (dayNumber (-1465000) 12 31) = ⟨-1465000, 12, 31⟩ ∧
      weekdayNumber 11017 = weekdayNumber 11016 + 1 := by
  obtain ⟨-, -, hdays, hdates, -, hweekdays⟩ := days_follow_the_calendar
  have hleap : Date.ofDayNumber 11016 = ⟨2000, 2, 29⟩ := by decide +kernel
  obtain ⟨-, -, -, hnext⟩ := hdays 11016 (by decide) (by decide)
  obtain ⟨-, -, hweekday, -⟩ := hweekdays 11016
  refine ⟨hleap, ?_, ?_, hweekday⟩
  · rw [show (11017 : Int) = 11016 + 1 from rfl, hnext (by decide), hleap]
    rfl
  · exact hdates _ _ _ (by decide) (by decide) (by decide) (by decide) (by decide) (by decide)

end ZoneHistory.Calendar
