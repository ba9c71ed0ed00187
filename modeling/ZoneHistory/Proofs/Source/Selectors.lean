import Mathlib.Order.Bounds.Basic
import ZoneHistory.Proofs.Calendar.Succession
import ZoneHistory.Proofs.Source.Printing

/-!
# The day that a line ends on

A line may end on a day that it names by its weekday. `DaySelector.Selects` says which day is
meant, by comparing days: the last such weekday of a month is the one that is not followed by
another within it, and the others are the least day from a day on and the greatest day up to it.
The remainders by which `Until.dayNumber` finds the day lead to this day and to no other
(`Until.selects_iff`).

The weekday is less than a week away from the day that it is compared with, so its date is reached
from that day's date by fewer than seven steps of the calendar (`Until.Valid.admits`), which may
lead into another month or year. The last weekday of a month stays in it because every month has
four full weeks.
-/

namespace ZoneHistory.Source

open Calendar

/-! ## Days of a month -/

/-- The days of a month in the count. -/
def monthDays (year : Int) (month : Nat) : Set Int :=
  {n | ∃ day, 1 ≤ day ∧ day ≤ daysInMonth year month ∧ n = dayNumber year month day}

theorem dayNumber_from_first (year : Int) (month day : Nat) :
    dayNumber year month 1 + day - 1 = dayNumber year month day := by
  simp only [dayNumber, Nat.cast_one]
  omega

theorem mem_monthDays_iff {year : Int} {month : Nat} {n : Int} :
    n ∈ monthDays year month ↔ dayNumber year month 1 ≤ n ∧
      n ≤ dayNumber year month (daysInMonth year month) := by
  rw [← dayNumber_from_first year month (daysInMonth year month)]
  constructor
  · rintro ⟨day, hpos, hle, rfl⟩
    rw [← dayNumber_from_first year month day]
    omega
  · rintro ⟨hfirst, hlast⟩
    refine ⟨(n - dayNumber year month 1).toNat + 1, by omega, by omega, ?_⟩
    rw [← dayNumber_from_first]
    omega

theorem number_mem_month (m : Month) : 1 ≤ m.number ∧ m.number ≤ 12 := by
  cases m <;> decide

/-! ## Weekdays from a day on and up to a day -/

theorem number_mem_weekday (w : Weekday) : 1 ≤ w.number ∧ w.number ≤ 7 := by
  cases w <;> decide

theorem weekdayNumber_firstFrom (start : Int) (w : Weekday) :
    weekdayNumber (firstFrom start w) = w.number := by
  have := number_mem_weekday w
  unfold firstFrom weekdayNumber
  omega

theorem weekdayNumber_lastUpTo (finish : Int) (w : Weekday) :
    weekdayNumber (lastUpTo finish w) = w.number := by
  have := number_mem_weekday w
  unfold lastUpTo weekdayNumber
  omega

theorem firstFrom_mem (start : Int) (w : Weekday) :
    start ≤ firstFrom start w ∧ firstFrom start w < start + 7 := by
  unfold firstFrom
  omega

theorem lastUpTo_mem (finish : Int) (w : Weekday) :
    finish - 7 < lastUpTo finish w ∧ lastUpTo finish w ≤ finish := by
  unfold lastUpTo
  omega

/-- Days with the same weekday are full weeks apart. -/
theorem add_seven_le_of_weekdayNumber_eq {m n : Int} (hlt : m < n)
    (h : weekdayNumber m = weekdayNumber n) : m + 7 ≤ n := by
  unfold weekdayNumber at h
  omega

theorem isLeast_firstFrom (start : Int) (w : Weekday) :
    IsLeast {n | start ≤ n ∧ weekdayNumber n = w.number} (firstFrom start w) := by
  have hmem := firstFrom_mem start w
  have hweekday := weekdayNumber_firstFrom start w
  refine ⟨⟨hmem.1, hweekday⟩, ?_⟩
  rintro n ⟨hle, hn⟩
  refine Int.not_lt.mp fun hlt => ?_
  have := add_seven_le_of_weekdayNumber_eq hlt (hn.trans hweekday.symm)
  omega

theorem isGreatest_lastUpTo (finish : Int) (w : Weekday) :
    IsGreatest {n | n ≤ finish ∧ weekdayNumber n = w.number} (lastUpTo finish w) := by
  have hmem := lastUpTo_mem finish w
  have hweekday := weekdayNumber_lastUpTo finish w
  refine ⟨⟨hmem.2, hweekday⟩, ?_⟩
  rintro n ⟨hle, hn⟩
  refine Int.not_lt.mp fun hlt => ?_
  have := add_seven_le_of_weekdayNumber_eq hlt (hweekday.trans hn.symm)
  omega

theorem exists_date_firstFrom {d : Date} (hd : d.Valid) (w : Weekday) :
    ∃ days < 7, Date.ofDayNumber (firstFrom d.dayNumber w) = Date.next^[days] d := by
  have hday := hd.dayNumber_mem
  have hmem := firstFrom_mem d.dayNumber w
  obtain ⟨days, hdays, hsteps⟩ := exists_ofDayNumber_eq_next (by omega) hmem.1 (by omega)
  rw [hd.ofDayNumber_dayNumber] at hsteps
  exact ⟨days, by omega, hsteps⟩

theorem exists_date_lastUpTo {d : Date} (hd : d.Valid) (w : Weekday) :
    ∃ days < 7, Date.next^[days] (Date.ofDayNumber (lastUpTo d.dayNumber w)) = d := by
  have hday := hd.dayNumber_mem
  have hmem := lastUpTo_mem d.dayNumber w
  obtain ⟨days, hdays, hsteps⟩ := exists_ofDayNumber_eq_next (by omega) hmem.2 (by omega)
  rw [hd.ofDayNumber_dayNumber] at hsteps
  exact ⟨days, by omega, hsteps.symm⟩

/-! ## The selected day -/

namespace DaySelector

/-- The day is the one that the selector means in a month. -/
def Selects (year : Int) (month : Nat) (n : Int) : DaySelector → Prop
  | last w =>
      n ∈ monthDays year month ∧ weekdayNumber n = w.number ∧ n + 7 ∉ monthDays year month
  | onOrAfter w d => IsLeast {m | dayNumber year month d ≤ m ∧ weekdayNumber m = w.number} n
  | onOrBefore w d => IsGreatest {m | m ≤ dayNumber year month d ∧ weekdayNumber m = w.number} n
  | day d => n = dayNumber year month d

/-- The day that is found, as it is counted from the days of the month by number. -/
def dayIn (year : Int) (month : Nat) : DaySelector → Int
  | last w => lastUpTo (dayNumber year month (daysInMonth year month)) w
  | onOrAfter w d => firstFrom (dayNumber year month d) w
  | onOrBefore w d => lastUpTo (dayNumber year month d) w
  | day d => dayNumber year month d

def weekday? : DaySelector → Option Weekday
  | last w | onOrAfter w _ | onOrBefore w _ => some w
  | day _ => none

theorem Selects.weekdayNumber_eq {year : Int} {month : Nat} {n : Int} {s : DaySelector}
    (h : s.Selects year month n) : ∀ w ∈ s.weekday?, weekdayNumber n = w.number := by
  cases s with
  | last w =>
      rintro _ ⟨⟩
      exact h.2.1
  | onOrAfter w d | onOrBefore w d =>
      rintro _ ⟨⟩
      exact h.1.2
  | day d => exact nofun

section
variable {year : Int} {month : Nat} (h1 : 1 ≤ month) (h12 : month ≤ 12)
include h1 h12

theorem selects_last_iff {w : Weekday} {n : Int} :
    (last w).Selects year month n ↔
      n = lastUpTo (dayNumber year month (daysInMonth year month)) w := by
  have hlength := le_daysInMonth year h1 h12
  have hlast := dayNumber_from_first year month (daysInMonth year month)
  have hmem := lastUpTo_mem (dayNumber year month (daysInMonth year month)) w
  have hgreatest := isGreatest_lastUpTo (dayNumber year month (daysInMonth year month)) w
  simp only [Selects, mem_monthDays_iff]
  constructor
  · rintro ⟨⟨hfirst, hle⟩, hweekday, hend⟩
    -- a week before the greatest such day, the day a week later would still be in the month
    refine Int.le_antisymm (hgreatest.2 ⟨hle, hweekday⟩) (Int.not_lt.mp fun hlt => ?_)
    have := add_seven_le_of_weekdayNumber_eq hlt (hweekday.trans hgreatest.1.2.symm)
    omega
  · rintro rfl
    exact ⟨⟨by omega, hgreatest.1.1⟩, hgreatest.1.2, by omega⟩

theorem selects_iff {s : DaySelector} {n : Int} :
    s.Selects year month n ↔ n = s.dayIn year month := by
  cases s with
  | last w => exact selects_last_iff h1 h12
  | onOrAfter w d =>
      have hleast := isLeast_firstFrom (dayNumber year month d) w
      exact ⟨fun h => h.unique hleast, fun h => h ▸ hleast⟩
  | onOrBefore w d =>
      have hgreatest := isGreatest_lastUpTo (dayNumber year month d) w
      exact ⟨fun h => h.unique hgreatest, fun h => h ▸ hgreatest⟩
  | day d => exact Iff.rfl

end

/-! ## The date of the selected day -/

/-- A date that the selector can lead to: of the month, less than a week after or before the day
that is compared with, or that day itself. -/
def Admits (year : Int) (month : Nat) (date : Date) : DaySelector → Prop
  | last _ => date.year = year ∧ date.month = month
  | onOrAfter _ d => ∃ days < 7, date = Date.next^[days] ⟨year, month, d⟩
  | onOrBefore _ d => ∃ days < 7, Date.next^[days] date = ⟨year, month, d⟩
  | day d => date = ⟨year, month, d⟩

/-- The day of a month of some length that the selected day is looked for from. -/
def origin (length : Nat) : DaySelector → Nat
  | last _ => length
  | onOrAfter _ d | onOrBefore _ d | day d => d

theorem dayIn_near_origin (year : Int) (month : Nat) (s : DaySelector) :
    dayNumber year month (s.origin (daysInMonth year month)) - 7 < s.dayIn year month ∧
      s.dayIn year month < dayNumber year month (s.origin (daysInMonth year month)) + 7 := by
  cases s with
  | last w =>
      have hmem := lastUpTo_mem (dayNumber year month (daysInMonth year month)) w
      simp only [origin, dayIn]
      omega
  | onOrAfter w d =>
      have hmem := firstFrom_mem (dayNumber year month d) w
      simp only [origin, dayIn]
      omega
  | onOrBefore w d =>
      have hmem := lastUpTo_mem (dayNumber year month d) w
      simp only [origin, dayIn]
      omega
  | day d =>
      simp only [origin, dayIn]
      omega

end DaySelector

namespace Until

theorem dayNumber_eq (u : Until) : u.dayNumber = u.day.dayIn u.year u.month.number := by
  obtain ⟨year, month, day, time⟩ := u
  cases day <;> simp only [dayNumber, DaySelector.dayIn, dayNumber_from_first]

theorem selects_iff (u : Until) (n : Int) :
    u.day.Selects u.year u.month.number n ↔ n = u.dayNumber := by
  obtain ⟨h1, h12⟩ := number_mem_month u.month
  rw [dayNumber_eq]
  exact DaySelector.selects_iff h1 h12

section
variable {u : Until} (h : u.Valid)
include h

theorem Valid.date {day : Nat} (hpos : 1 ≤ day) (hle : day ≤ daysInMonth u.year u.month.number) :
    (⟨u.year, u.month.number, day⟩ : Date).Valid :=
  ⟨h.1, h.2.1, (number_mem_month u.month).1, (number_mem_month u.month).2, hpos, hle⟩

theorem Valid.date_origin :
    (⟨u.year, u.month.number, u.day.origin (daysInMonth u.year u.month.number)⟩ : Date).Valid := by
  have hday := h.2.2
  cases hs : u.day with
  | last w =>
      obtain ⟨h1, h12⟩ := number_mem_month u.month
      exact h.date (daysInMonth_pos u.year h1 h12) (Nat.le_refl _)
  | onOrAfter w d | onOrBefore w d | day d =>
      rw [hs] at hday
      exact h.date hday.1 hday.2

/-- The selected day lies well within the days that have dates. -/
theorem Valid.dayNumber_mem : -100000507 ≤ u.dayNumber ∧ u.dayNumber ≤ 100000507 := by
  have horigin := h.date_origin.dayNumber_mem
  have hnear := DaySelector.dayIn_near_origin u.year u.month.number u.day
  simp only [Date.dayNumber] at horigin
  rw [dayNumber_eq]
  omega

theorem Valid.admits : u.day.Admits u.year u.month.number (Date.ofDayNumber u.dayNumber) := by
  have hdate := h.date_origin
  rw [dayNumber_eq]
  cases hs : u.day with
  | last w =>
      -- the day itself is one of the month
      obtain ⟨h1, h12⟩ := number_mem_month u.month
      obtain ⟨⟨day, hpos, hle, heq⟩, -⟩ := (DaySelector.selects_last_iff h1 h12).mpr rfl
      have hday := (h.date hpos hle).ofDayNumber_dayNumber
      rw [Date.dayNumber, ← heq] at hday
      exact ⟨congrArg Date.year hday, congrArg Date.month hday⟩
  | onOrAfter w d =>
      rw [hs] at hdate
      exact exists_date_firstFrom hdate w
  | onOrBefore w d =>
      rw [hs] at hdate
      exact exists_date_lastUpTo hdate w
  | day d =>
      rw [hs] at hdate
      exact hdate.ofDayNumber_dayNumber

/-- Every valid end can be written down. -/
theorem Valid.exists_parse_eq_ok (htime : u.time.amount.WellFormed) (c : Context) :
    ∃ text, (parse text c).1 = .ok u := by
  refine ⟨String.ofList (joined (integerChars u.year :: u.furtherColumns)), ?_⟩
  refine (reads_until _ c u).mpr ⟨h, htime, _, _, ?_, u.columns_chars htime⟩
  rw [String.toList_ofList]
  exact spaced_joined u.isColumn_columns

end

/-- All valid ends can be read, whatever the year, the month and the selector. Every end that is
read falls on the day that its selector means, and on no other. The day has the weekday that the
selector names, and its date is a date that the selector can lead to. -/
theorem selected_day_of_parse (c : Context) :
    (∀ u : Until, u.Valid → u.time.amount.WellFormed → ∃ text, (parse text c).1 = .ok u) ∧
    ∀ text u, (parse text c).1 = .ok u →
      (∀ n, u.day.Selects u.year u.month.number n ↔ n = u.dayNumber) ∧
      (∀ w ∈ u.day.weekday?, weekdayNumber u.dayNumber = w.number) ∧
      (Date.ofDayNumber u.dayNumber).Proper ∧
      (Date.ofDayNumber u.dayNumber).dayNumber = u.dayNumber ∧
      u.day.Admits u.year u.month.number (Date.ofDayNumber u.dayNumber) := by
  refine ⟨fun u h htime => h.exists_parse_eq_ok htime c, fun text u h => ?_⟩
  have hvalid : u.Valid := ((reads_until text c u).mp h).1
  have hmem := hvalid.dayNumber_mem
  refine ⟨u.selects_iff, ?_, ?_, ?_, hvalid.admits⟩
  · exact ((u.selects_iff _).mpr rfl).weekdayNumber_eq
  · exact proper_ofDayNumber (by omega) (by omega)
  · exact dayNumber_ofDayNumber (by omega) (by omega)

/-- The first Saturday on or after the last day of 2023 is in the next year, six days later. -/
theorem first_saturday_from_the_end_of_2023 :
    let u : Until := ⟨2023, .december, .onOrAfter .saturday 31, .midnight⟩
    (parse "2023 Dec Sat>=31" .initial).1 = .ok u ∧
      Date.ofDayNumber u.dayNumber = ⟨2024, 1, 6⟩ ∧
      (∀ n, IsLeast {m | 19722 ≤ m ∧ weekdayNumber m = 6} n ↔ n = 19728) ∧
      weekdayNumber 19728 = 6 ∧ (Date.ofDayNumber u.dayNumber).dayNumber = 19728 ∧
      ∃ days < 7, ⟨2024, 1, 6⟩ = Date.next^[days] ⟨2023, 12, 31⟩ := by
  intro u
  have hparse : (parse "2023 Dec Sat>=31" .initial).1 = .ok u := by decide +kernel
  have hday : u.dayNumber = 19728 := by decide +kernel
  have hdate : Date.ofDayNumber u.dayNumber = ⟨2024, 1, 6⟩ := by decide +kernel
  have hlast : Calendar.dayNumber 2023 12 31 = 19722 := by decide +kernel
  obtain ⟨-, hread⟩ := selected_day_of_parse .initial
  obtain ⟨hselects, hweekday, -, hback, hadmits⟩ := hread _ u hparse
  rw [hdate] at hadmits
  rw [hday] at hselects hweekday hback
  refine ⟨hparse, hdate, fun n => ?_, hweekday .saturday rfl, ?_, hadmits⟩
  · rw [← hlast]
    exact hselects n
  · rw [hday]
    exact hback

end Until

end ZoneHistory.Source
