import Mathlib.Algebra.Order.Group.Nat
import Mathlib.Data.Nat.Basic
import Mathlib.Tactic.IntervalCases
import ZoneHistory.Calendar.Gregorian

/-!
# Counting days there and back

`Date.dayNumber` and `Date.ofDayNumber` undo each other: `dayNumber_ofDayNumber`
for every day within 536 000 000 of day 0, and `ofDayNumber_dayNumber` for every
date whose month and day exist (`Date.Proper`), in any year of that span.

Both pass through a date written as a year that begins in March and a day of that
year, `ofMarch`. Two partitions carry the argument: a day since 1 March of the
shifted year 0 lies in exactly one year (`daysBeforeYear_yearOf`, `yearOf_eq`),
and a day of a year lies in exactly one month (`daysBeforeMonth_marchMonth`,
`marchMonth_eq`).
-/

namespace ZoneHistory.Calendar

theorem isLeapYear_iff {year : Int} :
    isLeapYear year = true ↔ 4 ∣ year ∧ (¬100 ∣ year ∨ 400 ∣ year) := by
  simp only [isLeapYear, Bool.and_eq_true, Bool.or_eq_true, beq_iff_eq, bne_iff_ne]
  omega

/-- Leap years come back every 400 years, so the shift keeps them. -/
theorem isLeapYear_sub_shift (year : Int) :
    isLeapYear (year - 400 * shiftCycles) = isLeapYear year := by
  rw [Bool.eq_iff_iff, isLeapYear_iff, isLeapYear_iff]
  unfold shiftCycles
  omega

theorem daysInMonth_sub_shift (year : Int) (month : Nat) :
    daysInMonth (year - 400 * shiftCycles) month = daysInMonth year month := by
  simp only [daysInMonth, isLeapYear_sub_shift]

theorem daysInMonth_le (year : Int) (month : Nat) : daysInMonth year month ≤ 31 := by
  unfold daysInMonth
  split <;> try decide
  -- February is left
  split <;> decide

/-- The month is one of the twelve and the day one of its days; the year is any. -/
structure Date.Proper (d : Date) : Prop where
  month_pos : 1 ≤ d.month
  month_le : d.month ≤ 12
  day_pos : 1 ≤ d.day
  day_le : d.day ≤ daysInMonth d.year d.month

theorem Date.proper_mk {year : Int} {month day : Nat} (h1 : 1 ≤ month) (h12 : month ≤ 12)
    (hpos : 1 ≤ day) (hle : day ≤ daysInMonth year month) :
    (⟨year, month, day⟩ : Date).Proper :=
  ⟨h1, h12, hpos, hle⟩

theorem Date.Valid.proper {d : Date} (h : d.Valid) : d.Proper :=
  ⟨h.2.2.1, h.2.2.2.1, h.2.2.2.2.1, h.2.2.2.2.2⟩

/-! ## Years that begin in March -/

/-- The days from 1 March of the year 0 to 1 March of a later year. -/
def daysBeforeYear (year : Nat) : Nat :=
  365 * year + year / 4 - year / 100 + year / 400

/-- A year that begins in March ends with the leap day of the next calendar year. -/
theorem daysBeforeYear_succ (year : Nat) :
    daysBeforeYear (year + 1) =
      daysBeforeYear year + if isLeapYear (year + 1) then 366 else 365 := by
  have h4 : 100 ∣ year + 1 → 4 ∣ year + 1 := fun h => Nat.dvd_trans (by decide) h
  have h100 : 400 ∣ year + 1 → 100 ∣ year + 1 := fun h => Nat.dvd_trans (by decide) h
  have hleap : isLeapYear (year + 1) = true ↔
      4 ∣ year + 1 ∧ (¬100 ∣ year + 1 ∨ 400 ∣ year + 1) := by
    rw [isLeapYear_iff]
    omega
  simp only [daysBeforeYear, hleap, Nat.succ_div]
  split <;> split <;> split <;> split <;> omega

theorem daysBeforeYear_mono {a b : Nat} (h : a ≤ b) :
    daysBeforeYear a ≤ daysBeforeYear b := by
  induction h with
  | refl => exact Nat.le_refl _
  | step _ ih =>
      rw [daysBeforeYear_succ]
      omega

theorem daysBeforeYear_century {century year : Nat} (h : year < 100) :
    daysBeforeYear (100 * century + year) =
      36524 * century + century / 4 + (365 * year + year / 4) := by
  have h4 : (100 * century + year) / 4 = 25 * century + year / 4 := by omega
  have h100 : (100 * century + year) / 100 = century := by omega
  have h400 : (100 * century + year) / 400 = century / 4 := by omega
  rw [daysBeforeYear, h4, h100, h400]
  omega

/-! ## The year of a day

A century has 36524 days and a quarter, a year of it 365 and a quarter. The
quotients count quarters of days, three ahead, so that each rounds down to the
right century or year. -/

/-- The century that a day lies in. -/
def centuryOf (day : Nat) : Nat :=
  (4 * day + 3) / daysPerCycle

def dayOfCentury (day : Nat) : Nat :=
  (4 * day + 3) % daysPerCycle / 4

/-- The year that a day of a century lies in. -/
def yearOfCentury (day : Nat) : Nat :=
  (4 * day + 3) / 1461

def dayOfYear (day : Nat) : Nat :=
  (4 * day + 3) % 1461 / 4

def yearOf (day : Nat) : Nat :=
  100 * centuryOf day + yearOfCentury (dayOfCentury day)

theorem dayOfCentury_lt (day : Nat) : dayOfCentury day < 36525 := by
  unfold dayOfCentury daysPerCycle
  omega

theorem yearOfCentury_lt {day : Nat} (h : day < 36525) : yearOfCentury day < 100 := by
  unfold yearOfCentury
  omega

/-- The division by 1461 as a product and a shift. -/
theorem yearOfCentury_eq_shifted {day : Nat} (h : day < 36525) :
    yearOfCentury day = 376287347 * (4 * day + 3) / 549755813888 := by
  unfold yearOfCentury
  omega

theorem eq_centuryOf (day : Nat) :
    day = 36524 * centuryOf day + centuryOf day / 4 + dayOfCentury day := by
  unfold centuryOf dayOfCentury daysPerCycle
  omega

theorem eq_yearOfCentury (day : Nat) :
    day = 365 * yearOfCentury day + yearOfCentury day / 4 + dayOfYear day := by
  unfold yearOfCentury dayOfYear
  omega

/-- Only a century whose last year is a leap year has 36525 days. -/
theorem dayOfCentury_le (day : Nat) :
    dayOfCentury day + centuryOf day / 4 < 36524 + (centuryOf day + 1) / 4 := by
  unfold dayOfCentury centuryOf daysPerCycle
  -- the quarter day that a century leaves over adds up to a day in every fourth one
  rcases show (4 * day + 3) / 146097 % 4 = 0 ∨ (4 * day + 3) / 146097 % 4 = 1 ∨
      (4 * day + 3) / 146097 % 4 = 2 ∨ (4 * day + 3) / 146097 % 4 = 3 by omega
    with h | h | h | h
  · omega
  · omega
  · omega
  · omega

theorem lt_yearOfCentury_succ (day : Nat) :
    day < 365 * (yearOfCentury day + 1) + (yearOfCentury day + 1) / 4 := by
  unfold yearOfCentury
  omega

theorem daysBeforeYear_yearOf (day : Nat) :
    daysBeforeYear (yearOf day) + dayOfYear (dayOfCentury day) = day := by
  have hcentury := eq_centuryOf day
  have hyear := eq_yearOfCentury (dayOfCentury day)
  rw [yearOf, daysBeforeYear_century (yearOfCentury_lt (dayOfCentury_lt day))]
  omega

theorem lt_daysBeforeYear_yearOf_succ (day : Nat) :
    day < daysBeforeYear (yearOf day + 1) := by
  have hday := eq_centuryOf day
  have hlt := yearOfCentury_lt (dayOfCentury_lt day)
  rcases Nat.lt_or_ge (yearOfCentury (dayOfCentury day) + 1) 100 with h | h
  · have hnext := lt_yearOfCentury_succ (dayOfCentury day)
    rw [yearOf, Nat.add_assoc, daysBeforeYear_century h]
    omega
  · -- the last year of a century is followed by the first of the next
    have hsum : yearOf day + 1 = 100 * (centuryOf day + 1) + 0 := by
      unfold yearOf
      omega
    have hle := dayOfCentury_le day
    rw [hsum, daysBeforeYear_century (by decide)]
    omega

theorem yearOf_eq {year day : Nat} (h : daysBeforeYear year ≤ day)
    (h' : day < daysBeforeYear (year + 1)) : yearOf day = year := by
  have hfrom := daysBeforeYear_yearOf day
  have hto := lt_daysBeforeYear_yearOf_succ day
  rcases Nat.lt_trichotomy (yearOf day) year with hlt | heq | hgt
  · have := daysBeforeYear_mono (show yearOf day + 1 ≤ year from hlt)
    omega
  · exact heq
  · have := daysBeforeYear_mono (show year + 1 ≤ yearOf day from hgt)
    omega

/-! ## Months -/

/-- The days from 1 March to the first of a month, counted on from 3 for March to
14 for the February that ends the year. -/
def daysBeforeMonth (month : Nat) : Nat :=
  (979 * month - 2919) / 32

/-- The month, from 3 to 14, that a day of the year lies in. -/
def marchMonth (day : Nat) : Nat :=
  (2141 * day + 197913) / 65536

def dayOfMonth (day : Nat) : Nat :=
  (2141 * day + 197913) % 65536 / 2141

theorem marchMonth_mem {day : Nat} (h : day < 366) :
    3 ≤ marchMonth day ∧ marchMonth day ≤ 14 := by
  unfold marchMonth
  omega

theorem daysBeforeMonth_marchMonth {day : Nat} (h : day < 366) :
    daysBeforeMonth (marchMonth day) + dayOfMonth day = day := by
  obtain ⟨h3, h14⟩ := marchMonth_mem h
  unfold dayOfMonth daysBeforeMonth
  interval_cases hmonth : marchMonth day <;> (unfold marchMonth at hmonth; omega)

theorem marchMonth_eq {month day : Nat} (h3 : 3 ≤ month) (h14 : month ≤ 14)
    (h : daysBeforeMonth month ≤ day) (h' : day < daysBeforeMonth (month + 1)) :
    marchMonth day = month := by
  unfold daysBeforeMonth at h h'
  unfold marchMonth
  interval_cases month <;> omega

theorem lt_daysBeforeMonth_succ {day : Nat} (h : day < 366) :
    day < daysBeforeMonth (marchMonth day + 1) := by
  obtain ⟨h3, h14⟩ := marchMonth_mem h
  unfold daysBeforeMonth
  interval_cases hmonth : marchMonth day <;> (unfold marchMonth at hmonth; omega)

/-- The months up to January fill the space between their first days. -/
theorem daysBeforeMonth_succ {month : Nat} (h3 : 3 ≤ month) (h13 : month ≤ 13) (year : Int) :
    daysBeforeMonth (month + 1) =
      daysBeforeMonth month + daysInMonth year (if 13 ≤ month then month - 12 else month) := by
  interval_cases month <;> rfl

theorem daysBeforeYear_succ_february (year : Nat) :
    daysBeforeYear (year + 1) =
      daysBeforeYear year + daysBeforeMonth 14 + daysInMonth (year + 1) 2 := by
  rw [daysBeforeYear_succ, daysInMonth, show daysBeforeMonth 14 = 337 from rfl]
  split <;> omega

/-! ## Dates from March on -/

/-- The date of a day of a year that begins in March, both counted from the shifted
start. -/
def ofMarch (year day : Nat) : Date :=
  let carry := if 306 ≤ day then 1 else 0
  { year := ((year + carry : Nat) : Int) - 400 * shiftCycles
    month := marchMonth day - 12 * carry
    day := dayOfMonth day + 1 }

theorem le_marchMonth_iff {day : Nat} (h : day < 366) :
    13 ≤ marchMonth day ↔ 306 ≤ day := by
  unfold marchMonth
  omega

theorem ofMarch_of_lt {year day : Nat} (h : day < 306) :
    ofMarch year day =
      ⟨year - 400 * shiftCycles, marchMonth day, dayOfMonth day + 1⟩ := by
  simp only [ofMarch, if_neg (Nat.not_le_of_lt h)]
  rfl

theorem ofMarch_of_le {year day : Nat} (h : 306 ≤ day) :
    ofMarch year day =
      ⟨year + 1 - 400 * shiftCycles, marchMonth day - 12, dayOfMonth day + 1⟩ := by
  simp only [ofMarch, if_pos h]
  rfl

theorem ofDayNumber_eq (n : Int) :
    Date.ofDayNumber n =
      ofMarch (yearOf ((n + shiftDays) % 4294967296).toNat)
        (dayOfYear (dayOfCentury ((n + shiftDays) % 4294967296).toNat)) := by
  generalize hday : ((n + shiftDays) % 4294967296).toNat = day
  have hquarters : (4 * day + 3) % daysPerCycle / 4 * 4 + 3 = 4 * dayOfCentury day + 3 := by
    unfold dayOfCentury
    omega
  have hyear := yearOfCentury_eq_shifted (dayOfCentury_lt day)
  have hrest : (4 * dayOfCentury day + 3 - 1461 * yearOfCentury (dayOfCentury day)) / 4 =
      dayOfYear (dayOfCentury day) := by
    unfold yearOfCentury dayOfYear
    omega
  simp only [Date.ofDayNumber, hday, hquarters, ← hyear, hrest]
  rfl

/-- For a year from the shifted start on, the quotients of `dayNumber` round down. -/
theorem tdiv_sum_eq (year : Nat) {month : Nat} (h3 : 3 ≤ month) :
    (1461 * (year : Int)).tdiv 4 - (year : Int).tdiv 100 + ((year : Int).tdiv 100).tdiv 4 +
        (979 * (month : Int) - 2919).tdiv 32 =
      daysBeforeYear year + daysBeforeMonth month := by
  rw [Int.tdiv_eq_ediv_of_nonneg (by omega), Int.tdiv_eq_ediv_of_nonneg (by omega),
    Int.tdiv_eq_ediv_of_nonneg (by omega), Int.tdiv_eq_ediv_of_nonneg (by omega)]
  have hcentury : (year : Int) / 100 / 4 = year / 400 := by omega
  have hquarter : 1461 * (year : Int) / 4 = 365 * year + year / 4 := by omega
  have hmonths : (979 * (month : Int) - 2919) / 32 = daysBeforeMonth month := by
    unfold daysBeforeMonth
    omega
  have hyears : (daysBeforeYear year : Int) =
      365 * year + year / 4 - year / 100 + year / 400 := by
    unfold daysBeforeYear
    omega
  rw [hcentury, hquarter, hmonths, hyears]

theorem dayNumber_of_lt {year month : Nat} (h : 2 < month) (day : Nat) :
    dayNumber (year - 400 * shiftCycles) month day =
      daysBeforeYear year + daysBeforeMonth month + ((day : Int) - 1) - shiftDays := by
  have hyear : (year : Int) - 400 * shiftCycles + 400 * shiftCycles - 0 = year := by omega
  have hmonth : (month : Int) + 12 * 0 = month := by omega
  simp only [dayNumber, if_neg (Nat.not_le_of_lt h), hyear, hmonth]
  rw [tdiv_sum_eq year h]

theorem dayNumber_of_le {year month : Nat} (h1 : 1 ≤ month) (h : month ≤ 2) (day : Nat) :
    dayNumber (year + 1 - 400 * shiftCycles) month day =
      daysBeforeYear year + daysBeforeMonth (month + 12) + ((day : Int) - 1) - shiftDays := by
  have hyear : (year : Int) + 1 - 400 * shiftCycles + 400 * shiftCycles - 1 = year := by omega
  have hmonth : (month : Int) + 12 * 1 = (month + 12 : Nat) := by omega
  simp only [dayNumber, if_pos h, hyear, hmonth]
  rw [tdiv_sum_eq year (show 3 ≤ month + 12 by omega)]

theorem dayNumber_ofMarch {year day : Nat} (h : day < 366) :
    (ofMarch year day).dayNumber = daysBeforeYear year + day - shiftDays := by
  have hmonth := marchMonth_mem h
  have hcarry := le_marchMonth_iff h
  have hday := daysBeforeMonth_marchMonth h
  rcases Nat.lt_or_ge day 306 with hlt | hge
  · simp only [ofMarch_of_lt hlt, Date.dayNumber]
    rw [dayNumber_of_lt hmonth.1]
    omega
  · have h13 := hcarry.mpr hge
    simp only [ofMarch_of_le hge, Date.dayNumber]
    rw [dayNumber_of_le (by omega) (by omega), Nat.sub_add_cancel (by omega)]
    omega

theorem lt_366_of_lt_succ {year day : Nat}
    (h : daysBeforeYear year + day < daysBeforeYear (year + 1)) : day < 366 := by
  rw [daysBeforeYear_succ] at h
  split at h <;> omega

theorem proper_ofMarch {year day : Nat}
    (h : daysBeforeYear year + day < daysBeforeYear (year + 1)) :
    (ofMarch year day).Proper := by
  have h366 := lt_366_of_lt_succ h
  obtain ⟨h3, h14⟩ := marchMonth_mem h366
  have hcarry := le_marchMonth_iff h366
  have hday := daysBeforeMonth_marchMonth h366
  have hnext := lt_daysBeforeMonth_succ h366
  rcases Nat.lt_or_ge day 306 with hlt | hge
  · have h12 : ¬13 ≤ marchMonth day := mt hcarry.mp (Nat.not_le_of_lt hlt)
    have hlength := daysBeforeMonth_succ h3 (by omega) (year - 400 * shiftCycles)
    rw [if_neg h12] at hlength
    rw [ofMarch_of_lt hlt]
    exact Date.proper_mk (by omega) (by omega) (by omega) (by omega)
  · have h13 := hcarry.mpr hge
    rw [ofMarch_of_le hge]
    refine Date.proper_mk (by omega) (by omega) (by omega) ?_
    rw [daysInMonth_sub_shift]
    rcases show marchMonth day = 13 ∨ marchMonth day = 14 by omega with heq | heq
    · have hlength := daysBeforeMonth_succ h3 (by omega) (year + 1)
      rw [if_pos h13] at hlength
      omega
    · have hlength := daysBeforeYear_succ_february year
      rw [heq] at hday
      rw [show marchMonth day - 12 = 2 by omega]
      omega

theorem exists_ofMarch_of_lt {year month monthDay : Nat} (hlt : 2 < month) (h12 : month ≤ 12)
    (hpos : 1 ≤ monthDay) (hle : monthDay ≤ daysInMonth (year - 400 * shiftCycles) month) :
    ∃ day, (⟨year - 400 * shiftCycles, month, monthDay⟩ : Date) = ofMarch year day ∧
      daysBeforeYear year + day < daysBeforeYear (year + 1) := by
  have hlength := daysBeforeMonth_succ hlt (by omega) (year - 400 * shiftCycles)
  rw [if_neg (by omega)] at hlength
  have hearly : daysBeforeMonth (month + 1) ≤ 306 := by
    unfold daysBeforeMonth
    omega
  obtain ⟨day, hday⟩ : ∃ day, day = daysBeforeMonth month + (monthDay - 1) := ⟨_, rfl⟩
  have hmonth : marchMonth day = month :=
    marchMonth_eq hlt (by omega) (by omega) (by omega)
  have hparts := daysBeforeMonth_marchMonth (show day < 366 by omega)
  rw [hmonth] at hparts
  refine ⟨day, ?_, ?_⟩
  · rw [ofMarch_of_lt (by omega), hmonth, show dayOfMonth day + 1 = monthDay by omega]
  · rw [daysBeforeYear_succ]
    split <;> omega

theorem lt_daysBeforeYear_succ_of_le {year month monthDay : Nat} (h1 : 1 ≤ month)
    (h2 : month ≤ 2) (hpos : 1 ≤ monthDay) (hle : monthDay ≤ daysInMonth (year + 1) month) :
    daysBeforeMonth (month + 12) + (monthDay - 1) < daysBeforeMonth (month + 12 + 1) ∧
      daysBeforeYear year + (daysBeforeMonth (month + 12) + (monthDay - 1)) <
        daysBeforeYear (year + 1) := by
  have h13 : daysBeforeMonth 13 = 306 := rfl
  have h14 : daysBeforeMonth 14 = 337 := rfl
  have h15 : daysBeforeMonth 15 = 367 := rfl
  have hfebruary := daysBeforeYear_succ_february year
  have hend := daysBeforeYear_succ year
  rcases show month = 1 ∨ month = 2 by omega with rfl | rfl
  · rw [show daysInMonth (year + 1) 1 = 31 from rfl] at hle
    simp only [Nat.reduceAdd]
    split at hend <;> omega
  · simp only [Nat.reduceAdd]
    split at hend <;> omega

theorem exists_ofMarch_of_le {year month monthDay : Nat} (h1 : 1 ≤ month) (h2 : month ≤ 2)
    (hpos : 1 ≤ monthDay) (hle : monthDay ≤ daysInMonth (year + 1) month) :
    ∃ day, (⟨year + 1 - 400 * shiftCycles, month, monthDay⟩ : Date) = ofMarch year day ∧
      daysBeforeYear year + day < daysBeforeYear (year + 1) := by
  obtain ⟨hmonthEnd, hyearEnd⟩ := lt_daysBeforeYear_succ_of_le h1 h2 hpos hle
  obtain ⟨day, hday⟩ : ∃ day, day = daysBeforeMonth (month + 12) + (monthDay - 1) := ⟨_, rfl⟩
  rw [← hday] at hmonthEnd hyearEnd
  have hfrom : 306 ≤ daysBeforeMonth (month + 12) := by
    unfold daysBeforeMonth
    omega
  have hmonth : marchMonth day = month + 12 :=
    marchMonth_eq (by omega) (by omega) (by omega) hmonthEnd
  have hparts := daysBeforeMonth_marchMonth (lt_366_of_lt_succ hyearEnd)
  rw [hmonth] at hparts
  refine ⟨day, ?_, hyearEnd⟩
  rw [ofMarch_of_le (by omega), hmonth, show dayOfMonth day + 1 = monthDay by omega,
    Nat.add_sub_cancel]

/-- Every proper date from March of the shifted start on is a day before the end of its
year. -/
theorem Date.Proper.exists_eq_ofMarch {d : Date} (h : d.Proper)
    (hyear : -400 * shiftCycles < d.year) :
    ∃ year day : Nat, d = ofMarch year day ∧
      d.year + 400 * shiftCycles - 1 ≤ year ∧ (year : Int) ≤ d.year + 400 * shiftCycles ∧
      daysBeforeYear year + day < daysBeforeYear (year + 1) := by
  obtain ⟨calendarYear, month, monthDay⟩ := d
  obtain ⟨h1, h12, hpos, hle⟩ := h
  simp only at h1 h12 hpos hle hyear ⊢
  rcases Nat.lt_or_ge 2 month with hlt | hge
  · obtain ⟨year, rfl⟩ : ∃ year : Nat, calendarYear = year - 400 * shiftCycles :=
      ⟨(calendarYear + 400 * shiftCycles).toNat, by omega⟩
    obtain ⟨day, heq, hend⟩ := exists_ofMarch_of_lt hlt h12 hpos hle
    exact ⟨year, day, heq, by omega, by omega, hend⟩
  · obtain ⟨year, rfl⟩ : ∃ year : Nat, calendarYear = year + 1 - 400 * shiftCycles :=
      ⟨(calendarYear + 400 * shiftCycles - 1).toNat, by omega⟩
    rw [daysInMonth_sub_shift] at hle
    obtain ⟨day, heq, hend⟩ := exists_ofMarch_of_le h1 hge hpos hle
    exact ⟨year, day, heq, by omega, by omega, hend⟩

/-! ## There and back -/

/-- The day of a count and the date of the day, as long as the count fits its window. -/
theorem ofDayNumber_sub_shift {year day : Nat}
    (h : daysBeforeYear year + day < daysBeforeYear (year + 1))
    (hwindow : daysBeforeYear year + day < 4294967296) :
    Date.ofDayNumber (daysBeforeYear year + day - shiftDays) = ofMarch year day := by
  have hcount : ((daysBeforeYear year + day - shiftDays + shiftDays : Int) % 4294967296).toNat =
      daysBeforeYear year + day := by omega
  have hyear := yearOf_eq (Nat.le_add_right (daysBeforeYear year) day) h
  have hday := daysBeforeYear_yearOf (daysBeforeYear year + day)
  rw [hyear] at hday
  rw [ofDayNumber_eq, hcount, hyear, show dayOfYear _ = day by omega]

theorem exists_ofDayNumber_eq {n : Int} (h : -536000000 ≤ n) (h' : n ≤ 536000000) :
    ∃ year day : Nat, Date.ofDayNumber n = ofMarch year day ∧
      n = daysBeforeYear year + day - shiftDays ∧
      daysBeforeYear year + day < daysBeforeYear (year + 1) := by
  have hshift : shiftDays = 536895458 := rfl
  obtain ⟨count, rfl⟩ : ∃ count : Nat, n = count - shiftDays :=
    ⟨(n + shiftDays).toNat, by omega⟩
  have hcount := daysBeforeYear_yearOf count
  have hlt := lt_daysBeforeYear_yearOf_succ count
  refine ⟨yearOf count, dayOfYear (dayOfCentury count), ?_, by omega, by omega⟩
  rw [← ofDayNumber_sub_shift (by omega) (by omega)]
  congr 1
  omega

theorem dayNumber_ofDayNumber {n : Int} (h : -536000000 ≤ n) (h' : n ≤ 536000000) :
    (Date.ofDayNumber n).dayNumber = n := by
  obtain ⟨year, day, hdate, hn, hlt⟩ := exists_ofDayNumber_eq h h'
  rw [hdate, dayNumber_ofMarch (lt_366_of_lt_succ hlt), hn]

theorem proper_ofDayNumber {n : Int} (h : -536000000 ≤ n) (h' : n ≤ 536000000) :
    (Date.ofDayNumber n).Proper := by
  obtain ⟨year, day, hdate, -, hlt⟩ := exists_ofDayNumber_eq h h'
  rw [hdate]
  exact proper_ofMarch hlt

/-- A proper date comes back from its day as long as the count fits its window. -/
theorem Date.Proper.ofDayNumber_dayNumber {d : Date} (hd : d.Proper)
    (hyear : -400 * shiftCycles < d.year) (hwindow : d.dayNumber + shiftDays < 4294967296) :
    Date.ofDayNumber d.dayNumber = d := by
  obtain ⟨year, day, rfl, -, -, hlt⟩ := hd.exists_eq_ofMarch hyear
  rw [dayNumber_ofMarch (lt_366_of_lt_succ hlt)] at hwindow ⊢
  exact ofDayNumber_sub_shift hlt (by omega)

theorem ofDayNumber_dayNumber {d : Date} (hd : d.Proper) (h : -1465000 ≤ d.year)
    (h' : d.year ≤ 1465000) : Date.ofDayNumber d.dayNumber = d := by
  have hshift : shiftCycles = 3670 := rfl
  have hfrom : -400 * shiftCycles < d.year := by omega
  refine hd.ofDayNumber_dayNumber hfrom ?_
  obtain ⟨year, day, rfl, -, hyear, hlt⟩ := hd.exists_eq_ofMarch hfrom
  have hwindow : daysBeforeYear (year + 1) ≤ daysBeforeYear 2933001 :=
    daysBeforeYear_mono (by omega)
  have hmax : daysBeforeYear 2933001 < 4294967296 := by decide
  rw [dayNumber_ofMarch (lt_366_of_lt_succ hlt)]
  omega

theorem Date.Valid.ofDayNumber_dayNumber {d : Date} (h : d.Valid) :
    Date.ofDayNumber d.dayNumber = d := by
  have hfirst : -271821 ≤ d.year := h.1
  have hlast : d.year ≤ 275760 := h.2.1
  exact Calendar.ofDayNumber_dayNumber h.proper (by omega) (by omega)

/-- The years that dates may have span a little more than 200 000 000 days. -/
theorem Date.Valid.dayNumber_mem {d : Date} (h : d.Valid) :
    -100000500 ≤ d.dayNumber ∧ d.dayNumber ≤ 100000500 := by
  have hfirst : firstYear = -271821 := rfl
  have hlast : lastYear = 275760 := rfl
  have hshift : shiftCycles = 3670 := rfl
  have hdays : shiftDays = 536895458 := rfl
  obtain ⟨hfrom, hto, -⟩ := id h
  obtain ⟨year, day, rfl, hge, hle, hlt⟩ := h.proper.exists_eq_ofMarch (by omega)
  have hleast : daysBeforeYear 1196178 ≤ daysBeforeYear year := daysBeforeYear_mono (by omega)
  have hmost : daysBeforeYear (year + 1) ≤ daysBeforeYear 1743761 :=
    daysBeforeYear_mono (by omega)
  have h1196178 : daysBeforeYear 1196178 = 436895043 := by decide
  have h1743761 : daysBeforeYear 1743761 = 636895627 := by decide
  rw [dayNumber_ofMarch (lt_366_of_lt_succ hlt)]
  omega

/-- The first and the last of the supported years are not over on the days 50 days outside those of
valid instants. -/
theorem valid_ofDayNumber {n : Int} (h : -100000050 ≤ n) (h' : n ≤ 100000050) :
    (Date.ofDayNumber n).Valid := by
  have hdays : shiftDays = 536895458 := rfl
  obtain ⟨year, day, hdate, hn, hlt⟩ := exists_ofDayNumber_eq (n := n) (by omega) (by omega)
  have hproper := proper_ofDayNumber (n := n) (by omega) (by omega)
  have h1196179 : daysBeforeYear 1196179 = 436895408 := by decide
  have h1743760 : daysBeforeYear 1743760 = 636895262 := by decide
  have h1743761 : daysBeforeYear 1743761 = 636895627 := by decide
  have hfrom : 1196179 ≤ year := by
    refine Nat.not_lt.mp fun hless => ?_
    have := daysBeforeYear_mono (show year + 1 ≤ 1196179 from hless)
    omega
  have hto : year ≤ 1743760 := by
    refine Nat.not_lt.mp fun hmore => ?_
    have := daysBeforeYear_mono (show 1743761 ≤ year from hmore)
    omega
  -- the last year ends with its December, before the carry of January
  have hlast : year = 1743760 → day < 306 := by
    rintro rfl
    omega
  have hyear : firstYear ≤ (Date.ofDayNumber n).year ∧ (Date.ofDayNumber n).year ≤ lastYear := by
    rw [hdate]
    unfold firstYear lastYear
    rcases Nat.lt_or_ge day 306 with hlt | hge
    · rw [ofMarch_of_lt hlt]
      unfold shiftCycles
      dsimp only
      omega
    · rw [ofMarch_of_le hge]
      unfold shiftCycles
      dsimp only
      omega
  exact ⟨hyear.1, hyear.2, hproper.month_pos, hproper.month_le, hproper.day_pos, hproper.day_le⟩

end ZoneHistory.Calendar
