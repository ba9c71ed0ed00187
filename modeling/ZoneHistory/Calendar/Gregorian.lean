/-!
# The proleptic Gregorian calendar

Days are counted from 1970-01-01, which is day 0. `dayNumber` counts the days up
to a date and `Date.ofDayNumber` names the date of a day.

Both work on years that begin in March, so that the leap day is the last day of
its year, and both shift the count by 3670 cycles of 400 years, so that no term
is negative for any year in use. The way back runs in a window of 32 bits: it is
exact for all days within 536 000 000 of day 0, about 1.4 million years on each
side, and takes a day outside that window modulo 2 ^ 32.

The powers of two are 4294967296 = 2 ^ 32, 549755813888 = 2 ^ 39 and 65536 = 2 ^ 16.
-/

namespace ZoneHistory.Calendar

/-! ## Years and months -/

/-- Whether February of the year has 29 days. -/
def isLeapYear (year : Int) : Bool :=
  year % 4 == 0 && (year % 100 != 0 || year % 400 == 0)

/-- The number of days of a month, which is 0 for a number that names no month. -/
def daysInMonth (year : Int) (month : Nat) : Nat :=
  match month with
  | 1 | 3 | 5 | 7 | 8 | 10 | 12 => 31
  | 4 | 6 | 9 | 11 => 30
  | 2 => if isLeapYear year then 29 else 28
  | _ => 0

def firstYear : Int := -271821

def lastYear : Int := 275760

/-! ## Dates -/

/-- A year, a month and a day of the month, each counted from 1 apart from the year. -/
structure Date where
  year : Int
  month : Nat
  day : Nat
  deriving DecidableEq, Repr

/-- The date lies in a year of the supported range and names a day of its month. -/
def Date.Valid (d : Date) : Prop :=
  firstYear ≤ d.year ∧ d.year ≤ lastYear ∧ 1 ≤ d.month ∧ d.month ≤ 12 ∧
    1 ≤ d.day ∧ d.day ≤ daysInMonth d.year d.month

instance (d : Date) : Decidable d.Valid := by
  unfold Date.Valid; infer_instance

/-- Dates in order: by year, then by month, then by day. -/
def Date.compare (a b : Date) : Ordering :=
  (Ord.compare a.year b.year).then ((Ord.compare a.month b.month).then (Ord.compare a.day b.day))

/-! ## Counting days -/

/-- The cycles of 400 years by which the count is shifted. -/
def shiftCycles : Int := 3670

def daysPerCycle : Nat := 146097

/-- The days from 1 March of the year 0, less the shift, to 1970-01-01. -/
def shiftDays : Int := shiftCycles * 146097 + 719468

/-- The days from 1970-01-01 to a date. The formula also gives a number for a month or day
that is out of range: its quotients are then cut off toward zero. -/
def dayNumber (year : Int) (month day : Nat) : Int :=
  let borrow : Int := if month ≤ 2 then 1 else 0
  let marchYear := year + 400 * shiftCycles - borrow
  let marchMonth := (month : Int) + 12 * borrow
  let century := marchYear.tdiv 100
  let daysOfYears := (1461 * marchYear).tdiv 4 - century + century.tdiv 4
  let daysOfMonths := (979 * marchMonth - 2919).tdiv 32
  daysOfYears + daysOfMonths + ((day : Int) - 1) - shiftDays

def Date.dayNumber (d : Date) : Int :=
  Calendar.dayNumber d.year d.month d.day

/-- The date of a day. The quotients by 1461 and by 2141 / 65536 are the number of the year
in its century and of the month in its year. -/
def Date.ofDayNumber (n : Int) : Date :=
  let shifted := ((n + shiftDays) % 4294967296).toNat
  let quarters := 4 * shifted + 3
  let century := quarters / daysPerCycle
  let quartersOfCentury := quarters % daysPerCycle / 4 * 4 + 3
  let yearOfCentury := 376287347 * quartersOfCentury / 549755813888
  let dayOfYear := (quartersOfCentury - 1461 * yearOfCentury) / 4
  let scaled := 2141 * dayOfYear + 197913
  let marchMonth := scaled / 65536
  let carry := if 306 ≤ dayOfYear then 1 else 0
  { year := ((100 * century + yearOfCentury + carry : Nat) : Int) - 400 * shiftCycles
    month := marchMonth - 12 * carry
    day := scaled % 65536 / 2141 + 1 }

end ZoneHistory.Calendar
