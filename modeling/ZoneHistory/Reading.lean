import ZoneHistory.Calendar.Weekday
import ZoneHistory.Instant

/-!
# Wall clock readings

A `Reading` is a date and a time of day, with no zone attached: what a wall clock
shows, or the UTC fields of an instant. `Reading.wallMs` counts its milliseconds
as if it were UTC, and `Reading.ofWallMs` goes back.

`Date.make`, `TimeOfDay.make` and `Reading.make` check their fields in order and
name the first that is out of range.
-/

namespace ZoneHistory

open Calendar

/-! ## Fields out of range -/

/-- Why fields do not make a date, a time or an offset. -/
inductive FieldError where
  | year
  | month
  | day
  | time
  | weekday (date : Date) (actual claimed : Weekday)
  | offset
  deriving DecidableEq, Repr

/-- A date as `YYYY-MM-DD`; a year outside 0 to 9999 is written with its sign and six digits. -/
def dateText (d : Date) : String :=
  let year :=
    if 0 ≤ d.year ∧ d.year ≤ 9999 then Text.padded 4 d.year.natAbs
    else (if d.year < 0 then "-" else "+") ++ Text.padded 6 d.year.natAbs
  year ++ "-" ++ Text.padded 2 d.month ++ "-" ++ Text.padded 2 d.day

def FieldError.message : FieldError → String
  | .year => "Year is out of the supported range."
  | .month => "Month must be in 1..=12."
  | .day => "Day is not valid for the provided month."
  | .time => "IsoTime is not valid"
  | .weekday date actual claimed =>
    dateText date ++ " is a " ++ actual.abbreviation ++ ", not a " ++ claimed.abbreviation ++ "."
  | .offset => "Offset must be within 24 hours of UTC."

/-- The date with the given fields: the year is checked first, then the month, then the day. -/
def Calendar.Date.make (year : Int) (month day : Nat) : Except FieldError Date :=
  if ¬(firstYear ≤ year ∧ year ≤ lastYear) then .error .year
  else if ¬(1 ≤ month ∧ month ≤ 12) then .error .month
  else if ¬(1 ≤ day ∧ day ≤ daysInMonth year month) then .error .day
  else .ok ⟨year, month, day⟩

def TimeOfDay.make (hour minute second millisecond : Nat) : Except FieldError TimeOfDay :=
  let t : TimeOfDay := ⟨hour, minute, second, millisecond⟩
  if t.Valid then .ok t else .error .time

/-! ## Readings -/

/-- What a wall clock with a calendar shows. -/
structure Reading where
  date : Date
  time : TimeOfDay
  deriving DecidableEq, Repr

namespace Reading

def Valid (r : Reading) : Prop :=
  r.date.Valid ∧ r.time.Valid

instance (r : Reading) : Decidable r.Valid := by
  unfold Valid; infer_instance

def make (year : Int) (month day hour minute second millisecond : Nat) :
    Except FieldError Reading := do
  let date ← Date.make year month day
  let time ← TimeOfDay.make hour minute second millisecond
  return ⟨date, time⟩

/-- Readings in order: by date, then by time. -/
def compare (a b : Reading) : Ordering :=
  (a.date.compare b.date).then (a.time.compare b.time)

def weekday (r : Reading) : Weekday :=
  r.date.weekday

/-- The reading itself if its weekday is the claimed one. -/
def withWeekday (r : Reading) (claimed : Weekday) : Except FieldError Reading :=
  if r.weekday = claimed then .ok r else .error (.weekday r.date r.weekday claimed)

/-- The milliseconds from 1970-01-01T00:00 to the reading, on the wall clock. -/
def wallMs (r : Reading) : Int :=
  r.date.dayNumber * msPerDay + r.time.msOfDay

/-- The reading at a number of milliseconds from 1970-01-01T00:00 on the wall clock. -/
def ofWallMs (ms : Int) : Reading :=
  ⟨Date.ofDayNumber (splitDays ms).1, TimeOfDay.ofMsOfDay (splitDays ms).2⟩

/-- What a clock at a fixed offset shows at an instant. -/
def ofInstant (t : Instant) (o : Offset) : Reading :=
  ofWallMs (t.wallMs o)

def ofInstantUtc (t : Instant) : Reading :=
  ofWallMs t.ms

/-- The instant at which a clock on UTC shows the reading. -/
def toInstantUtc (r : Reading) : Instant :=
  ⟨r.wallMs⟩

/-- The reading with its weekday, such as `Sat 1949-12-31T20:00:00`. -/
def text (r : Reading) : String :=
  r.weekday.abbreviation ++ " " ++ dateText r.date ++ "T" ++ r.time.text

end Reading

end ZoneHistory
