import ZoneHistory.Calendar.Gregorian

/-!
# Days of the week

Weekdays are numbered from Monday, 1, to Sunday, 7. Day 0 of the calendar,
1970-01-01, was a Thursday.
-/

namespace ZoneHistory.Calendar

inductive Weekday where
  | monday
  | tuesday
  | wednesday
  | thursday
  | friday
  | saturday
  | sunday
  deriving DecidableEq, Repr

namespace Weekday

def all : List Weekday :=
  [monday, tuesday, wednesday, thursday, friday, saturday, sunday]

/-- The number of a weekday, from 1 for Monday. -/
def number : Weekday → Nat
  | monday => 1
  | tuesday => 2
  | wednesday => 3
  | thursday => 4
  | friday => 5
  | saturday => 6
  | sunday => 7

def ofNumber? : Nat → Option Weekday
  | 1 => some monday
  | 2 => some tuesday
  | 3 => some wednesday
  | 4 => some thursday
  | 5 => some friday
  | 6 => some saturday
  | 7 => some sunday
  | _ => none

theorem ofNumber?_number (w : Weekday) : ofNumber? w.number = some w := by
  cases w <;> rfl

def name : Weekday → String
  | monday => "Monday"
  | tuesday => "Tuesday"
  | wednesday => "Wednesday"
  | thursday => "Thursday"
  | friday => "Friday"
  | saturday => "Saturday"
  | sunday => "Sunday"

/-- The first three letters of the name. -/
def abbreviation : Weekday → String
  | monday => "Mon"
  | tuesday => "Tue"
  | wednesday => "Wed"
  | thursday => "Thu"
  | friday => "Fri"
  | saturday => "Sat"
  | sunday => "Sun"

/-- The weekday that a text names, in full or in three letters. -/
def ofName? (s : String) : Option Weekday :=
  all.find? fun w => s == w.name || s == w.abbreviation

end Weekday

/-- The number of the weekday of a day. -/
def weekdayNumber (day : Int) : Nat :=
  ((day + 3) % 7).toNat + 1

def weekdayOf (day : Int) : Weekday :=
  match weekdayNumber day with
  | 1 => .monday
  | 2 => .tuesday
  | 3 => .wednesday
  | 4 => .thursday
  | 5 => .friday
  | 6 => .saturday
  | _ => .sunday

theorem number_weekdayOf (day : Int) : (weekdayOf day).number = weekdayNumber day := by
  have h : weekdayNumber day < 8 := by unfold weekdayNumber; omega
  have h0 : 0 < weekdayNumber day := by unfold weekdayNumber; omega
  unfold weekdayOf
  generalize weekdayNumber day = n at h h0
  match n, h0 with
  | 1, _ | 2, _ | 3, _ | 4, _ | 5, _ | 6, _ | 7, _ => rfl

def Date.weekday (d : Date) : Weekday :=
  weekdayOf d.dayNumber

end ZoneHistory.Calendar
