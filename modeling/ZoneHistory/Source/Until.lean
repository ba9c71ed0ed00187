import ZoneHistory.Calendar.Month
import ZoneHistory.Calendar.Weekday
import ZoneHistory.Source.Amount

/-!
# When a line ends

The last columns of a line say until when it is in effect: a year, and then if
needed a month, a day and a time. The day may be chosen by its weekday, which can
lead out of the month. The time is on the wall clock, or in standard time, or in
UTC, as its last letter says.
-/

namespace ZoneHistory.Source

open Calendar

/-! ## Days -/

/-- A day of a month, by number or by weekday. -/
inductive DaySelector where
  /-- The last such weekday of the month. -/
  | last (weekday : Weekday)
  /-- The first such weekday on or after a day. -/
  | onOrAfter (weekday : Weekday) (day : Nat)
  /-- The last such weekday on or before a day. -/
  | onOrBefore (weekday : Weekday) (day : Nat)
  /-- A day. -/
  | day (day : Nat)
  deriving DecidableEq, Repr

/-- The first day from `start` on with a weekday. -/
def firstFrom (start : Int) (w : Weekday) : Int :=
  start + ((w.number : Int) - weekdayNumber start) % 7

/-- The last day up to `finish` with a weekday. -/
def lastUpTo (finish : Int) (w : Weekday) : Int :=
  finish - ((weekdayNumber finish : Int) - w.number) % 7

/-- The weekday that a column names; Tuesday and Thursday have two abbreviations. -/
def weekdayOf? (s : String) : Option Weekday :=
  if s = "Tues" then some .tuesday
  else if s = "Thurs" then some .thursday
  else Weekday.all.find? (·.abbreviation = s)

def parseWeekday (s : String) : Parse Weekday :=
  match weekdayOf? s with
  | some w => return w
  | none => Parse.unknownValue s

def parseMonth (s : String) : Parse Month :=
  .labelled "Month" <|
    match Month.ofAbbreviation? s with
    | some m => return m
    | none => Parse.unknownValue s

/-- Reads a weekday and a day on the two sides of a comparison. -/
def parseComparison (weekdayText dayText : String) : Parse (Weekday × Nat) := do
  let w ← parseWeekday weekdayText
  let d ← Parse.integer .unsigned8 dayText
  return (w, d.toNat)

def DaySelector.parse (s : String) : Parse DaySelector :=
  .labelled "DayOfMonth" <|
    match Text.after? "last" s with
    | some weekdayText => do return .last (← parseWeekday weekdayText)
    | none =>
      match Text.splitOnce? ">=" s with
      | some (weekdayText, dayText) => do
        let (w, d) ← parseComparison weekdayText dayText
        return .onOrAfter w d
      | none =>
        match Text.splitOnce? "<=" s with
        | some (weekdayText, dayText) => do
          let (w, d) ← parseComparison weekdayText dayText
          return .onOrBefore w d
        | none => do return .day (← Parse.integer .unsigned8 s).toNat

/-! ## Times -/

inductive Clock where
  | wall
  | standard
  | universal
  deriving DecidableEq, Repr

/-- A time on one of three clocks, counted from midnight; it may lie outside the day. -/
structure ClockTime where
  clock : Clock
  amount : Amount
  deriving DecidableEq, Repr

namespace ClockTime

def midnight : ClockTime := ⟨.wall, .zero⟩

/-- What the clock is ahead of UTC. -/
def Clock.ahead (standard : Offset) (saving : Option Offset) : Clock → Offset
  | .wall => standard + saving.getD .zero
  | .standard => standard
  | .universal => .zero

/-- The time in milliseconds from midnight UTC of the same date. -/
def universalMs (t : ClockTime) (standard : Offset) (saving : Option Offset) : Int :=
  t.amount.seconds * msPerSecond - (Clock.ahead standard saving t.clock).ms

/-- The clock that the last letter of a time names, and the text before it. -/
def clockOf (s : String) : Clock × String :=
  match Text.before? 's' s with
  | some amount => (.standard, amount)
  | none =>
    match Text.before? 'u' s <|> Text.before? 'g' s <|> Text.before? 'z' s with
    | some amount => (.universal, amount)
    | none => (.wall, (Text.before? 'w' s).getD s)

def parse (s : String) : Parse ClockTime := do
  let (clock, amount) := clockOf s
  return ⟨clock, ← Amount.parse amount⟩

end ClockTime

/-! ## Ends -/

structure Until where
  year : Int
  month : Month
  day : DaySelector
  time : ClockTime
  deriving DecidableEq, Repr

namespace Until

/-- The year is in the supported range and a day by number, or one to compare with, is one of the
month. -/
def Valid (u : Until) : Prop :=
  firstYear ≤ u.year ∧ u.year ≤ lastYear ∧
    match u.day with
    | .last _ => True
    | .onOrAfter _ d | .onOrBefore _ d | .day d => 1 ≤ d ∧ d ≤ daysInMonth u.year u.month.number

instance (u : Until) : Decidable u.Valid := by
  unfold Valid; split <;> infer_instance

/-- The day, counted from 1970-01-01. -/
def dayNumber (u : Until) : Int :=
  let first := Calendar.dayNumber u.year u.month.number 1
  match u.day with
  | .last w => lastUpTo (first + daysInMonth u.year u.month.number - 1) w
  | .onOrAfter w d => firstFrom (first + d - 1) w
  | .onOrBefore w d => lastUpTo (first + d - 1) w
  | .day d => first + d - 1

/-- The instant in milliseconds, for the offsets of the line that ends. -/
def ms (u : Until) (standard : Offset) (saving : Option Offset) : Int :=
  u.dayNumber * msPerDay + u.time.universalMs standard saving

/-- Reads a column that may be missing. -/
def optional {α : Type} (read : String → Parse α) (default : α) (s : Option String) : Parse α :=
  match s with
  | none => return default
  | some s => read s

def parse (text : String) : Parse Until := .within "UntilDateTime" do
  let (yearText, rest) ← Parse.column (Text.columns text)
  let year ← Parse.integer .signed32 yearText
  let month ← optional parseMonth .january rest[0]?
  let day ← optional DaySelector.parse (.day 1) rest[1]?
  let time ← optional ClockTime.parse .midnight rest[2]?
  match rest[3]? with
  | some extra => Parse.unknownValue extra
  | none =>
    let u : Until := ⟨year, month, day, time⟩
    if u.Valid then return u else Parse.unknownValue text

end Until

end ZoneHistory.Source
