import ZoneHistory.Offset
import ZoneHistory.Source.Context
import ZoneHistory.Text.Pieces

/-!
# Amounts of time

Offsets, daylight saving amounts and times of day are written alike: a minus sign
or none, hours, and after colons the minutes and seconds if there are any. The
number of hours has a sign of its own, so an amount may be negative twice.

An amount counts as seconds where it is a time of day, and as minutes, rounded
with halves away from zero, where it is an offset.
-/

namespace ZoneHistory.Source

/-- A signed amount of hours, minutes and seconds. -/
structure Amount where
  negative : Bool
  hour : Int
  minute : Nat
  second : Nat
  deriving DecidableEq, Repr

namespace Amount

def zero : Amount := ⟨false, 0, 0, 0⟩

/-- One or minus one. -/
def sign (a : Amount) : Int :=
  if a.negative then -1 else 1

def seconds (a : Amount) : Int :=
  (a.hour * 3600 + a.minute * 60 + a.second) * a.sign

/-- The amount in minutes: its size is rounded, halves upwards, and has the sign in front of the
amount. -/
def minutes (a : Amount) : Int :=
  (((a.seconds.natAbs + 30) / 60 : Nat) : Int) * a.sign

def offset (a : Amount) : Offset :=
  ⟨a.minutes⟩

/-- Takes the text before the first colon and the text after it, if there is a colon. -/
def beforeColon (s : String) : String × Option String :=
  match Text.splitOnce? ":" s with
  | some (first, rest) => (first, some rest)
  | none => (s, none)

/-- Reads a part of an amount that may be missing. -/
def part : Option String → Parse Int
  | none => return 0
  | some s => Parse.integer .signed8 s

/-- Reads an amount. Minutes and seconds that are not below 60 are an unknown value. -/
def parse (text : String) : Parse Amount := .within "Time" do
  let unsigned := Text.after? "-" text
  let size := unsigned.getD text
  let (hourText, rest) := beforeColon size
  let hour ← Parse.integer .signed8 hourText
  let (minuteText, secondText) := match rest with
    | none => (none, none)
    | some rest => ((beforeColon rest).1, (beforeColon rest).2)
  let minute ← part minuteText
  let second ← part secondText
  if 0 ≤ minute ∧ minute < 60 ∧ 0 ≤ second ∧ second < 60 then
    return ⟨unsigned.isSome, hour, minute.toNat, second.toNat⟩
  else Parse.unknownValue size

end Amount

/-! ## Daylight saving amounts -/

/-- Whether a text begins with a digit once the minus signs before it are taken away. -/
def startsNumeric (s : String) : Bool :=
  match s.toList.dropWhile (· == '-') with
  | c :: _ => c.isDigit
  | [] => false

/-- Reads the daylight saving amount of a line: a minus sign for none, or an amount. A name would
stand for a set of rules. -/
def parseSaving (s : String) : Parse (Option Amount) := .within "Rules" do
  if s = "-" then return none
  else if startsNumeric s then return some (← Amount.parse s)
  else Parse.fail fun c => .namedRule c.count.word s

end ZoneHistory.Source
