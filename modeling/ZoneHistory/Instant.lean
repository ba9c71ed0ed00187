import ZoneHistory.Calendar.Gregorian
import ZoneHistory.Offset

/-!
# Instants

An `Instant` is a number of milliseconds since 1970-01-01T00:00Z. The least
64-bit number, `Instant.beginning`, stands for "since always": it comes before
every other instant and is not itself a moment. The moments that can be
converted, `Instant.Valid`, are those within 100 000 000 days of 1970.
-/

namespace ZoneHistory

/-- A number of milliseconds since 1970-01-01T00:00Z. -/
structure Instant where
  ms : Int
  deriving DecidableEq, Repr

namespace Instant

instance : LE Instant := ⟨fun a b => a.ms ≤ b.ms⟩

instance : LT Instant := ⟨fun a b => a.ms < b.ms⟩

instance (a b : Instant) : Decidable (a ≤ b) := inferInstanceAs (Decidable (a.ms ≤ b.ms))

instance (a b : Instant) : Decidable (a < b) := inferInstanceAs (Decidable (a.ms < b.ms))

def leastMs : Int := -9223372036854775808

def greatestMs : Int := 9223372036854775807

/-- The start of what has been in effect since always. -/
def beginning : Instant := ⟨leastMs⟩

/-- The greatest distance of a valid instant from 1970, 100 000 000 days. -/
def limitMs : Int := 8640000000000000

/-- The instant lies within 100 000 000 days of 1970. -/
def Valid (t : Instant) : Prop :=
  -limitMs ≤ t.ms ∧ t.ms ≤ limitMs

instance (t : Instant) : Decidable t.Valid := by
  unfold Valid; infer_instance

/-- The valid instant at a number of milliseconds. -/
def ofMs? (ms : Int) : Option Instant :=
  if Valid ⟨ms⟩ then some ⟨ms⟩ else none

def saturate (ms : Int) : Int :=
  max leastMs (min greatestMs ms)

theorem saturate_eq {ms : Int} (h : leastMs ≤ ms) (h' : ms ≤ greatestMs) : saturate ms = ms := by
  unfold saturate; omega

/-- The milliseconds that a clock at the offset shows at the instant, kept to 64 bits. -/
def wallMs (t : Instant) (o : Offset) : Int :=
  saturate (t.ms + o.ms)

/-- The UTC date and time of the instant, such as `1949-12-31T18:00:00Z`, or `-infinity`. The
year has at least four characters, a minus sign included. -/
def text (t : Instant) : String :=
  if t = beginning then "-infinity"
  else
    let date := Calendar.Date.ofDayNumber (splitDays t.ms).1
    let time := TimeOfDay.ofMsOfDay (splitDays t.ms).2
    Text.paddedSigned 4 date.year ++ "-" ++ Text.padded 2 date.month ++ "-" ++
      Text.padded 2 date.day ++ "T" ++ time.text ++ "Z"

end Instant

end ZoneHistory
