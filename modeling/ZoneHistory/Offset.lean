import ZoneHistory.Clock

/-!
# Offsets from UTC

An `Offset` is the number of whole minutes that are added to UTC to give the
local time.
-/

namespace ZoneHistory

/-- Minutes east of UTC. -/
structure Offset where
  minutes : Int
  deriving DecidableEq, Repr

namespace Offset

def zero : Offset := ⟨0⟩

/-- The offset of hours and minutes, each with its own sign. -/
def ofHoursAndMinutes (hours minutes : Int) : Offset :=
  ⟨hours * 60 + minutes⟩

/-- One offset on top of another. -/
def add (a b : Offset) : Offset :=
  ⟨a.minutes + b.minutes⟩

instance : Add Offset := ⟨add⟩

@[simp] theorem minutes_add (a b : Offset) : (a + b).minutes = a.minutes + b.minutes := rfl

def ms (o : Offset) : Int :=
  o.minutes * msPerMinute

/-- Whether the local time is UTC. -/
def isZero (o : Offset) : Bool :=
  o.minutes == 0

/-- Offsets lie strictly within this many minutes of UTC. -/
def minutesPerDay : Int := 1440

/-- The offset as `+HH:MM` or `-HH:MM`. -/
def text (o : Offset) : String :=
  (if o.minutes < 0 then "-" else "+") ++ Text.padded 2 (o.minutes.natAbs / 60) ++ ":" ++
    Text.padded 2 (o.minutes.natAbs % 60)

/-- The offset as `+HH` or `-HH`, with the minutes in two further digits unless they are zero. -/
def numericText (o : Offset) : String :=
  (if o.minutes < 0 then "-" else "+") ++ Text.padded 2 (o.minutes.natAbs / 60) ++
    (if o.minutes.natAbs % 60 = 0 then "" else Text.padded 2 (o.minutes.natAbs % 60))

end Offset

end ZoneHistory
