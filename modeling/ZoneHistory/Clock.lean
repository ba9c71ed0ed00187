import ZoneHistory.Text.Digits

/-!
# The time of day

A `TimeOfDay` has millisecond precision and no leap second. It corresponds to the
milliseconds since midnight, `TimeOfDay.msOfDay`.
-/

namespace ZoneHistory

/-! ## Units -/

def msPerSecond : Int := 1000

def msPerMinute : Int := 60000

def msPerHour : Int := 3600000

def msPerDay : Int := 86400000

/-- Splits milliseconds into whole days, downwards, and milliseconds of the day. -/
def splitDays (ms : Int) : Int × Int :=
  (ms / msPerDay, ms % msPerDay)

/-! ## Time of day -/

/-- Hour, minute, second and millisecond of a day. -/
structure TimeOfDay where
  hour : Nat
  minute : Nat
  second : Nat
  millisecond : Nat
  deriving DecidableEq, Repr

namespace TimeOfDay

def midnight : TimeOfDay := ⟨0, 0, 0, 0⟩

/-- Each field lies below the number of its units in the next larger one. -/
def Valid (t : TimeOfDay) : Prop :=
  t.hour ≤ 23 ∧ t.minute ≤ 59 ∧ t.second ≤ 59 ∧ t.millisecond ≤ 999

instance (t : TimeOfDay) : Decidable t.Valid := by
  unfold Valid; infer_instance

/-- Times in order: by hour, minute, second and millisecond. -/
def compare (a b : TimeOfDay) : Ordering :=
  (Ord.compare a.hour b.hour).then ((Ord.compare a.minute b.minute).then
    ((Ord.compare a.second b.second).then (Ord.compare a.millisecond b.millisecond)))

def msOfDay (t : TimeOfDay) : Int :=
  t.hour * msPerHour + t.minute * msPerMinute + t.second * msPerSecond + t.millisecond

/-- The time of day at a number of milliseconds since midnight, which lies below a day. -/
def ofMsOfDay (ms : Int) : TimeOfDay :=
  { hour := (ms / msPerHour).toNat
    minute := (ms / msPerMinute % 60).toNat
    second := (ms / msPerSecond % 60).toNat
    millisecond := (ms % msPerSecond).toNat }

/-- The time as `HH:MM:SS`, followed by the milliseconds in three digits unless they are zero. -/
def text (t : TimeOfDay) : String :=
  Text.padded 2 t.hour ++ ":" ++ Text.padded 2 t.minute ++ ":" ++ Text.padded 2 t.second ++
    (if t.millisecond = 0 then "" else "." ++ Text.padded 3 t.millisecond)

end TimeOfDay

end ZoneHistory
