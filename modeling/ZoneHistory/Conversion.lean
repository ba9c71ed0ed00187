import ZoneHistory.Resolution
import ZoneHistory.Table

/-!
# Conversion between instants and readings

`Zone.toReading` gives what the wall clock of a zone shows at an instant.
`Zone.resolve` goes back: it finds every instant at which the clock shows a
reading, or else the transition that skips the reading.

Only the regimes near the reading matter. An instant that shows it lies within
the widest offset of the zone, so each regime in effect in that span contributes
one candidate, `wall - offset`, which counts if the clock does show the reading
then.
-/

namespace ZoneHistory

namespace Zone

/-- What the wall clock shows at an instant, valid or not. -/
def readingAt (z : Zone) (t : Instant) : Reading :=
  Reading.ofInstant t (z.offsetAt t)

/-- What the wall clock shows at a valid instant. -/
def toReading (z : Zone) (t : Instant) : Except Problem Reading :=
  if t.Valid then .ok (z.readingAt t) else .error .instantOutOfRange

/-- The regimes in effect within the widest offset of a wall time, as two indices. -/
def nearWall (z : Zone) (wall : Int) : Nat × Nat :=
  z.near ⟨Instant.saturate (wall - z.widestMs)⟩ ⟨Instant.saturate (wall + z.widestMs)⟩

/-- The instants, in milliseconds, at which the clock shows the reading, one for each regime
near it. -/
def matchesOf (z : Zone) (r : Reading) : List Int :=
  let span := z.nearWall r.wallMs
  let candidates := ((z.regimes.take span.2).drop span.1).map fun g => r.wallMs - g.total.ms
  candidates.filter fun ms => decide (z.readingAt ⟨ms⟩ = r)

/-- Whether the transition between two regimes moves the clock forward over a wall time. -/
def skips (wall : Int) (transition : Regime × Regime) : Bool :=
  let before := transition.1.total.ms
  let after := transition.2.total.ms
  let moment := transition.2.start.ms
  decide (moment + before ≤ wall) && decide (wall < moment + after)

/-- The first transition near a wall time that skips it. -/
def skipping? (z : Zone) (wall : Int) : Option (Regime × Regime) :=
  let span := z.nearWall wall
  ((z.transitions.take (span.2 - 1)).drop (span.1 - 1)).find? (skips wall)

/-- The instants that a reading stands for, valid or not. -/
def locate (z : Zone) (r : Reading) : Except Problem Resolution :=
  let found := z.matchesOf r
  match found.min?, found.max? with
  | some earliest, some latest =>
    if earliest = latest then .ok (.unique ⟨earliest⟩) else .ok (.overlap ⟨earliest⟩ ⟨latest⟩)
  | _, _ =>
    match z.skipping? r.wallMs with
    | some (before, after) =>
      .ok (.gap ⟨r.wallMs - after.total.ms⟩ ⟨r.wallMs - before.total.ms⟩)
    | none => .error .noSkippingTransition

/-- The instants that a reading stands for, all of them valid. -/
def resolve (z : Zone) (r : Reading) : Except Problem Resolution := do
  let found ← z.locate r
  if found.Valid then .ok found else .error .readingOutOfRange

/-- What is noted in the log when a reading is located that is not unique. -/
def notes (z : Zone) (r : Reading) : List String :=
  match z.locate r with
  | .ok (.overlap earlier later) =>
    [r.text ++ " is ambiguous in " ++ z.identifier ++ ": " ++ earlier.text ++ " or " ++ later.text]
  | .ok (.gap earlier later) =>
    ["wall time " ++ Text.signed r.wallMs ++ " skipped in " ++ z.identifier ++ ": " ++
      (Resolution.gap earlier later).text]
  | _ => []

end Zone

namespace Table

/-- The zone that a name stands for, for conversions. -/
def zoneNamed (t : Table) (name : String) : Except Problem Zone :=
  (t.zone name).mapError .zone

def toReading (t : Table) (name : String) (instant : Instant) : Except Problem Reading := do
  (← t.zoneNamed name).toReading instant

def resolveReading (t : Table) (name : String) (r : Reading) : Except Problem Resolution := do
  (← t.zoneNamed name).resolve r

end Table

end ZoneHistory
