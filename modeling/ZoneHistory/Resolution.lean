import ZoneHistory.Problem

/-!
# Resolutions

A reading of a wall clock belongs to one instant, or a forward transition skips
it, or it is read more than once. A `Resolution` says which, and
`Resolution.pick` chooses one instant by a `Disambiguation`.
-/

namespace ZoneHistory

/-- The instants that a reading stands for. -/
inductive Resolution where
  /-- The clock shows the reading once. -/
  | unique (instant : Instant)
  /-- The clock skips the reading: `earlier` takes the offset after the transition and `later`
  the one before it. -/
  | gap (earlier later : Instant)
  /-- The clock shows the reading more than once, first at `earlier` and last at `later`. -/
  | overlap (earlier later : Instant)
  deriving DecidableEq, Repr

/-- How to choose an instant for a reading that is skipped or repeated. -/
inductive Disambiguation where
  /-- The later instant of a gap and the earlier one of an overlap. -/
  | compatible
  /-- The earlier instant. -/
  | earlier
  /-- The later instant. -/
  | later
  /-- No instant. -/
  | reject
  deriving DecidableEq, Repr

namespace Disambiguation

def all : List Disambiguation :=
  [compatible, earlier, later, reject]

def name : Disambiguation → String
  | compatible => "compatible"
  | earlier => "earlier"
  | later => "later"
  | reject => "reject"

def parse (s : String) : Except Problem Disambiguation :=
  match all.find? (·.name = s) with
  | some d => .ok d
  | none => .error .disambiguationName

end Disambiguation

namespace Resolution

/-- Whether the clock shows the reading exactly once. -/
def isUnique : Resolution → Bool
  | unique _ => true
  | _ => false

/-- The instant of a reading that the clock shows exactly once. -/
def unique? : Resolution → Option Instant
  | unique t => some t
  | _ => none

/-- The instants of a resolution, in order. -/
def instants : Resolution → List Instant
  | unique t => [t]
  | gap earlier later | overlap earlier later => [earlier, later]

/-- All instants of the resolution are valid. -/
def Valid (r : Resolution) : Prop :=
  ∀ t ∈ r.instants, t.Valid

instance (r : Resolution) : Decidable r.Valid := by
  unfold Valid; infer_instance

/-- The instant that a way to disambiguate chooses. -/
def pick (d : Disambiguation) : Resolution → Except Problem Instant
  | unique t => .ok t
  | gap earlier later =>
    match d with
    | .earlier => .ok earlier
    | .compatible | .later => .ok later
    | .reject => .error .readingInGap
  | overlap earlier later =>
    match d with
    | .compatible | .earlier => .ok earlier
    | .later => .ok later
    | .reject => .error .readingAmbiguous

def text : Resolution → String
  | unique t => t.text
  | gap earlier later => "gap between " ++ earlier.text ++ " and " ++ later.text
  | overlap earlier later => "overlap of " ++ earlier.text ++ " and " ++ later.text

end Resolution

end ZoneHistory
