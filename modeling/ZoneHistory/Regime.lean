import ZoneHistory.Diagnosis
import ZoneHistory.Instant

/-!
# Offset regimes

A `Regime` is a stretch of time during which a zone keeps one standard offset,
one daylight saving amount and one abbreviation. It lasts from its start to the
start of the next regime of the zone.

`Regime.make` checks the parts in order; `Regime.WellFormed` says what it checks.
-/

namespace ZoneHistory

/-! ## Errors about zones -/

/-- Why regimes do not make a zone, or a zone does not fit into a table. -/
inductive Malformation where
  /-- There are no regimes. -/
  | noRegimes
  /-- The regime at `index` does not start after the one before it. -/
  | notAscending (index : Nat)
  /-- The name is in use. -/
  | duplicateName
  deriving DecidableEq, Repr

def Malformation.message : Malformation → String
  | .noRegimes => "zone has no offset regimes"
  | .notAscending index =>
    "regime " ++ Text.natural index ++ " does not start strictly after regime " ++
      Text.natural (index - 1)
  | .duplicateName => "zone identifier is already registered"

/-- What can be wrong with a regime, a zone or a name. -/
inductive ZoneError where
  | unknown (name : String)
  | malformed (name : String) (reason : Malformation)
  | abbreviation (text : String)
  | offset (minutes : Int)
  | instant (ms : Int)
  deriving DecidableEq, Repr

namespace ZoneError

def kind : ZoneError → Kind
  | unknown _ => .unknownZone
  | malformed _ _ => .malformedTable
  | abbreviation _ | offset _ | instant _ => .range

def message : ZoneError → String
  | unknown name => "unknown time zone `" ++ name ++ "`"
  | malformed name reason => "malformed rule table for `" ++ name ++ "`: " ++ reason.message
  | abbreviation text => "invalid abbreviation `" ++ text ++ "`"
  | offset minutes => "offset of " ++ Text.signed minutes ++ " minutes is out of range"
  | instant ms => "instant " ++ Text.signed ms ++ " is out of range"

end ZoneError

/-! ## Regimes -/

/-- A stretch of time with one offset and one abbreviation. -/
structure Regime where
  start : Instant
  standard : Offset
  saving : Option Offset
  abbreviation : String
  deriving DecidableEq, Repr

/-- An abbreviation has at most eight characters, all of them ASCII and none of them NUL. -/
def IsAbbreviation (s : String) : Prop :=
  s.toList.length ≤ 8 ∧ s.toList.all fun c => decide (0 < c.toNat) && decide (c.toNat < 128)

instance (s : String) : Decidable (IsAbbreviation s) := by
  unfold IsAbbreviation; infer_instance

/-- The offset lies strictly within a day of UTC. -/
def Offset.WithinDay (o : Offset) : Prop :=
  -Offset.minutesPerDay < o.minutes ∧ o.minutes < Offset.minutesPerDay

instance (o : Offset) : Decidable o.WithinDay := by
  unfold Offset.WithinDay; infer_instance

namespace Regime

/-- The daylight saving amount in effect, which is zero if none is given. -/
def savingOrZero (r : Regime) : Offset :=
  r.saving.getD Offset.zero

def total (r : Regime) : Offset :=
  r.standard + r.savingOrZero

/-- Whether daylight saving time is in effect: an amount of zero is none. -/
def isDaylight (r : Regime) : Bool :=
  !r.savingOrZero.isZero

/-- The start is the beginning of time or a valid instant, the offsets lie within a day of UTC
and the abbreviation is one. -/
structure WellFormed (r : Regime) : Prop where
  start : r.start = Instant.beginning ∨ r.start.Valid
  standard : r.standard.WithinDay
  total : r.total.WithinDay
  abbreviation : IsAbbreviation r.abbreviation

/-- The regime with the given parts. The start is checked first, then the standard offset, the
total offset and the abbreviation. -/
def make (start : Instant) (standard : Offset) (saving : Option Offset) (abbreviation : String) :
    Except ZoneError Regime :=
  let total := standard + saving.getD Offset.zero
  if ¬(start = Instant.beginning ∨ start.Valid) then .error (.instant start.ms)
  else if ¬standard.WithinDay then .error (.offset standard.minutes)
  else if ¬total.WithinDay then .error (.offset total.minutes)
  else if ¬IsAbbreviation abbreviation then .error (.abbreviation abbreviation)
  else .ok ⟨start, standard, saving, abbreviation⟩

/-- A regime can be made exactly from the parts of a well formed one. -/
theorem make_eq_ok_iff {start : Instant} {standard : Offset} {saving : Option Offset}
    {abbreviation : String} {r : Regime} :
    make start standard saving abbreviation = .ok r ↔
      r = ⟨start, standard, saving, abbreviation⟩ ∧ r.WellFormed := by
  simp only [make]
  constructor
  · intro h
    split at h
    · cases h
    next h1 =>
    split at h
    · cases h
    next h2 =>
    split at h
    · cases h
    next h3 =>
    split at h
    · cases h
    next h4 =>
    cases h
    exact ⟨rfl, Decidable.of_not_not h1, Decidable.of_not_not h2, Decidable.of_not_not h3,
      Decidable.of_not_not h4⟩
  · rintro ⟨rfl, h1, h2, h3, h4⟩
    simp only [total, savingOrZero] at h1 h2 h3 h4
    rw [if_neg (not_not_intro h1), if_neg (not_not_intro h2), if_neg (not_not_intro h3),
      if_neg (not_not_intro h4)]

/-- The regime as its abbreviation, its start and its offsets, such as
`EDT from 2017-03-12T07:00:00Z (-05:00, dst +01:00)`. -/
def text (r : Regime) : String :=
  r.abbreviation ++ " from " ++ r.start.text ++ " (" ++ r.standard.text ++
    (match r.saving with
      | none => ""
      | some saving => ", dst " ++ saving.text) ++ ")"

end Regime

end ZoneHistory
