import ZoneHistory.Conversion

/-!
# Verification of claims

A `Claim` says that a wall clock of some zone shows a reading at the instant
given by its UTC fields, and which standard offset was in effect then.

`Zone.verify` checks both directions: the reading at the instant must be the
claimed one, and the claimed reading must resolve to that instant alone. A gap or
an overlap is a mismatch, even if the instant is one of the two it names. The
first direction that fails is reported.
-/

namespace ZoneHistory

/-- A claim about one moment in some zone. -/
structure Claim where
  reading : Reading
  /-- The UTC fields of the moment. -/
  utc : Reading
  /-- The standard offset at the moment. -/
  standard : Offset
  /-- Remarks, which are kept and never interpreted. -/
  annotations : Dictionary String
  deriving DecidableEq, Repr

def Claim.instant (c : Claim) : Instant :=
  c.utc.toInstantUtc

inductive Direction where
  | utcToLocal
  | localToUtc
  | baseOffset
  deriving DecidableEq, Repr

def Direction.name : Direction → String
  | .utcToLocal => "utc->local"
  | .localToUtc => "local->utc"
  | .baseOffset => "base-offset"

/-- A claimed value and the different one that was found. -/
inductive Mismatch where
  | utcToLocal (expected actual : Reading)
  | localToUtc (expected : Instant) (actual : Resolution)
  | baseOffset (expected actual : Offset)
  deriving DecidableEq, Repr

namespace Mismatch

def direction : Mismatch → Direction
  | utcToLocal _ _ => .utcToLocal
  | localToUtc _ _ => .localToUtc
  | baseOffset _ _ => .baseOffset

def expectedText : Mismatch → String
  | utcToLocal expected _ => expected.text
  | localToUtc expected _ => expected.text
  | baseOffset expected _ => expected.text

def actualText : Mismatch → String
  | utcToLocal _ actual => actual.text
  | localToUtc _ actual => actual.text
  | baseOffset _ actual => actual.text

def text (m : Mismatch) : String :=
  m.direction.name ++ ": expected " ++ m.expectedText ++ ", found " ++ m.actualText

end Mismatch

inductive Verdict where
  | consistent
  | mismatch (m : Mismatch)
  deriving DecidableEq, Repr

namespace Zone

/-- Checks that the reading and the instant are the same moment. -/
def verify (z : Zone) (r : Reading) (t : Instant) : Except Problem Verdict := do
  let shown ← z.toReading t
  if shown ≠ r then
    return .mismatch (.utcToLocal r shown)
  let resolved ← z.resolve r
  if resolved ≠ .unique t then
    return .mismatch (.localToUtc t resolved)
  return .consistent

/-- What is noted in the log while the reading and the instant are checked. -/
def verifyNotes (z : Zone) (r : Reading) (t : Instant) : List String :=
  if t.Valid ∧ z.readingAt t = r then z.notes r else []

/-- Checks a claim, with its standard offset if `checkStandard` is set and the rest holds. -/
def verifyClaim (z : Zone) (checkStandard : Bool) (c : Claim) : Except Problem Verdict := do
  let verdict ← z.verify c.reading c.instant
  if verdict ≠ .consistent ∨ ¬checkStandard then
    return verdict
  let standard := (z.regimeAt c.instant).standard
  if standard ≠ c.standard then
    return .mismatch (.baseOffset c.standard standard)
  return .consistent

end Zone

namespace Table

/-- Checks that a reading in a named zone and an instant are the same moment. -/
def verify (t : Table) (name : String) (r : Reading) (instant : Instant) :
    Except Problem Verdict := do
  (← t.zoneNamed name).verify r instant

/-- Checks a claim about a named zone, its standard offset included. -/
def verifyClaim (t : Table) (name : String) (c : Claim) : Except Problem Verdict := do
  (← t.zoneNamed name).verifyClaim true c

end Table

end ZoneHistory
