import ZoneHistory.Json.Reader
import ZoneHistory.Json.Record
import ZoneHistory.Json.Writer
import ZoneHistory.Table.Load

/-!
# Tables in JSON

A table is written as an object with the records of its zones in order and its
aliases in ascending order. A start of `null` stands for the beginning of time.

`TableRecords.read?` accepts any text of that form, so it says nothing about
whether the records make zones; `TableRecords.load` enters them into a table.
-/

namespace ZoneHistory

open Json

/-- The record of a regime, with numbers that need not make one. -/
structure RegimeRecord where
  start : Option Int
  standard : Int
  saving : Option Int
  abbreviation : String
  deriving DecidableEq, Repr

structure HistoryRecord where
  identifier : String
  regimes : List RegimeRecord
  deriving DecidableEq, Repr

structure TableRecords where
  zones : List HistoryRecord
  links : Dictionary String
  deriving DecidableEq, Repr

/-! ## Between records and zones -/

namespace RegimeRecord

def toRegime (r : RegimeRecord) : Except ZoneError Regime :=
  Regime.make (match r.start with
    | none => Instant.beginning
    | some ms => ⟨ms⟩) ⟨r.standard⟩ (r.saving.map fun minutes => ⟨minutes⟩) r.abbreviation

def ofRegime (r : Regime) : RegimeRecord :=
  { start := if r.start = Instant.beginning then none else some r.start.ms
    standard := r.standard.minutes
    saving := r.saving.map (·.minutes)
    abbreviation := r.abbreviation }

end RegimeRecord

namespace HistoryRecord

/-- The zone that the record describes. The first regime that cannot be made is the error. -/
def toZone (e : HistoryRecord) : Except ZoneError Zone := do
  let regimes ← e.regimes.mapM RegimeRecord.toRegime
  Zone.make e.identifier regimes

def ofZone (z : Zone) : HistoryRecord :=
  ⟨z.identifier, z.regimes.map RegimeRecord.ofRegime⟩

end HistoryRecord

namespace TableRecords

def ofTable (t : Table) : TableRecords :=
  ⟨t.zones.map HistoryRecord.ofZone, t.links⟩

/-- Enters the records into a table, zones first. -/
def load (r : TableRecords) : Load :=
  Load.build (r.zones.map fun e => (e.identifier, e.toZone)) r.links

end TableRecords

/-! ## Writing -/

def RegimeRecord.toValue (r : RegimeRecord) : Value :=
  .record [
    ("effective_from", .intOrNull r.start),
    ("standard_offset", .int r.standard),
    ("dst_offset", .intOrNull r.saving),
    ("abbreviation", .text r.abbreviation)]

def HistoryRecord.toValue (e : HistoryRecord) : Value :=
  .record [
    ("identifier", .text e.identifier),
    ("regimes", .array (e.regimes.map RegimeRecord.toValue))]

def TableRecords.toValue (r : TableRecords) : Value :=
  .record [
    ("zones", .array (r.zones.map HistoryRecord.toValue)),
    ("links", .record (r.links.map fun link => (link.1, .text link.2)))]

def Table.toJson (t : Table) : String :=
  (TableRecords.ofTable t).toValue.pretty

/-! ## Reading -/

/-- Reads the record of a regime. The start and the daylight saving amount may be left out. -/
def RegimeRecord.ofValue? (v : Value) : Option RegimeRecord := do
  let [start, standard, saving, abbreviation] ←
    v.fields? ["effective_from", "standard_offset", "dst_offset", "abbreviation"] | none
  return {
    start := ← (start.getD .null).orNull? (·.int? .signed64)
    standard := ← (← standard).int? .signed32
    saving := ← (saving.getD .null).orNull? (·.int? .signed32)
    abbreviation := ← (← abbreviation).text? }

def HistoryRecord.ofValue? (v : Value) : Option HistoryRecord := do
  let [identifier, regimes] ← v.fields? ["identifier", "regimes"] | none
  return ⟨← (← identifier).text?, ← (← regimes).items? RegimeRecord.ofValue?⟩

/-- Reads the records of a table. The aliases may be left out. -/
def TableRecords.ofValue? (v : Value) : Option TableRecords := do
  let [zones, links] ← v.fields? ["zones", "links"] | none
  let zones ← (← zones).items? HistoryRecord.ofValue?
  let links ← match links with
    | none => some []
    | some links => links.dictionary? Value.text?
  return ⟨zones, links⟩

/-- Reads the records of a table from a JSON text. -/
def TableRecords.read? (s : String) : Option TableRecords := do
  ofValue? (← Value.read? s)

end ZoneHistory
