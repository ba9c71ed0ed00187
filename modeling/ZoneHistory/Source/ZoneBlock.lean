import ZoneHistory.Source.Designation
import ZoneHistory.Source.Until
import ZoneHistory.Zone

/-!
# Zones in source text

A zone is given by a line with its name and by the lines after it, each with an
offset, a daylight saving amount, an abbreviation and, on all lines but the last,
when the line ends. Each line becomes a regime, which starts where the line
before it ends.
-/

namespace ZoneHistory.Source

/-- The text of a line without its comment. -/
def withoutComment (line : String) : String :=
  match Text.splitOnce? "#" line with
  | some (text, _) => text
  | none => line

/-! ## Lines -/

/-- The columns of a line of a zone, apart from the name. -/
structure Entry where
  standard : Amount
  saving : Option Amount
  designation : Designation
  ends : Option Until
  deriving DecidableEq, Repr

namespace Entry

def parse (text : String) : Parse Entry := .within "ZoneEntry" do
  let (standardText, rest) ← Parse.column (Text.columns text)
  let standard ← Amount.parse standardText
  let (savingText, rest) ← Parse.column rest
  let saving ← parseSaving savingText
  let (designationText, rest) ← Parse.column rest
  let designation ← Designation.parse designationText
  let ends ←
    if rest.isEmpty then pure none
    else some <$> Until.parse (Text.joinBySpace rest)
  return ⟨standard, saving, designation, ends⟩

def standardOffset (e : Entry) : Offset :=
  e.standard.offset

/-- The daylight saving amount, if one is given. -/
def savingOffset (e : Entry) : Option Offset :=
  e.saving.map Amount.offset

def abbreviation (e : Entry) : String :=
  let saving := e.savingOffset.getD .zero
  e.designation.abbreviation (e.standardOffset + saving) (!saving.isZero)

def toRegime (e : Entry) (start : Instant) : Except ZoneError Regime :=
  Regime.make start e.standardOffset e.savingOffset e.abbreviation

/-- The instant at which the line ends, or else the one given. -/
def endOr (e : Entry) (start : Instant) : Instant :=
  match e.ends with
  | some u => ⟨u.ms e.standardOffset e.savingOffset⟩
  | none => start

end Entry

/-! ## Zones -/

/-- The name of a zone and the entries of its lines. -/
structure ZoneBlock where
  identifier : String
  entries : List Entry
  deriving DecidableEq, Repr

namespace ZoneBlock

/-- Reads the line that begins a zone. Its first column is the word for a zone, where only ASCII
blanks separate columns. -/
def parseHeader (line : String) : Parse (String × Entry) := .within "zone header" do
  match Text.asciiColumns (withoutComment line) with
  | "Zone" :: rest =>
    match rest with
    | [] => Parse.fail fun c => .missingIdentifier c.count.word
    | identifier :: rest => return (identifier, ← Entry.parse (Text.joinBySpace rest))
  | _ => Parse.fail fun c => .zoneHeader c.count.word

/-- Whether the last line read has no end, so that no other line follows. -/
def isComplete (b : ZoneBlock) : Bool :=
  match b.entries.getLast? with
  | some e => e.ends.isNone
  | none => false

/-- Goes on to the next line, and takes away the label of the zone if that was its last line. -/
def advance (b : ZoneBlock) : Parse ZoneBlock := do
  Parse.nextLine
  if b.isComplete then
    Parse.update Context.leave
  return b

/-- Reads the first line of a zone. -/
def begin (line : String) : Parse ZoneBlock := do
  Parse.update (·.enter "zone table")
  let (identifier, entry) ← parseHeader line
  advance ⟨identifier, [entry]⟩

/-- Reads a further line of a zone, or skips it if it is blank. -/
def extend (b : ZoneBlock) (line : String) : Parse ZoneBlock := do
  let text := withoutComment line
  if text.toList.all Text.isBlank then
    Parse.nextLine
    return b
  else
    let entry ← Entry.parse text
    advance { b with entries := b.entries ++ [entry] }

/-- Reads the further lines of a zone up to its last one, and returns the lines after it. -/
def complete (b : ZoneBlock) : List String → Parse (ZoneBlock × List String)
  | [] => if b.isComplete then return (b, []) else Parse.endOfLine
  | line :: rest =>
    if b.isComplete then return (b, line :: rest)
    else do (← b.extend line).complete rest

/-- Reads the lines of a zone, and returns the lines after it. -/
def parse : List String → Parse (ZoneBlock × List String)
  | [] => do
    Parse.update (·.enter "zone table")
    Parse.endOfLine
  | line :: rest => do (← begin line).complete rest

/-- The regimes of entries, the first from `start` on. -/
def regimesFrom (start : Instant) : List Entry → Except ZoneError (List Regime)
  | [] => .ok []
  | e :: rest => do
    let r ← e.toRegime start
    let later ← regimesFrom (e.endOr start) rest
    return r :: later

def toZone (b : ZoneBlock) : Except ZoneError Zone := do
  let regimes ← regimesFrom Instant.beginning b.entries
  Zone.make b.identifier regimes

end ZoneBlock

end ZoneHistory.Source
