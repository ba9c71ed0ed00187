import ZoneHistory.Json.Reader
import ZoneHistory.Json.Record
import ZoneHistory.Json.Writer
import ZoneHistory.Verification

/-!
# Claim files

A `Batch` is a list of claims about one zone, and a claim file is its JSON form.
Each claim gives the fields of its reading and of the UTC reading, the standard
offset in hours and minutes, and annotations.

`ClaimFile.read?` accepts any text of that form. `ClaimFile.toBatch` checks that
the fields make readings and offsets, and names the first claim where they do
not.
-/

namespace ZoneHistory

open Json Calendar

structure Batch where
  zone : String
  claims : List Claim
  deriving DecidableEq, Repr

/-! ## Records -/

/-- The fields of a reading, which need not make one. A weekday is checked against the date. -/
structure FieldsRecord where
  year : Int
  month : Nat
  day : Nat
  weekday : Option Weekday
  hour : Nat
  minute : Nat
  second : Nat
  millisecond : Nat
  deriving DecidableEq, Repr

/-- An offset in hours and minutes. West of UTC the minutes go the way of the hours, whatever their
sign, and else they go their own way. -/
structure OffsetRecord where
  hours : Int
  minutes : Int
  deriving DecidableEq, Repr

structure ClaimRecord where
  reading : FieldsRecord
  utc : FieldsRecord
  standard : OffsetRecord
  annotations : Dictionary String
  deriving DecidableEq, Repr

structure ClaimFile where
  zone : String
  claims : List ClaimRecord
  deriving DecidableEq, Repr

/-! ## Between records and claims -/

namespace FieldsRecord

def toReading (f : FieldsRecord) : Except FieldError Reading := do
  let r ← Reading.make f.year f.month f.day f.hour f.minute f.second f.millisecond
  match f.weekday with
  | some w => r.withWeekday w
  | none => return r

/-- The fields of a reading, with its weekday. -/
def ofReading (r : Reading) : FieldsRecord :=
  { year := r.date.year
    month := r.date.month
    day := r.date.day
    weekday := some r.weekday
    hour := r.time.hour
    minute := r.time.minute
    second := r.time.second
    millisecond := r.time.millisecond }

end FieldsRecord

namespace OffsetRecord

/-- The minutes from UTC that the record stands for. -/
def total (o : OffsetRecord) : Int :=
  o.hours * 60 + if o.hours < 0 then -(o.minutes.natAbs : Int) else o.minutes

/-- The offset of the record, which must lie within a day of UTC. -/
def toOffset (o : OffsetRecord) : Except FieldError Offset :=
  let offset : Offset := ⟨o.total⟩
  if offset.WithinDay then .ok offset else .error .offset

/-- The record of an offset. The minutes have a sign only if there are no hours to have it. -/
def ofOffset (o : Offset) : OffsetRecord :=
  let hours := o.minutes.tdiv 60
  let minutes := o.minutes.tmod 60
  ⟨hours, if hours = 0 then minutes else minutes.natAbs⟩

end OffsetRecord

namespace ClaimRecord

/-- The claim of the record. The reading is checked first, then the UTC reading and the offset. -/
def toClaim (c : ClaimRecord) : Except FieldError Claim := do
  let reading ← c.reading.toReading
  let utc ← c.utc.toReading
  let standard ← c.standard.toOffset
  return ⟨reading, utc, standard, c.annotations⟩

def ofClaim (c : Claim) : ClaimRecord :=
  ⟨.ofReading c.reading, .ofReading c.utc, .ofOffset c.standard, c.annotations⟩

end ClaimRecord

/-- The claims of the records from `index` on, unless one cannot be made. -/
def claimsFrom (zone : String) : List ClaimRecord → Nat → Except Problem (List Claim)
  | [], _ => .ok []
  | c :: rest, index =>
    match c.toClaim with
    | .error e => .error (.claim zone index e)
    | .ok claim => (claimsFrom zone rest (index + 1)).map (claim :: ·)

namespace ClaimFile

def toBatch (f : ClaimFile) : Except Problem Batch :=
  (claimsFrom f.zone f.claims 0).map fun claims => ⟨f.zone, claims⟩

def ofBatch (b : Batch) : ClaimFile :=
  ⟨b.zone, b.claims.map .ofClaim⟩

end ClaimFile

/-! ## Writing -/

def FieldsRecord.toValue (f : FieldsRecord) : Value :=
  .record <|
    [("year", .int f.year), ("month", .int f.month), ("day", .int f.day)] ++
    (match f.weekday with
      | some w => [("weekday", .text w.name)]
      | none => []) ++
    [("hour", .int f.hour), ("minute", .int f.minute), ("second", .int f.second),
      ("millisecond", .int f.millisecond)]

def OffsetRecord.toValue (o : OffsetRecord) : Value :=
  .record [("hours", .int o.hours), ("minutes", .int o.minutes)]

/-- The JSON value of the record. Annotations are left out if there are none. -/
def ClaimRecord.toValue (c : ClaimRecord) : Value :=
  .record <|
    [("local", c.reading.toValue), ("utc", c.utc.toValue), ("offset", c.standard.toValue)] ++
    if c.annotations.isEmpty then []
    else [("annotations", .record (c.annotations.map fun a => (a.1, .text a.2)))]

def ClaimFile.toValue (f : ClaimFile) : Value :=
  .record [("zone", .text f.zone), ("vectors", .array (f.claims.map ClaimRecord.toValue))]

def Batch.toJson (b : Batch) : String :=
  (ClaimFile.ofBatch b).toValue.pretty

/-! ## Reading -/

/-- Reads a weekday: its name or abbreviation, alone or as the only key of an object with the
value null. -/
def weekdayOf? : Value → Option Weekday
  | .string content => content.bind Weekday.ofName?
  | .object [(key, .null)] => key.bind Weekday.ofName?
  | _ => none

/-- Reads the fields of a reading. The fields after the hour may be left out, and so may the
weekday. -/
def FieldsRecord.ofValue? (v : Value) : Option FieldsRecord := do
  let [year, month, day, weekday, hour, minute, second, millisecond] ←
    v.fields? ["year", "month", "day", "weekday", "hour", "minute", "second", "millisecond"] | none
  let orZero (range : Text.IntegerRange) (v : Option Value) : Option Nat :=
    match v with
    | none => some 0
    | some v => v.nat? range
  return {
    year := ← (← year).int? .signed32
    month := ← (← month).nat? .unsigned8
    day := ← (← day).nat? .unsigned8
    weekday := ← (weekday.getD .null).orNull? weekdayOf?
    hour := ← (← hour).nat? .unsigned8
    minute := ← orZero .unsigned8 minute
    second := ← orZero .unsigned8 second
    millisecond := ← orZero .unsigned16 millisecond }

/-- Reads an offset. The minutes may be left out. -/
def OffsetRecord.ofValue? (v : Value) : Option OffsetRecord := do
  let [hours, minutes] ← v.fields? ["hours", "minutes"] | none
  let hours ← (← hours).int? .signed32
  let minutes ← match minutes with
    | none => some 0
    | some minutes => minutes.int? .signed32
  return ⟨hours, minutes⟩

/-- The arrays and objects that may lie within each other in an annotation. A text may nest 127
of them, and four lie around each annotation. -/
def annotationDepth : Nat := 123

/-- Reads an annotation: a string as its text, any other value as its compact normal form. -/
def annotation? (v : Value) : Option String :=
  if v.fits annotationDepth then
    match v with
    | .string content => content
    | v => v.normal?.map Value.compact
  else none

/-- Reads the record of a claim. The annotations may be left out. -/
def ClaimRecord.ofValue? (v : Value) : Option ClaimRecord := do
  let [reading, utc, standard, annotations] ←
    v.fields? ["local", "utc", "offset", "annotations"] | none
  let reading ← FieldsRecord.ofValue? (← reading)
  let utc ← FieldsRecord.ofValue? (← utc)
  let standard ← OffsetRecord.ofValue? (← standard)
  let annotations ← match annotations with
    | none => some []
    | some annotations => annotations.dictionary? annotation?
  return ⟨reading, utc, standard, annotations⟩

/-- Reads the record of a batch. -/
def ClaimFile.ofValue? (v : Value) : Option ClaimFile := do
  let [zone, claims] ← v.fields? ["zone", "vectors"] | none
  return ⟨← (← zone).text?, ← (← claims).items? ClaimRecord.ofValue?⟩

/-- Reads a batch from a JSON text. -/
def Batch.ofJson (s : String) : Except Problem Batch :=
  match (Value.read? s).bind ClaimFile.ofValue? with
  | some file => file.toBatch
  | none => .error .json

/-- Reads a batch from the content of a file, if the file could be read. -/
def Batch.ofFile (content : Option String) : Except Problem Batch :=
  match content with
  | none => .error .file
  | some text => ofJson text

end ZoneHistory
