import ZoneHistory.Source.Document
import ZoneHistory.Table.Records

/-!
# Loading tables from text

A table is loaded from source text or from JSON. A text that cannot be read is an
error as a whole; a zone in it that cannot be entered is only rejected.
-/

namespace ZoneHistory

/-- Why no table can be loaded. -/
inductive LoadError where
  | source (e : Source.SourceError)
  | json
  | file
  deriving DecidableEq, Repr

def LoadError.kind : LoadError → Kind
  | source _ | json | file => .parse

def LoadError.message? : LoadError → Option String
  | source e => some ("zoneinfo parse error: " ++ e.message)
  | json | file => none

namespace Load

/-- Enters the zones and links of a source into a table. -/
def ofDocument (d : Source.Document) : Load :=
  build (d.zones.map fun b => (b.identifier, b.toZone)) d.links

def ofSource (text : String) : Except LoadError Load :=
  match Source.Document.parse text with
  | .ok d => .ok (ofDocument d)
  | .error e => .error (.source e)

def ofJson (text : String) : Except LoadError Load :=
  match TableRecords.read? text with
  | some records => .ok records.load
  | none => .error .json

/-- The last part of a path. -/
def fileName (path : String) : List Char :=
  (path.toList.reverse.takeWhile (· != '/')).reverse

/-- Whether the name of a file ends in `.json` and has more before that. -/
def isJsonPath (path : String) : Bool :=
  let name := fileName path
  ".json".toList.isSuffixOf name && name.length != ".json".length

/-- Loads a table from the content of a file, if it could be read: JSON if the path says so,
source text if not. -/
def ofFile (path : String) (content : Option String) : Except LoadError Load :=
  match content with
  | none => .error .file
  | some text => if isJsonPath path then ofJson text else ofSource text

end Load

end ZoneHistory
