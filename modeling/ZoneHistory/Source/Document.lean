import ZoneHistory.Source.ZoneBlock

/-!
# Source text

A source holds zones and links, in any order, with comments and blank lines
between them. It is read line by line: `Progress.step` takes one line, in the
light of the zone that is still open, if any.

The first error ends the reading. A line that names a set of rules is one.
-/

namespace ZoneHistory.Source

/-- The zones of a source, and its links as pairs of alias and target, each in order. -/
structure Document where
  zones : List ZoneBlock
  links : List (String × String)
  deriving DecidableEq, Repr

/-- What has been read of a source, and the zone whose lines go on. -/
structure Progress where
  document : Document
  unfinished : Option ZoneBlock
  deriving DecidableEq, Repr

namespace Progress

def initial : Progress := ⟨⟨[], []⟩, none⟩

/-- Takes a zone as finished if it is complete. -/
def take (document : Document) (b : ZoneBlock) : Progress :=
  if b.isComplete then ⟨{ document with zones := document.zones ++ [b] }, none⟩
  else ⟨document, some b⟩

/-- Reads the columns of a link after its first one: the target and the alias. -/
def parseLink (rest : List String) : Parse (String × String) := .within "Link" do
  let (target, rest) ← Parse.column rest
  let (name, _) ← Parse.column rest
  return (name, target)

def refuseRule (rest : List String) : Parse Progress := do
  Parse.update (·.enter "Rule")
  let (name, _) ← Parse.column rest
  Parse.fail fun c => .namedRule c.count.word name

def step (p : Progress) (line : String) : Parse Progress :=
  match p.unfinished with
  | some b => do return take p.document (← b.extend line)
  | none =>
    match Text.columns (withoutComment line) with
    | [] => do
      Parse.nextLine
      return p
    | "Zone" :: _ => do return take p.document (← ZoneBlock.begin line)
    | "Link" :: rest => do
      let link ← parseLink rest
      Parse.nextLine
      return ⟨{ p.document with links := p.document.links ++ [link] }, none⟩
    | "Rule" :: rest => refuseRule rest
    | other :: _ => Parse.unknownValue other

/-- The source read when its lines end; a zone whose lines should go on is an error. -/
def finish (p : Progress) : Parse Document :=
  match p.unfinished with
  | some _ => Parse.endOfLine
  | none => return p.document

end Progress

namespace Document

def ofLines (lines : List String) : Parse Document := do
  let p ← lines.foldlM Progress.step Progress.initial
  p.finish

def parse (text : String) : Except SourceError Document :=
  (ofLines (Text.lines text) Context.initial).1

end Document

end ZoneHistory.Source
