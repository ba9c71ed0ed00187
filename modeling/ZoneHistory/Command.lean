import ZoneHistory.Loading
import ZoneHistory.Run

/-!
# The command line

The command takes the path of a regime file and the paths of claim files, checks
all claims, and prints every failure, the number of failures of each zone and the
totals. It succeeds if there are no failures.

`Request.parse` reads the arguments from left to right. `Command.run` is the whole
command, given the contents of the files.
-/

namespace ZoneHistory.Command

/-! ## Arguments -/

inductive Request where
  | check (serial : Bool) (regimes : String) (claims : List String)
  | help
  | version
  deriving DecidableEq, Repr

/-- The arguments read so far: paths in reverse, and whether all that follow are paths. -/
structure Arguments where
  serial : Bool
  paths : List String
  onlyPaths : Bool
  deriving DecidableEq, Repr

/-- What an argument by itself means. -/
inductive Word where
  | path
  | serial
  | help
  | version
  | endOfFlags
  | unknown
  deriving DecidableEq, Repr

/-- The meaning of a bundle of one letter flags: the first letter decides. -/
def shortFlag : List Char → Word
  | 'h' :: _ => .help
  | 'V' :: _ => .version
  | _ => .unknown

/-- The meaning of an argument where flags are possible. A minus sign alone is a path; nothing at
all is no path. -/
def Word.ofArgument (s : String) : Word :=
  if s = "--serial" then .serial
  else if s = "--help" then .help
  else if s = "--version" then .version
  else if s = "--" then .endOfFlags
  else
    match s.toList with
    | [] => .unknown
    | ['-'] => .path
    | '-' :: '-' :: _ => .unknown
    | '-' :: letters => shortFlag letters
    | _ => .path

namespace Request

/-- Reads arguments after those read so far. -/
def parseFrom (a : Arguments) : List String → Option Request
  | [] =>
    match a.paths.reverse with
    | regimes :: first :: rest => some (.check a.serial regimes (first :: rest))
    | _ => none
  | s :: rest =>
    if a.onlyPaths then
      if s.isEmpty then none else parseFrom { a with paths := s :: a.paths } rest
    else
      match Word.ofArgument s with
      | .path => parseFrom { a with paths := s :: a.paths } rest
      | .serial => if a.serial then none else parseFrom { a with serial := true } rest
      | .help => some .help
      | .version => some .version
      | .endOfFlags => parseFrom { a with onlyPaths := true } rest
      | .unknown => none

/-- Reads the arguments; there is no request if they are not used well. -/
def parse (args : List String) : Option Request :=
  parseFrom ⟨false, [], false⟩ args

def files : Request → List String
  | check _ regimes claims => regimes :: claims
  | help | version => []

end Request

/-! ## The command -/

/-- What the command prints, and its exit status. -/
structure Result where
  status : Nat
  output : String
  deriving DecidableEq, Repr

def versionLine : String := "tzcheck 0.1.0\n"

def usage : String := "Usage: tzcheck [--serial] <REGIMES> <VECTORS>...\n"

/-- The exit status of a request that was carried out and found nothing wrong. -/
def success : Nat := 0

/-- The exit status if a claim fails or a file cannot be loaded. -/
def failure : Nat := 1

/-- The exit status if the arguments are not used well. -/
def badUsage : Nat := 2

/-- The printed lines for an outcome: failures, numbers of failures, totals. -/
def summary (o : Outcome) : List String :=
  o.failures.map Failure.text ++
    o.tally.map (fun p => "  " ++ p.1 ++ ": " ++ Text.natural p.2 ++ " failed") ++ [o.text]

/-- Lines as a text, each with a line feed after it. -/
def textOfLines (lines : List String) : String :=
  String.join (lines.map (· ++ "\n"))

def ofOutcome (o : Outcome) : Result :=
  ⟨if o.isSuccess then success else failure, textOfLines (summary o)⟩

/-- Loads the regime file and then the claim files. -/
def load? (read : String → Option String) (regimes : String) (claims : List String) :
    Option (Table × List Batch) :=
  match Load.ofFile regimes (read regimes) with
  | .error _ => none
  | .ok l =>
    match claims.mapM fun path => Batch.ofFile (read path) with
    | .error _ => none
    | .ok batches => some (l.table, batches)

/-- Carries out a request. `read` gives the contents of the files that can be read. The claims are
checked one after the other; a run that need not be serial may also go through its events in
another order, which moves the lines of the failures and nothing else. -/
def perform (read : String → Option String) : Request → Result
  | .help => ⟨success, usage⟩
  | .version => ⟨success, versionLine⟩
  | .check _ regimes claims =>
    match load? read regimes claims with
    | none => ⟨failure, ""⟩
    | some (t, batches) => ofOutcome (runSerially t true batches)

def run (read : String → Option String) (args : List String) : Result :=
  match Request.parse args with
  | some request => perform read request
  | none => ⟨badUsage, ""⟩

end ZoneHistory.Command
