import ZoneHistory.Text.Digits

/-!
# Where a reader of source text is

A `Context` is the number of the line being read and the labels of the columns and
lines that are being read at the moment, the innermost first. A `Parse` takes a
context to a value or a `SourceError`, and to a new context either way.

Lines are counted in a word. After the last number that it holds, the next one is
zero, unless sums are checked: then a program stops there (`Parse.checked`).

`within` puts a label around a part and takes it away once the part is read; an
error leaves the label there, so that the context shows where reading stopped.
`labelled` takes it away in either case.
-/

namespace ZoneHistory.Source

/-- The number of a line, and whether counting has run past the last number on the way to it. -/
structure LineCount where
  word : UInt32
  overflowed : Bool
  deriving DecidableEq, Repr

namespace LineCount

def first : LineCount := ⟨1, false⟩

def next (n : LineCount) : LineCount :=
  ⟨n.word + 1, n.overflowed || n.word + 1 == 0⟩

end LineCount

/-- The count of the current line, and the labels of what is being read. -/
structure Context where
  count : LineCount
  spans : List String
  deriving DecidableEq, Repr

namespace Context

def initial : Context := ⟨.first, ["undefined"]⟩

def line (c : Context) : Nat :=
  c.count.word.toNat

def span (c : Context) : String :=
  c.spans.headD "undefined"

def enter (c : Context) (label : String) : Context :=
  { c with spans := label :: c.spans }

/-- The context without its innermost label. -/
def leave (c : Context) : Context :=
  { c with spans := c.spans.tail }

def nextLine (c : Context) : Context :=
  { c with count := c.count.next }

end Context

/-! ## Errors -/

/-- What can be wrong on a line of source text. -/
inductive SourceError where
  /-- A line that should begin a zone does not. -/
  | zoneHeader (line : UInt32)
  /-- A zone has no name. -/
  | missingIdentifier (line : UInt32)
  /-- A column or line is missing. -/
  | endOfLine (line : UInt32) (span : String)
  /-- A column has none of the values it may have. -/
  | unknownValue (line : UInt32) (value : String)
  /-- A column is not the number it should be. -/
  | integer (line : UInt32) (e : Text.IntegerError) (span : String)
  /-- A set of rules is given or asked for by its name. -/
  | namedRule (line : UInt32) (name : String)
  deriving DecidableEq, Repr

namespace SourceError

def line : SourceError → Nat
  | zoneHeader n | missingIdentifier n | endOfLine n _ | unknownValue n _ | integer n _ _
  | namedRule n _ => n.toNat

/-- What is wrong, apart from the line. -/
def reason : SourceError → String
  | zoneHeader _ => "invalid zone header"
  | missingIdentifier _ => "missing zone identifier"
  | endOfLine _ span => "unexpected end of line while parsing " ++ span
  | unknownValue _ value => "unknown value `" ++ value ++ "`"
  | integer _ e span => e.message ++ " while parsing " ++ span
  | namedRule _ name => "named rule `" ++ name ++ "` is not supported"

def message (e : SourceError) : String :=
  "line " ++ Text.natural e.line ++ ": " ++ e.reason

end SourceError

/-! ## Reading in a context -/

/-- A step of reading: a value or an error, and the context after it. -/
def Parse (α : Type) : Type :=
  Context → Except SourceError α × Context

namespace Parse

variable {α β : Type}

def pure (a : α) : Parse α := fun c => (.ok a, c)

/-- Reads with `p` and then, unless that fails, with the step that `f` gives. -/
def bind (p : Parse α) (f : α → Parse β) : Parse β := fun c =>
  match p c with
  | (.ok a, c) => f a c
  | (.error e, c) => (.error e, c)

instance : Monad Parse where
  pure := pure
  bind := bind

/-- Fails with the error that the context determines. -/
def fail (e : Context → SourceError) : Parse α := fun c => (.error (e c), c)

def update (f : Context → Context) : Parse Unit := fun c => (.ok (), f c)

def nextLine : Parse Unit := update Context.nextLine

/-- Reads with `p` under a label, which an error leaves in place. -/
def within (label : String) (p : Parse α) : Parse α := do
  update (·.enter label)
  let a ← p
  update Context.leave
  return a

/-- What `within` returns, it returns for `p`, and the labels are those of `p` less one. -/
theorem within_eq_ok {label : String} {p : Parse α} {c c' : Context} {a : α} :
    within label p c = (.ok a, c') ↔ ∃ d, p (c.enter label) = (.ok a, d) ∧ c' = d.leave := by
  show (match p (c.enter label) with
    | (.ok a, d) => (.ok a, d.leave)
    | (.error e, d) => (.error e, d)) = (Except.ok a, c') ↔ _
  rcases p (c.enter label) with ⟨_ | b, d⟩
  · simp
  · simp only [Prod.mk.injEq, Except.ok.injEq]
    constructor
    · rintro ⟨rfl, rfl⟩
      exact ⟨d, ⟨rfl, rfl⟩, rfl⟩
    · rintro ⟨e, ⟨rfl, rfl⟩, rfl⟩
      exact ⟨rfl, rfl⟩

/-- Reads with `p` under a label, which is taken away again whatever happens. -/
def labelled (label : String) (p : Parse α) : Parse α := fun c =>
  let (result, c) := p (c.enter label)
  (result, c.leave)

/-- The error that a column or line is missing. -/
def endOfLine : Parse α :=
  fail fun c => .endOfLine c.count.word c.span

/-- The error that `value` is none of the values there may be. -/
def unknownValue (value : String) : Parse α :=
  fail fun c => .unknownValue c.count.word value

/-- The first column, which must be there, and the others. -/
def column : List String → Parse (String × List String)
  | [] => endOfLine
  | s :: rest => return (s, rest)

def integer (range : Text.IntegerRange) (s : String) : Parse Int :=
  match Text.readInteger range s with
  | .ok n => return n
  | .error e => fail fun c => .integer c.count.word e c.span

/-- Reads with `p` in a program that checks its sums, from the given line and labels. There is no
outcome if the program has to stop. -/
def checked (p : Parse α) (line : UInt32) (spans : List String) :
    Option (Except SourceError α × UInt32 × List String) :=
  let (result, c) := p ⟨⟨line, false⟩, spans⟩
  if c.count.overflowed then none else some (result, c.count.word, c.spans)

end Parse

end ZoneHistory.Source
