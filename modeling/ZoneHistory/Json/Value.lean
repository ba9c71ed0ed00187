import ZoneHistory.Decimal.Shortest
import ZoneHistory.Dictionary
import ZoneHistory.Text.Digits

/-!
# JSON values

A `Value` holds what a JSON text says: the members of an object in the order of
the text, a number as it was written. A string literal may hold half of a
surrogate pair, which no text has; its content is then `none`.
-/

namespace ZoneHistory.Json

/-- A number as it is written. -/
inductive Numeral where
  /-- Digits alone, after a minus sign or not. -/
  | whole (negative : Bool) (magnitude : Nat)
  /-- Digits with a fraction or an exponent: `coefficient * 10 ^ scale`. -/
  | scaled (negative : Bool) (coefficient : Nat) (scale : Int)
  deriving DecidableEq, Repr

/-- The content of a string literal, unless it holds half of a surrogate pair. -/
abbrev Content := Option String

inductive Value where
  | null
  | bool (b : Bool)
  | number (n : Numeral)
  | string (content : Content)
  | array (items : List Value)
  | object (members : List (Content × Value))

namespace Value

def text (s : String) : Value :=
  string (some s)

def int (n : Int) : Value :=
  number (.whole (decide (n < 0)) n.natAbs)

/-- The value of an integer or of nothing. -/
def intOrNull : Option Int → Value
  | none => null
  | some n => int n

def record (members : List (String × Value)) : Value :=
  object (members.map fun m => (some m.1, m.2))

end Value

/-! ## Integers -/

/-- The integer that a numeral writes. A minus sign before zero makes a fraction of it. -/
def Numeral.integer? : Numeral → Option Int
  | .whole false magnitude => some magnitude
  | .whole true magnitude => if magnitude = 0 then none else some (-magnitude)
  | .scaled _ _ _ => none

/-- The integers that annotations keep as they are: those of 64 bits, with a sign or without. -/
def integers64 : Text.IntegerRange := ⟨-9223372036854775808, 18446744073709551615⟩

/-- A numeral as annotations show it: an integer of 64 bits, or else the shortest decimal that
reads back as the nearest floating point number. There is none for a number too large. -/
def Numeral.normal? (n : Numeral) : Option Numeral :=
  let rounded (negative : Bool) (coefficient : Nat) (scale : Int) : Option Numeral := do
    let x ← Decimal.Binary64.ofDecimal? coefficient scale
    return .scaled negative x.shortest.coefficient x.shortest.scale
  match n with
  | .scaled negative coefficient scale => rounded negative coefficient scale
  | .whole negative magnitude =>
    match n.integer? with
    | some i => if integers64.contains i then some n else rounded negative magnitude 0
    | none => rounded negative magnitude 0

/-! ## Readable values -/

mutual

/-- The value with every object in ascending order of its keys and every numeral in normal form.
There is none if a string is no text or a number is too large. -/
def Value.normal? : Value → Option Value
  | .null => some .null
  | .bool b => some (.bool b)
  | .number n => n.normal?.map .number
  | .string content => content.map .text
  | .array items => (normalItems? items).map .array
  | .object members => (normalMembers? members).map fun ms => .record (Dictionary.ofList ms)

def normalItems? : List Value → Option (List Value)
  | [] => some []
  | v :: rest => do
    let v ← v.normal?
    let rest ← normalItems? rest
    return v :: rest

/-- The members with their keys as texts and their values in normal form. -/
def normalMembers? : List (Content × Value) → Option (List (String × Value))
  | [] => some []
  | (key, v) :: rest => do
    let key ← key
    let v ← v.normal?
    let rest ← normalMembers? rest
    return (key, v) :: rest

end

mutual

/-- Whether at most `levels` arrays and objects lie within each other. -/
def Value.fits (levels : Nat) : Value → Bool
  | .array items =>
    match levels with
    | 0 => false
    | inner + 1 => itemsFit inner items
  | .object members =>
    match levels with
    | 0 => false
    | inner + 1 => membersFit inner members
  | _ => true

def itemsFit (levels : Nat) : List Value → Bool
  | [] => true
  | v :: rest => v.fits levels && itemsFit levels rest

def membersFit (levels : Nat) : List (Content × Value) → Bool
  | [] => true
  | (_, v) :: rest => v.fits levels && membersFit levels rest

end

end ZoneHistory.Json
