import ZoneHistory.Json.Value

/-!
# Records in JSON

A record with named fields is written as an object or as an array of the fields
in order. In an object fields may stand in any order and be left out, members
with other names are ignored whatever they hold, and a field that occurs twice is
an error. In an array the last fields may be left out.

`Value.fields?` gives the fields as a list in the order of the names. The readers
of single values that follow accept exactly one kind of value each.
-/

namespace ZoneHistory.Json

/-- The value of a field among the members of an object, which must not occur twice. The outer
option is the error, the inner one the absence of the field. -/
def uniqueMember? (members : List (String × Value)) (name : String) : Option (Option Value) :=
  match members.filter (·.1 = name) with
  | [] => some none
  | [m] => some (some m.2)
  | _ => none

/-- The members of an object if all keys are texts. -/
def namedMembers? (members : List (Content × Value)) : Option (List (String × Value)) :=
  members.mapM fun m => m.1.map fun key => (key, m.2)

/-- The fields of a record, in the order of their names, each with its value if it has one. -/
def Value.fields? (names : List String) : Value → Option (List (Option Value))
  | .object members => do
    let members ← namedMembers? members
    names.mapM (uniqueMember? members)
  | .array items =>
    if items.length ≤ names.length then
      some (items.map some ++ List.replicate (names.length - items.length) none)
    else none
  | _ => none

namespace Value

/-- The text of a string. -/
def text? : Value → Option String
  | string content => content
  | _ => none

/-- The integer of a range. -/
def int? (range : Text.IntegerRange) : Value → Option Int
  | number n =>
    match n.integer? with
    | some i => if range.contains i then some i else none
    | none => none
  | _ => none

/-- The natural number of a range. -/
def nat? (range : Text.IntegerRange) (v : Value) : Option Nat :=
  (v.int? range).map Int.toNat

/-- What `read` makes of a value, or nothing for null. -/
def orNull? {α : Type} (read : Value → Option α) : Value → Option (Option α)
  | null => some none
  | v => (read v).map some

/-- What `read` makes of the items of an array. -/
def items? {α : Type} (read : Value → Option α) : Value → Option (List α)
  | array items => items.mapM read
  | _ => none

/-- What `read` makes of the values of the members of an object. Of two members with one key the
later counts. -/
def dictionary? {α : Type} (read : Value → Option α) : Value → Option (Dictionary α)
  | object members => do
    let pairs ← members.mapM fun m => do
      let key ← m.1
      let value ← read m.2
      return (key, value)
    return Dictionary.ofList pairs
  | _ => none

end Value

end ZoneHistory.Json
