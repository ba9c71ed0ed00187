import ZoneHistory.Json.Token

/-!
# Reading JSON

`Value.read?` reads the one value of a JSON text. The reader keeps the arrays and
objects that are still open on a stack, so it can read nested values of any
depth, and takes one token at a time: `Reading.step` says what may come next.
-/

namespace ZoneHistory.Json

/-- An array or object that is still open, with what it holds so far in reverse. -/
inductive Frame where
  | array (items : List Value)
  /-- The value of `key` comes next. -/
  | object (members : List (Content × Value)) (key : Content)

/-- What the reader has read and what may come next. The stack holds the open frames, the
innermost first. -/
inductive Progress where
  /-- A value; or the end of an array that has just begun, if `mayClose` is set. -/
  | value (mayClose : Bool) (stack : List Frame)
  /-- A key; or the end of an object that has just begun, if `mayClose` is set. -/
  | key (mayClose : Bool) (members : List (Content × Value)) (stack : List Frame)
  /-- The colon after a key. -/
  | colon (key : Content) (members : List (Content × Value)) (stack : List Frame)
  /-- What follows a complete value. -/
  | after (v : Value) (stack : List Frame)

/-- Reads a token where a value may begin. -/
def Progress.begin (mayClose : Bool) (stack : List Frame) : Token → Option Progress
  | .null => some (.after .null stack)
  | .bool b => some (.after (.bool b) stack)
  | .number n => some (.after (.number n) stack)
  | .string content => some (.after (.string content) stack)
  | .openArray => some (.value true (.array [] :: stack))
  | .openObject => some (.key true [] stack)
  | .closeArray =>
    match mayClose, stack with
    | true, .array items :: stack => some (.after (.array items.reverse) stack)
    | _, _ => none
  | _ => none

/-- Reads a token. -/
def Progress.step : Progress → Token → Option Progress
  | .value mayClose stack, t => begin mayClose stack t
  | .key _ members stack, .string content => some (.colon content members stack)
  | .key true members stack, .closeObject => some (.after (.object members.reverse) stack)
  | .colon name members stack, .colon => some (.value false (.object members name :: stack))
  | .after v (.array items :: stack), .comma => some (.value false (.array (v :: items) :: stack))
  | .after v (.array items :: stack), .closeArray =>
    some (.after (.array (v :: items).reverse) stack)
  | .after v (.object members name :: stack), .comma =>
    some (.key false ((name, v) :: members) stack)
  | .after v (.object members name :: stack), .closeObject =>
    some (.after (.object ((name, v) :: members).reverse) stack)
  | _, _ => none

/-- The value read when the tokens end. -/
def Progress.finish? : Progress → Option Value
  | .after v [] => some v
  | _ => none

/-- The value of a list of tokens. -/
def Value.ofTokens? (ts : List Token) : Option Value := do
  let p ← ts.foldlM Progress.step (.value false [])
  p.finish?

/-- The value of a JSON text. -/
def Value.read? (s : String) : Option Value := do
  let ts ← tokenize s.toList
  ofTokens? ts

end ZoneHistory.Json
