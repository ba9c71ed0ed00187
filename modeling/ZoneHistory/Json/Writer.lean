import ZoneHistory.Json.Value

/-!
# Writing JSON

Two layouts: `Value.compact` has no blanks, and `Value.pretty` puts every item
and member on a line of its own, indented by two spaces for each level, while an
empty array or object stays on its line.

A quote, a backslash and the characters below the space are escaped, all others
stand for themselves.
-/

namespace ZoneHistory.Json

/-! ## Scalars -/

def hexDigit (n : Nat) : Char :=
  Nat.digitChar n

def escape (c : Char) : List Char :=
  if c = '"' then ['\\', '"']
  else if c = '\\' then ['\\', '\\']
  else if c = '\n' then ['\\', 'n']
  else if c = '\r' then ['\\', 'r']
  else if c = '\t' then ['\\', 't']
  else if c.toNat = 0x08 then ['\\', 'b']
  else if c.toNat = 0x0C then ['\\', 'f']
  else if c.toNat < 0x20 then
    ['\\', 'u', '0', '0', hexDigit (c.toNat / 16), hexDigit (c.toNat % 16)]
  else [c]

/-- A string literal. A content that is no text is written as half of a surrogate pair. -/
def quoted : Content → List Char
  | some s => '"' :: s.toList.flatMap escape ++ ['"']
  | none => ['"', '\\', 'u', 'd', '8', '0', '0', '"']

/-- A numeral: a whole one as digits, any other as a decimal with a fraction or an exponent. -/
def Numeral.chars : Numeral → List Char
  | .whole negative magnitude => (if negative then ['-'] else []) ++ Text.digits magnitude
  | .scaled negative coefficient scale =>
    (if negative then ['-'] else []) ++ (Decimal.Scaled.text ⟨coefficient, scale⟩).toList

/-! ## Compact layout -/

mutual

/-- The value without any blanks. -/
def Value.compactChars : Value → List Char
  | .null => "null".toList
  | .bool true => "true".toList
  | .bool false => "false".toList
  | .number n => n.chars
  | .string content => quoted content
  | .array items => '[' :: compactItems items ++ [']']
  | .object members => '{' :: compactMembers members ++ ['}']

def compactItems : List Value → List Char
  | [] => []
  | [v] => v.compactChars
  | v :: rest => v.compactChars ++ ',' :: compactItems rest

def compactMembers : List (Content × Value) → List Char
  | [] => []
  | [(key, v)] => quoted key ++ ':' :: v.compactChars
  | (key, v) :: rest => quoted key ++ ':' :: v.compactChars ++ ',' :: compactMembers rest

end

/-- The value without any blanks. -/
def Value.compact (v : Value) : String :=
  String.ofList v.compactChars

/-! ## Pretty layout -/

/-- The end of a line and the indentation of the next one. -/
def newLine (level : Nat) : List Char :=
  '\n' :: List.replicate (2 * level) ' '

mutual

/-- The value with its items and members indented by one level more than its own line. -/
def Value.prettyChars (level : Nat) : Value → List Char
  | .null => "null".toList
  | .bool true => "true".toList
  | .bool false => "false".toList
  | .number n => n.chars
  | .string content => quoted content
  | .array [] => ['[', ']']
  | .array items => '[' :: prettyItems (level + 1) items ++ newLine level ++ [']']
  | .object [] => ['{', '}']
  | .object members => '{' :: prettyMembers (level + 1) members ++ newLine level ++ ['}']

def prettyItems (level : Nat) : List Value → List Char
  | [] => []
  | [v] => newLine level ++ v.prettyChars level
  | v :: rest => newLine level ++ v.prettyChars level ++ ',' :: prettyItems level rest

def prettyMembers (level : Nat) : List (Content × Value) → List Char
  | [] => []
  | [(key, v)] => newLine level ++ quoted key ++ ':' :: ' ' :: v.prettyChars level
  | (key, v) :: rest =>
    newLine level ++ quoted key ++ ':' :: ' ' :: v.prettyChars level ++
      ',' :: prettyMembers level rest

end

/-- The value on as many lines as it has parts. -/
def Value.pretty (v : Value) : String :=
  String.ofList (v.prettyChars 0)

end ZoneHistory.Json
