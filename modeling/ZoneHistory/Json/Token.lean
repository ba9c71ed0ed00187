import ZoneHistory.Json.Value

/-!
# JSON tokens

`tokenize` takes a JSON text apart into tokens, one character at a time: between
tokens, within a bare word (a number or a keyword), within a string literal, after
a backslash, or within the four digits of an escaped code unit. A bare word ends
at the next blank, bracket, brace, comma, colon or quote, and is then read as a
whole by `Token.ofWord?`.
-/

namespace ZoneHistory.Json

/-- A token of a JSON text. -/
inductive Token where
  | openArray
  | closeArray
  | openObject
  | closeObject
  | comma
  | colon
  | null
  | bool (b : Bool)
  | number (n : Numeral)
  | string (content : Content)
  deriving DecidableEq, Repr

/-! ## Numbers and keywords -/

/-- The number that decimal digits write. -/
def valueOfDigits (ds : List Char) : Nat :=
  ds.foldl (fun n d => n * 10 + (d.toNat - '0'.toNat)) 0

/-- Reads an exponent: a sign or none, and digits. -/
def exponentOf? (cs : List Char) : Option Int :=
  let read (ds : List Char) : Option Int :=
    if ds.isEmpty || !ds.all Char.isDigit then none else some (valueOfDigits ds)
  match cs with
  | '+' :: ds => read ds
  | '-' :: ds => (read ds).map (-·)
  | ds => read ds

/-- Reads what follows the whole digits of a numeral: a fraction, an exponent or both. -/
def fractionOf? (negative : Bool) (whole rest : List Char) : Option Numeral := do
  let (fraction, rest) ← match rest with
    | '.' :: r =>
      let ds := r.takeWhile Char.isDigit
      if ds.isEmpty then none else some (ds, r.dropWhile Char.isDigit)
    | r => some ([], r)
  let exponent ← match rest with
    | [] => some 0
    | e :: r => if e = 'e' ∨ e = 'E' then exponentOf? r else none
  return .scaled negative (valueOfDigits (whole ++ fraction)) (exponent - fraction.length)

/-- Reads a numeral. Whole digits are a zero alone or begin with another digit. -/
def Numeral.ofChars? (cs : List Char) : Option Numeral :=
  let negative := cs.head? = some '-'
  let unsigned := if negative then cs.tail else cs
  let whole := unsigned.takeWhile Char.isDigit
  let rest := unsigned.dropWhile Char.isDigit
  if whole.isEmpty || (whole.head? = some '0' && whole.length != 1) then none
  else if rest.isEmpty then some (.whole negative (valueOfDigits whole))
  else fractionOf? negative whole rest

/-- Reads a bare word. -/
def Token.ofWord? (word : List Char) : Option Token :=
  if word = "null".toList then some .null
  else if word = "true".toList then some (.bool true)
  else if word = "false".toList then some (.bool false)
  else (Numeral.ofChars? word).map .number

/-! ## Strings -/

/-- The first halves of surrogate pairs. -/
def isHighSurrogate (unit : Nat) : Bool :=
  0xD800 ≤ unit && unit ≤ 0xDBFF

/-- The second halves of surrogate pairs. -/
def isLowSurrogate (unit : Nat) : Bool :=
  0xDC00 ≤ unit && unit ≤ 0xDFFF

/-- The characters of a string literal, given as code points and halves of surrogate pairs. -/
def charsOfUnits? : List Nat → Option (List Char)
  | [] => some []
  | unit :: rest =>
    if isHighSurrogate unit then
      match rest with
      | low :: rest =>
        if isLowSurrogate low then
          (charsOfUnits? rest).map
            (Char.ofNat (0x10000 + (unit - 0xD800) * 0x400 + (low - 0xDC00)) :: ·)
        else none
      | [] => none
    else if isLowSurrogate unit then none
    else (charsOfUnits? rest).map (Char.ofNat unit :: ·)

/-- The content of a string literal. -/
def contentOfUnits (units : List Nat) : Content :=
  (charsOfUnits? units).map String.ofList

/-- The code point that a letter after a backslash stands for. -/
def escapedUnit? : Char → Option Nat
  | '"' => some 0x22
  | '\\' => some 0x5C
  | '/' => some 0x2F
  | 'b' => some 0x08
  | 'f' => some 0x0C
  | 'n' => some 0x0A
  | 'r' => some 0x0D
  | 't' => some 0x09
  | _ => none

/-- The value of a hexadecimal digit. -/
def hexDigitValue? (c : Char) : Option Nat :=
  if c.isDigit then some (c.toNat - '0'.toNat)
  else if 'a' ≤ c ∧ c ≤ 'f' then some (c.toNat - 'a'.toNat + 10)
  else if 'A' ≤ c ∧ c ≤ 'F' then some (c.toNat - 'A'.toNat + 10)
  else none

/-! ## The scanner -/

/-- The blanks of JSON. -/
def isJsonBlank (c : Char) : Bool :=
  c == ' ' || c == '\t' || c == '\n' || c == '\r'

/-- The token that a punctuation character is. -/
def punctuation? : Char → Option Token
  | '[' => some .openArray
  | ']' => some .closeArray
  | '{' => some .openObject
  | '}' => some .closeObject
  | ',' => some .comma
  | ':' => some .colon
  | _ => none

/-- Where in the text the scanner is. What has been read of a token stands in reverse. -/
inductive Place where
  | between
  | word (letters : List Char)
  | string (units : List Nat)
  | escape (units : List Nat)
  | hex (units : List Nat) (value : Nat) (digits : Nat)
  deriving DecidableEq, Repr

/-- The place of the scanner and the tokens read so far, in reverse. -/
structure Scan where
  place : Place
  tokens : List Token
  deriving DecidableEq, Repr

/-- Reads a character between tokens. -/
def Scan.start (tokens : List Token) (c : Char) : Scan :=
  if isJsonBlank c then ⟨.between, tokens⟩
  else if c = '"' then ⟨.string [], tokens⟩
  else
    match punctuation? c with
    | some t => ⟨.between, t :: tokens⟩
    | none => ⟨.word [c], tokens⟩

/-- Whether a character ends a bare word. -/
def endsWord (c : Char) : Bool :=
  isJsonBlank c || c == '"' || (punctuation? c).isSome

/-- Reads a character. -/
def Scan.step (s : Scan) (c : Char) : Option Scan :=
  match s.place with
  | .between => some (start s.tokens c)
  | .word letters =>
    if endsWord c then
      (Token.ofWord? letters.reverse).map fun t => start (t :: s.tokens) c
    else some ⟨.word (c :: letters), s.tokens⟩
  | .string units =>
    if c = '"' then some ⟨.between, .string (contentOfUnits units.reverse) :: s.tokens⟩
    else if c = '\\' then some ⟨.escape units, s.tokens⟩
    else if c.toNat < 0x20 then none
    else some ⟨.string (c.toNat :: units), s.tokens⟩
  | .escape units =>
    if c = 'u' then some ⟨.hex units 0 4, s.tokens⟩
    else (escapedUnit? c).map fun unit => ⟨.string (unit :: units), s.tokens⟩
  | .hex units value digits =>
    (hexDigitValue? c).map fun d =>
      if digits = 1 then ⟨.string ((value * 16 + d) :: units), s.tokens⟩
      else ⟨.hex units (value * 16 + d) (digits - 1), s.tokens⟩

/-- The tokens read when the text ends. -/
def Scan.finish? (s : Scan) : Option (List Token) :=
  match s.place with
  | .between => some s.tokens.reverse
  | .word letters => (Token.ofWord? letters.reverse).map fun t => (t :: s.tokens).reverse
  | _ => none

/-- The tokens of a JSON text. -/
def tokenize (cs : List Char) : Option (List Token) := do
  let s ← cs.foldlM Scan.step ⟨.between, []⟩
  s.finish?

end ZoneHistory.Json
