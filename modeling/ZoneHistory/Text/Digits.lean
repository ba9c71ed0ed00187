/-!
# Whole numbers in text

Writing: `natural`, `padded` with zeros on the left up to a width, and `signed`.
Reading: `readInteger` accepts an optional sign and decimal digits whose value
lies in a range. A range without negative numbers accepts no minus sign. The
first character that cannot be read decides the error; at one character, "not a
digit" comes before "too large".
-/

namespace ZoneHistory.Text

/-! ## Writing -/

/-- The decimal digits of a natural number. -/
def digits (n : Nat) : List Char :=
  Nat.toDigits 10 n

def natural (n : Nat) : String :=
  String.ofList (digits n)

/-- The decimal digits of a natural number, with zeros before them up to `width` characters. -/
def padded (width n : Nat) : String :=
  String.ofList (List.replicate (width - (digits n).length) '0' ++ digits n)

/-- An integer in decimal, with a minus sign if it is negative. -/
def signed (n : Int) : String :=
  if n < 0 then "-" ++ natural n.natAbs else natural n.natAbs

/-- An integer in at least `width` characters: the sign, if any, counts as one, and zeros
stand between it and the digits. -/
def paddedSigned (width : Nat) (n : Int) : String :=
  if n < 0 then "-" ++ padded (width - 1) n.natAbs else padded width n.natAbs

/-! ## Reading -/

/-- Why a text is no integer of a range. -/
inductive IntegerError where
  | empty
  | invalidDigit
  | tooLarge
  | tooSmall
  deriving DecidableEq, Repr

def IntegerError.message : IntegerError → String
  | .empty => "cannot parse integer from empty string"
  | .invalidDigit => "invalid digit found in string"
  | .tooLarge => "number too large to fit in target type"
  | .tooSmall => "number too small to fit in target type"

/-- The integers from `least` to `greatest`. -/
structure IntegerRange where
  least : Int
  greatest : Int
  deriving DecidableEq, Repr

namespace IntegerRange

def signed8 : IntegerRange := ⟨-128, 127⟩

def unsigned8 : IntegerRange := ⟨0, 255⟩

def unsigned16 : IntegerRange := ⟨0, 65535⟩

def signed32 : IntegerRange := ⟨-2147483648, 2147483647⟩

def signed64 : IntegerRange := ⟨-9223372036854775808, 9223372036854775807⟩

def contains (range : IntegerRange) (n : Int) : Bool :=
  decide (range.least ≤ n) && decide (n ≤ range.greatest)

end IntegerRange

/-- The value of a decimal digit. -/
def digitValue? (c : Char) : Option Nat :=
  if c.isDigit then some (c.toNat - '0'.toNat) else none

/-- Reads digits after the value `n`, upwards to the greatest number of the range. -/
def readUp (range : IntegerRange) : List Char → Int → Except IntegerError Int
  | [], n => .ok n
  | c :: cs, n =>
    match digitValue? c with
    | none => .error .invalidDigit
    | some d =>
      if range.greatest < n * 10 + d then .error .tooLarge else readUp range cs (n * 10 + d)

/-- Reads digits after the value `n`, downwards to the least number of the range. -/
def readDown (range : IntegerRange) : List Char → Int → Except IntegerError Int
  | [], n => .ok n
  | c :: cs, n =>
    match digitValue? c with
    | none => .error .invalidDigit
    | some d =>
      if n * 10 - d < range.least then .error .tooSmall else readDown range cs (n * 10 - d)

/-- Reads an integer of the range from the characters of a text. -/
def readIntegerOf (range : IntegerRange) : List Char → Except IntegerError Int
  | [] => .error .empty
  | ['+'] | ['-'] => .error .invalidDigit
  | '+' :: cs => readUp range cs 0
  | '-' :: cs => if range.least < 0 then readDown range cs 0 else .error .invalidDigit
  | cs => readUp range cs 0

def readInteger (range : IntegerRange) (s : String) : Except IntegerError Int :=
  readIntegerOf range s.toList

end ZoneHistory.Text
