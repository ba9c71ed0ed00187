/-!
# Binary floating point numbers of 64 bits

A non-negative finite number of the format is `significand * 2 ^ exponent` with
a significand below `2 ^ 53`. `Binary64.ofDecimal?` takes the number nearest to a
decimal, and of two equally near ones the one with the even significand.

All arithmetic is on exact natural numbers.
-/

namespace ZoneHistory.Decimal

def powerOfTwo (n : Nat) : Nat := Nat.pow 2 n

def powerOfTen (n : Nat) : Nat := Nat.pow 10 n

/-- A quotient rounded to the nearest integer, and to the even one if two are equally near. -/
def roundHalfEven (num den : Nat) : Nat :=
  let quotient := num / den
  let twice := 2 * (num % den)
  if twice < den then quotient
  else if den < twice then quotient + 1
  else quotient + quotient % 2

/-- A non-negative finite number of the format. -/
structure Binary64 where
  significand : Nat
  exponent : Int
  deriving DecidableEq, Repr

namespace Binary64

def leastExponent : Int := -1074

def greatestExponent : Int := 971

def zero : Binary64 := ⟨0, leastExponent⟩

/-- The exponent of the leading binary digit of `num / den`. -/
def leadingExponent (num den : Nat) : Int :=
  let guess : Int := (num.log2 : Int) - den.log2
  if den * powerOfTwo guess.toNat ≤ num * powerOfTwo (-guess).toNat then guess else guess - 1

/-- The number nearest to `num / den`, unless it is too large for the format. -/
def ofRatio? (num den : Nat) : Option Binary64 :=
  let exponent := max (leadingExponent num den - 52) leastExponent
  let significand :=
    roundHalfEven (num * powerOfTwo (-exponent).toNat) (den * powerOfTwo exponent.toNat)
  let x : Binary64 :=
    if significand = powerOfTwo 53 then ⟨powerOfTwo 52, exponent + 1⟩ else ⟨significand, exponent⟩
  if x.exponent ≤ greatestExponent then some x else none

/-- The number nearest to `coefficient * 10 ^ scale`, unless it is too large for the format.
Decimals beyond 10 ^ 310 are too large and those below 10 ^ -330 are nearest to zero, so the
powers of ten stay small. -/
def ofDecimal? (coefficient : Nat) (scale : Int) : Option Binary64 :=
  let size : Int := ((Nat.toDigits 10 coefficient).length : Int) + scale
  if coefficient = 0 then some zero
  else if 310 < size then none
  else if size < -330 then some zero
  else ofRatio? (coefficient * powerOfTen scale.toNat) (powerOfTen (-scale).toNat)

end Binary64

end ZoneHistory.Decimal
