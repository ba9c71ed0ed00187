import ZoneHistory.Decimal.Binary64

/-!
# The shortest decimal that reads back

The decimals that read back as a floating point number form an interval around
it. `Binary64.shortest` takes the coarsest grid of decimals, of 1 to 17 digits,
that has a point in the interval: the number's two neighbours on the grid are the
ones to look at. Of two hits the nearer counts, and of two equally near ones the
one with the even last digit.
-/

namespace ZoneHistory.Decimal

/-- The decimal `coefficient * 10 ^ scale`. -/
structure Scaled where
  coefficient : Nat
  scale : Int
  deriving DecidableEq, Repr

/-- Moves zeros at the end of the coefficient into the scale, at most `fuel` of them. -/
def Scaled.dropZeros (x : Scaled) : Nat → Scaled
  | 0 => x
  | fuel + 1 =>
    if x.coefficient ≠ 0 ∧ x.coefficient % 10 = 0 then
      dropZeros ⟨x.coefficient / 10, x.scale + 1⟩ fuel
    else x

/-- The same decimal with a coefficient that does not end in a zero; zero has the scale 0. -/
def Scaled.reduced (x : Scaled) : Scaled :=
  if x.coefficient = 0 then ⟨0, 0⟩ else x.dropZeros (Nat.toDigits 10 x.coefficient).length

namespace Binary64

/-- The exponent of the leading decimal digit. The number is multiplied by 10 ^ 400 first, which
makes it an integer of many digits whatever its exponent. -/
def leadingDecimalExponent (x : Binary64) : Int :=
  let scaled :=
    x.significand * powerOfTwo x.exponent.toNat * powerOfTen 400 / powerOfTwo (-x.exponent).toNat
  ((Nat.toDigits 10 scaled).length : Int) - 401

/-- Four times the significand at the lower end of the interval of decimals that read back. The
end is half a step below the number, or a quarter where the steps below are half as wide. -/
def lowerQuarters (x : Binary64) : Nat :=
  if x.significand = powerOfTwo 52 ∧ leastExponent < x.exponent then 4 * x.significand - 1
  else 4 * x.significand - 2

/-- Four times the significand at the upper end of the interval. -/
def upperQuarters (x : Binary64) : Nat :=
  4 * x.significand + 2

/-- The point nearest to the number among the multiples of `10 ^ scale` that read back as it. -/
def onGrid? (x : Binary64) (scale : Int) : Option Scaled :=
  let power := x.exponent - 2
  let unit := powerOfTwo power.toNat * powerOfTen (-scale).toNat
  let step := powerOfTwo (-power).toNat * powerOfTen scale.toNat
  let even := x.significand % 2 = 0
  let readsBack := fun j : Nat =>
    decide (x.lowerQuarters * unit < j * step ∧ j * step < x.upperQuarters * unit ∨
      even ∧ (x.lowerQuarters * unit = j * step ∨ j * step = x.upperQuarters * unit))
  let value := 4 * x.significand * unit
  let below := value / step
  match readsBack below, readsBack (below + 1) with
  | true, true => some ⟨roundHalfEven value step, scale⟩
  | true, false => some ⟨below, scale⟩
  | false, true => some ⟨below + 1, scale⟩
  | false, false => none

/-- The decimal with the fewest digits that reads back as the number. -/
def shortest (x : Binary64) : Scaled :=
  if x.significand = 0 then ⟨0, 0⟩
  else
    let lead := x.leadingDecimalExponent
    match (List.range 17).findSome? fun n : Nat => x.onGrid? (lead - n) with
    | some d => d.reduced
    | none => ⟨0, 0⟩

end Binary64

/-! ## Layout -/

/-- A decimal in text: positional with at least one digit after the point if its leading
exponent lies from -5 to 15, else in scientific notation with a sign before the exponent and a
point only if more digits follow. -/
def Scaled.text (x : Scaled) : String :=
  let x := x.reduced
  let digits := Nat.toDigits 10 x.coefficient
  let lead : Int := ((digits.length : Int) - 1) + x.scale
  if -5 ≤ lead ∧ lead ≤ 15 then
    if 0 ≤ x.scale then
      String.ofList (digits ++ List.replicate x.scale.toNat '0' ++ ['.', '0'])
    else if 0 ≤ lead then
      String.ofList (digits.take (lead.toNat + 1) ++ '.' :: digits.drop (lead.toNat + 1))
    else
      String.ofList ('0' :: '.' :: List.replicate ((-lead).toNat - 1) '0' ++ digits)
  else
    String.ofList (digits.take 1 ++ (if digits.length = 1 then [] else '.' :: digits.drop 1) ++
      'e' :: (if lead < 0 then '-' else '+') :: Nat.toDigits 10 lead.natAbs)

end ZoneHistory.Decimal
