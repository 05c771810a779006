import WeightedAutomata.Number.Basic
import WeightedAutomata.Number.Shortest

namespace WeightedAutomata

-- Sizes are ranked from zero through the finite ones to infinity, and the ranks above
-- infinity are not numbers.
structure Binary64 where
  negative : Bool
  rank : Fin (Nat.pow 2 63)
deriving DecidableEq

namespace Binary64
open Text

def infinityRank : Nat := 2047 * Nat.pow 2 52

def leastExponent : Int := -1074

def zero (negative : Bool) : Binary64 :=
  ⟨negative, 0⟩

def infinity (negative : Bool) : Binary64 :=
  ⟨negative, ⟨infinityRank, by decide⟩⟩

def nan (negative : Bool) : Binary64 :=
  ⟨negative, ⟨infinityRank + Nat.pow 2 51, by decide⟩⟩

def invalid : Binary64 :=
  nan true

def isNan (x : Binary64) : Bool :=
  infinityRank < x.rank

def isInfinite (x : Binary64) : Bool :=
  x.rank == infinityRank

def isZero (x : Binary64) : Bool :=
  x.rank == 0

def significand (x : Binary64) : Nat :=
  if x.rank < Nat.pow 2 52 then x.rank else Nat.pow 2 52 + x.rank % Nat.pow 2 52

def exponent (x : Binary64) : Int :=
  if x.rank < Nat.pow 2 52 then leastExponent else x.rank / Nat.pow 2 52 - 1 + leastExponent

def roundHalfEven (numerator denominator : Nat) : Nat :=
  let quotient := numerator / denominator
  let remainder := numerator % denominator
  if 2 * remainder < denominator then quotient
  else if denominator < 2 * remainder then quotient + 1
  else quotient + quotient % 2

-- The logarithms place the ratio up to a factor of four, and one comparison decides.
def ratioExponent (numerator denominator : Nat) : Int :=
  let guess : Int := numerator.log2 - denominator.log2 - 53
  let above :=
    denominator * Nat.pow 2 (53 + guess).toNat ≤ numerator * Nat.pow 2 (-(53 + guess)).toNat
  max leastExponent (if above then guess + 1 else guess)

-- Rounding up to the next power of two carries into the exponent, and past the last
-- finite size it gives infinity.
def ratioRank (numerator denominator : Nat) : Nat :=
  if numerator = 0 then 0 else
  let exponent := ratioExponent numerator denominator
  let rounded :=
    roundHalfEven (numerator * Nat.pow 2 (-exponent).toNat) (denominator * Nat.pow 2 exponent.toNat)
  min infinityRank ((exponent - leastExponent).toNat * Nat.pow 2 52 + rounded)

theorem ratioRank_lt (numerator denominator : Nat) :
    ratioRank numerator denominator < Nat.pow 2 63 := by
  unfold ratioRank
  split
  · decide
  · exact Nat.lt_of_le_of_lt (Nat.min_le_left _ _) (by decide)

def ofRatio (negative : Bool) (numerator denominator : Nat) : Binary64 :=
  ⟨negative, ⟨ratioRank numerator denominator, ratioRank_lt numerator denominator⟩⟩

def ofScaled (negative : Bool) (size : Nat) (exponent : Int) : Binary64 :=
  ofRatio negative (size * Nat.pow 2 exponent.toNat) (Nat.pow 2 (-exponent).toNat)

def multiple (x : Binary64) (unit : Int) : Int :=
  let size : Int := x.significand * Nat.pow 2 (x.exponent - unit).toNat
  if x.negative then -size else size

def lift (operation : Binary64 → Binary64 → Binary64) (x y : Binary64) : Binary64 :=
  if x.isNan then x else if y.isNan then y else operation x y

def sum (x y : Binary64) : Binary64 :=
  if x.isInfinite then
    if y.isInfinite && x.negative != y.negative then invalid else x
  else if y.isInfinite then y
  else
    let unit := min x.exponent y.exponent
    let total := x.multiple unit + y.multiple unit
    if total = 0 then zero (x.negative && y.negative)
    else ofScaled (total < 0) total.natAbs unit

def neg (x : Binary64) : Binary64 :=
  { x with negative := !x.negative }

def abs (x : Binary64) : Binary64 :=
  { x with negative := false }

def product (x y : Binary64) : Binary64 :=
  let negative := x.negative != y.negative
  if x.isInfinite || y.isInfinite then
    if x.isZero || y.isZero then invalid else infinity negative
  else ofScaled negative (x.significand * y.significand) (x.exponent + y.exponent)

def quotient (x y : Binary64) : Binary64 :=
  let negative := x.negative != y.negative
  if x.isInfinite then
    if y.isInfinite then invalid else infinity negative
  else if y.isInfinite then zero negative
  else if y.isZero then
    if x.isZero then invalid else infinity negative
  else
    let shift := x.exponent - y.exponent
    ofRatio negative (x.significand * Nat.pow 2 shift.toNat)
      (y.significand * Nat.pow 2 (-shift).toNat)

def floor (x : Binary64) : Binary64 :=
  if x.isNan || x.isInfinite || x.isZero || 0 ≤ x.exponent then x
  else
    let whole := Int.fdiv (x.multiple x.exponent) (Nat.pow 2 (-x.exponent).toNat)
    ofRatio x.negative whole.natAbs 1

def position (x : Binary64) : Int :=
  if x.negative then -x.rank else x.rank

def le (x y : Binary64) : Bool :=
  !x.isNan && !y.isNan && x.position ≤ y.position

def place (x : Binary64) : Int :=
  if x.negative then -x.rank - 1 else x.rank

instance : Ord Binary64 where
  compare x y := compare x.place y.place

-- An exponent far out of range decides without being raised.
def ofNumeral : Numeral → Binary64
  | .nan negative => nan negative
  | .infinity negative => infinity negative
  | .finite negative digits exponent =>
    if digits = 0 then zero negative
    else if 400 < exponent then infinity negative
    else if 3 * exponent + digits.log2 < -1100 then zero negative
    else ofRatio negative (digits * Nat.pow 10 exponent.toNat) (Nat.pow 10 (-exponent).toNat)

def size (x : Binary64) : Shortest.Size :=
  ⟨x.significand, x.exponent, x.significand == Nat.pow 2 52 && leastExponent < x.exponent⟩

def decimalText (x : Binary64) : List Char :=
  let digits :=
    if x.isZero then ['0']
    else
      let (digits, exponent) := x.size.decimal
      Shortest.positional digits exponent
  if x.negative then '-' :: digits else digits

instance : Neg Binary64 := ⟨neg⟩

instance : Number Binary64 where
  zero := zero false
  half := ofRatio false 1 2
  infinity := infinity
  nan := nan false
  isNan := isNan
  isInfinite := isInfinite
  isNegative := Binary64.negative
  add := lift sum
  sub := lift fun x y => sum x (neg y)
  mul := lift product
  div := lift quotient
  abs := abs
  floor := floor
  le := le
  ofNumeral := ofNumeral
  decimalText := decimalText

end Binary64
end WeightedAutomata
