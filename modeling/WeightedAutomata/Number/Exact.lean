import WeightedAutomata.Number.Basic

namespace WeightedAutomata

inductive Exact where
  | finite (value : Rat)
  | infinity (negative : Bool)
  | nan
deriving DecidableEq

namespace Exact
open Text

def isNegative : Exact → Bool
  | finite value => value < 0
  | infinity negative => negative
  | nan => false

def neg : Exact → Exact
  | finite value => finite (-value)
  | infinity negative => infinity !negative
  | nan => nan

def add : Exact → Exact → Exact
  | finite a, finite b => finite (a + b)
  | finite _, infinity negative => infinity negative
  | infinity negative, finite _ => infinity negative
  | infinity a, infinity b => if a = b then infinity a else nan
  | _, _ => nan

def signs (a b : Exact) : Bool :=
  a.isNegative != b.isNegative

def mul : Exact → Exact → Exact
  | finite a, finite b => finite (a * b)
  | nan, _ => nan
  | _, nan => nan
  | a, b => if a = finite 0 ∨ b = finite 0 then nan else infinity (signs a b)

def div : Exact → Exact → Exact
  | finite a, finite b =>
    if b ≠ 0 then finite (a / b) else if a = 0 then nan else infinity (a < 0)
  | finite _, infinity _ => finite 0
  | infinity negative, finite b => infinity (signs (infinity negative) (finite b))
  | _, _ => nan

def le : Exact → Exact → Bool
  | nan, _ => false
  | _, nan => false
  | finite a, finite b => a ≤ b
  | infinity true, _ => true
  | _, infinity false => true
  | _, _ => false

def ofNumeral : Numeral → Exact
  | .finite negative digits exponent =>
    let size : Rat := (digits : Rat) * (10 : Rat) ^ exponent
    finite (if negative then -size else size)
  | .infinity negative => infinity negative
  | .nan _ => nan

def text : Exact → List Char
  | finite value =>
    integerText value.num ++ if value.den = 1 then [] else '/' :: naturalText value.den
  | _ => []

instance : Number Exact where
  add := add
  sub a b := add a (neg b)
  mul := mul
  div := div
  zero := finite 0
  half := finite (1 / 2)
  infinity := infinity
  nan := nan
  isNan a := a = nan
  isInfinite
    | infinity _ => true
    | _ => false
  isNegative := isNegative
  abs a := if a.isNegative then neg a else a
  floor
    | finite value => finite value.floor
    | a => a
  le := le
  ofNumeral := ofNumeral
  decimalText := text

end Exact
end WeightedAutomata
