import WeightedAutomata.Number.Numeral

namespace WeightedAutomata

class Number (α : Type) extends Add α, Sub α, Mul α, Div α where
  zero : α
  half : α
  infinity : Bool → α
  nan : α
  isNan : α → Bool
  isInfinite : α → Bool
  isNegative : α → Bool
  abs : α → α
  floor : α → α
  -- No number stands beside one that is not a number.
  le : α → α → Bool
  ofNumeral : Numeral → α
  decimalText : α → List Char

class Exponential (α : Type) extends Number α, Neg α where
  exp : α → α
  log : α → α
  logOnePlus : α → α

namespace Number
variable {α : Type} [Number α]

def min (a b : α) : α :=
  if le a b then a else b

def positiveZero (a : α) : α :=
  if le a zero && le zero a then zero else a

-- The nearest multiple of the step, a half going up.
def quantize (delta a : α) : α :=
  if isInfinite a || isNan a then a else floor (a / delta + half) * delta

end Number
end WeightedAutomata
