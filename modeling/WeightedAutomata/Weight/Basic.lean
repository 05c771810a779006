import WeightedAutomata.Text.Quoted
import WeightedAutomata.Weight.Properties

namespace WeightedAutomata

-- Divided by `a`, on the left `a ⊗ x` is `x`, and on the right `x ⊗ a` is.
inductive Side where
  | left
  | right
  | any
deriving DecidableEq, Inhabited

-- The interface only names the operations. Which laws hold is told by the properties.
class Weight (W : Type) extends BEq W where
  zero : W
  one : W
  noWeight : W
  plus : W → W → W
  times : W → W → W
  divide : Side → W → W → W
  isZero : W → Bool := fun a => a == zero
  isOne : W → Bool := fun a => a == one
  isMember : W → Bool
  divideOrZero : Side → W → W → W := fun side a b => if isZero b then zero else divide side a b
  properties : Properties
  typeName : String

class Rounding (W : Type) (Δ : outParam Type) where
  approxEq : Δ → W → W → Bool
  quantize : Δ → W → W

class Reversible (W : Type) (R : outParam Type) where
  reverse : W → R

inductive Malformation where
  | unbalancedParentheses
  | keyWithoutValue
deriving DecidableEq

def Malformation.reason : Malformation → String
  | .unbalancedParentheses => "unbalanced parentheses"
  | .keyWithoutValue => "key without a value"

inductive ParseError where
  | invalid (typeName text : String)
  | malformed (typeName text : String) (shape : Malformation)
deriving DecidableEq

def ParseError.message : ParseError → String
  | .invalid typeName text => "invalid " ++ typeName ++ " weight: " ++ Text.quote text
  | .malformed typeName text shape =>
    "malformed " ++ typeName ++ " weight " ++ Text.quote text ++ ": " ++ shape.reason

class WeightText (W : Type) where
  print : W → String
  parse : String → Except ParseError W

end WeightedAutomata
