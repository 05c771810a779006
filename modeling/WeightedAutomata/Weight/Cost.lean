import WeightedAutomata.Number.Basic
import WeightedAutomata.Text.Blank
import WeightedAutomata.Weight.Basic

namespace WeightedAutomata.Cost
open Number
variable {α : Type} [Number α]

def isZero (a : α) : Bool :=
  isInfinite a && !isNegative a

def isMember (a : α) : Bool :=
  !isNan a && !(isInfinite a && isNegative a)

def times (a b : α) : α :=
  if !isMember a || !isMember b then nan else a + b

-- Costs commute, so both sides are the same.
def divide (a b : α) : α :=
  if !isMember a || !isMember b || isZero b then nan
  else if isZero a then infinity false
  else a - b

def approxEq (delta a b : α) : Bool :=
  if isZero a && isZero b then true
  else if isZero a || isZero b then false
  else le (abs (a - b)) delta

def print (a : α) : String :=
  if isInfinite a then if isNegative a then "-Infinity" else "Infinity"
  else if isNan a then "BadNumber"
  else String.ofList (decimalText a)

-- A zero loses its minus sign, so that it is the cost of the empty path.
def parse (typeName text : String) : Except ParseError α :=
  let word := Text.trim text.toList
  if word = "BadNumber".toList then .ok nan
  else match Numeral.read? word with
    | some numeral => .ok (positiveZero (ofNumeral numeral))
    | none => .error (.invalid typeName text)

end WeightedAutomata.Cost
