import WeightedAutomata.Weight.Cost

namespace WeightedAutomata

structure Log (α : Type) where
  value : α
deriving DecidableEq

namespace Log
open Number
variable {α : Type}

instance : Reversible (Log α) (Log α) where
  reverse a := a

instance [Ord α] : Ord (Log α) where
  compare a b := compare a.value b.value

section
variable [Exponential α]

-- The smaller cost less a correction between zero and the logarithm of two, so no power
-- overflows.
def logSum (a b : α) : α :=
  if Cost.isZero a then b
  else if Cost.isZero b then a
  else Number.min a b - Exponential.logOnePlus (Exponential.exp (-(abs (a - b))))

def plus (a b : Log α) : Log α :=
  if !Cost.isMember a.value || !Cost.isMember b.value then ⟨nan⟩ else ⟨logSum a.value b.value⟩

instance [DecidableEq α] : Weight (Log α) where
  zero := ⟨infinity false⟩
  one := ⟨Number.zero⟩
  noWeight := ⟨nan⟩
  plus := plus
  times a b := ⟨Cost.times a.value b.value⟩
  divide _ a b := ⟨Cost.divide a.value b.value⟩
  isZero a := Cost.isZero a.value
  isMember a := Cost.isMember a.value
  properties := { Properties.semiring with commutative := true }
  typeName := "log"

def ofProbability (p : α) : Log α :=
  ⟨positiveZero (-(Exponential.log p))⟩

def toProbability (a : Log α) : α :=
  Exponential.exp (-a.value)

end

variable [Number α]

instance : Rounding (Log α) α where
  approxEq delta a b := Cost.approxEq delta a.value b.value
  quantize delta a := ⟨Number.quantize delta a.value⟩

instance : WeightText (Log α) where
  print a := Cost.print a.value
  parse text := (Cost.parse "log" text).map Log.mk

instance : Inhabited (Log α) where
  default := ⟨Number.zero⟩

def describe (a : Log α) : String :=
  "LogWeight(" ++ Cost.print a.value ++ ")"

end Log
end WeightedAutomata
