import WeightedAutomata.Weight.Cost

namespace WeightedAutomata

structure Tropical (α : Type) where
  value : α
deriving DecidableEq

namespace Tropical
variable {α : Type}

instance : Reversible (Tropical α) (Tropical α) where
  reverse a := a

instance [Ord α] : Ord (Tropical α) where
  compare a b := compare a.value b.value

variable [Number α]

def plus (a b : Tropical α) : Tropical α :=
  if !Cost.isMember a.value || !Cost.isMember b.value then ⟨Number.nan⟩
  else ⟨Number.min a.value b.value⟩

instance [DecidableEq α] : Weight (Tropical α) where
  zero := ⟨Number.infinity false⟩
  one := ⟨Number.zero⟩
  noWeight := ⟨Number.nan⟩
  plus := plus
  times a b := ⟨Cost.times a.value b.value⟩
  divide _ a b := ⟨Cost.divide a.value b.value⟩
  isZero a := Cost.isZero a.value
  isMember a := Cost.isMember a.value
  properties := { Properties.semiring with commutative := true, idempotent := true, path := true }
  typeName := "tropical"

instance : Rounding (Tropical α) α where
  approxEq delta a b := Cost.approxEq delta a.value b.value
  quantize delta a := ⟨Number.quantize delta a.value⟩

instance : WeightText (Tropical α) where
  print a := Cost.print a.value
  parse text := (Cost.parse "tropical" text).map Tropical.mk

instance : Inhabited (Tropical α) where
  default := ⟨Number.zero⟩

def describe (a : Tropical α) : String :=
  "TropicalWeight(" ++ Cost.print a.value ++ ")"

end Tropical
end WeightedAutomata
