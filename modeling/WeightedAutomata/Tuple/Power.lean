import WeightedAutomata.Tuple.Merge

namespace WeightedAutomata.SparseTuple
open Weight
variable {W R Δ : Type} {width : Width}

-- A sum of two tuples need not be one of them, so the path law is not among these.
def inherited : Properties :=
  { Properties.semiring with commutative := true, idempotent := true }

instance [Weight W] : Weight (SparseTuple W width) where
  zero := uniform zero
  one := uniform one
  noWeight := uniform noWeight
  plus := combine fun _ => plus
  times := combine fun _ => times
  divide side := combine fun _ => divide side
  divideOrZero side := combine fun _ => divideOrZero side
  isMember t := isMember t.background && t.entries.all fun e => isMember e.2
  properties := (properties W).inter inherited
  typeName := typeName W ++ "_^n" ++ width.suffix

instance [Weight W] [Rounding W Δ] : Rounding (SparseTuple W width) Δ where
  approxEq delta s t :=
    (combine (fun _ a b => if Rounding.approxEq delta a b then (one : W) else zero) s t).kind = .one
  quantize delta := mapValues (Rounding.quantize delta)

instance [BEq R] [Reversible W R] : Reversible (SparseTuple W width) (SparseTuple R width) where
  reverse := mapValues Reversible.reverse

instance [Weight W] : Inhabited (SparseTuple W width) where
  default := uniform zero

def scalarTimes [Weight W] (scalar : W) (t : SparseTuple W width) : SparseTuple W width :=
  times (uniform scalar) t

def timesScalar [Weight W] (t : SparseTuple W width) (scalar : W) : SparseTuple W width :=
  times t (uniform scalar)

def divideScalar [Weight W] (side : Side) (t : SparseTuple W width) (scalar : W) :
    SparseTuple W width :=
  divide side t (uniform scalar)

-- The background does not count.
def dotProduct [Weight W] (s t : SparseTuple W width) : W :=
  (times s t).entries.foldl (fun total e => plus total e.2) zero

end WeightedAutomata.SparseTuple
