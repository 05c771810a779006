namespace WeightedAutomata

structure Properties where
  leftDistributive : Bool := false
  rightDistributive : Bool := false
  commutative : Bool := false
  idempotent : Bool := false
  -- `a ⊕ b` is `a` or `b`.
  path : Bool := false
deriving DecidableEq

namespace Properties

def none : Properties := {}
def leftSemiring : Properties := { leftDistributive := true }
def rightSemiring : Properties := { rightDistributive := true }
def semiring : Properties := { leftDistributive := true, rightDistributive := true }
def onlyCommutative : Properties := { commutative := true }
def onlyIdempotent : Properties := { idempotent := true }
def onlyPath : Properties := { path := true }

def union (p q : Properties) : Properties where
  leftDistributive := p.leftDistributive || q.leftDistributive
  rightDistributive := p.rightDistributive || q.rightDistributive
  commutative := p.commutative || q.commutative
  idempotent := p.idempotent || q.idempotent
  path := p.path || q.path

def inter (p q : Properties) : Properties where
  leftDistributive := p.leftDistributive && q.leftDistributive
  rightDistributive := p.rightDistributive && q.rightDistributive
  commutative := p.commutative && q.commutative
  idempotent := p.idempotent && q.idempotent
  path := p.path && q.path

def contains (p q : Properties) : Bool :=
  p.inter q == q

def bits (p : Properties) : Nat :=
  p.leftDistributive.toNat + 2 * p.rightDistributive.toNat + 4 * p.commutative.toNat +
    8 * p.idempotent.toNat + 16 * p.path.toNat

def names (p : Properties) : List String :=
  [(p.leftDistributive, "LEFT_SEMIRING"), (p.rightDistributive, "RIGHT_SEMIRING"),
    (p.commutative, "COMMUTATIVE"), (p.idempotent, "IDEMPOTENT"), (p.path, "PATH")].filterMap
    fun (holds, name) => if holds then some name else Option.none

def describe (p : Properties) : String :=
  "Properties(" ++ (if p.names.isEmpty then "NONE" else " | ".intercalate p.names) ++ ")"

end Properties
end WeightedAutomata
