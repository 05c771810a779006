import WeightedAutomata.Number.Binary64

namespace WeightedAutomata.Binary64

def toFloat (x : Binary64) : Float :=
  Float.ofBits (UInt64.ofNat ((if x.negative then Nat.pow 2 63 else 0) + x.rank))

def ofFloat (x : Float) : Binary64 :=
  let bits := x.toBits.toNat
  ⟨Nat.pow 2 63 ≤ bits, ⟨bits % Nat.pow 2 63, Nat.mod_lt _ (by decide)⟩⟩

def exp (x : Binary64) : Binary64 :=
  if x.isNan then x else ofFloat x.toFloat.exp

def log (x : Binary64) : Binary64 :=
  if x.isNan then x
  else if x.negative && !x.isZero then invalid
  else ofFloat x.toFloat.log

-- Where the sum drops digits of a small number, the quotient puts them back.
def logOnePlus (x : Binary64) : Binary64 :=
  if x.isNan then x
  else
    let small := x.toFloat
    let sum := 1 + small
    ofFloat (if sum == 1 then small else small * (sum.log / (sum - 1)))

instance : Exponential Binary64 where
  exp := exp
  log := log
  logOnePlus := logOnePlus

end WeightedAutomata.Binary64
