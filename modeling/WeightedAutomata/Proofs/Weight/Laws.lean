import WeightedAutomata.Reweight

namespace WeightedAutomata
namespace Weight
variable {W : Type} [Weight W]

def Member (a : W) : Prop :=
  isMember a = true

instance : DecidablePred (Member (W := W)) :=
  fun a => inferInstanceAs (Decidable (isMember a = true))

-- A weight type may hold values outside its semiring, which break any law. So the
-- laws are told of the weights in `P`: the members, or all weights of a type that
-- has no others. Neither side of the distributive law is among them.
class Lawful (P : W → Prop) : Prop where
  zero_mem : P zero
  one_mem : P one
  plus_mem : ∀ {a b}, P a → P b → P (plus a b)
  times_mem : ∀ {a b}, P a → P b → P (times a b)
  plus_assoc : ∀ {a b c}, P a → P b → P c → plus (plus a b) c = plus a (plus b c)
  plus_comm : ∀ {a b}, P a → P b → plus a b = plus b a
  zero_plus : ∀ {a}, P a → plus zero a = a
  times_assoc : ∀ {a b c}, P a → P b → P c → times (times a b) c = times a (times b c)
  one_times : ∀ {a}, P a → times one a = a
  times_one : ∀ {a}, P a → times a one = a
  zero_times : ∀ {a}, P a → times zero a = zero
  times_zero : ∀ {a}, P a → times a zero = zero

class Multiplicative (P : W → Prop) : Prop where
  zero_mem : P zero
  one_mem : P one
  times_mem : ∀ {a b}, P a → P b → P (times a b)

instance {P : W → Prop} [Lawful P] : Multiplicative P where
  zero_mem := Lawful.zero_mem
  one_mem := Lawful.one_mem
  times_mem := Lawful.times_mem

class LeftDistributive (P : W → Prop) : Prop where
  times_plus : ∀ {a b c}, P a → P b → P c → times c (plus a b) = plus (times c a) (times c b)

class RightDistributive (P : W → Prop) : Prop where
  plus_times : ∀ {a b c}, P a → P b → P c → times (plus a b) c = plus (times a c) (times b c)

class Truthful (P : W → Prop) : Prop where
  times_plus : (properties W).leftDistributive = true → LeftDistributive P
  plus_times : (properties W).rightDistributive = true → RightDistributive P
  times_comm : (properties W).commutative = true → ∀ {a b}, P a → P b → times a b = times b a
  plus_self : (properties W).idempotent = true → ∀ {a}, P a → plus a a = a

class Tested (P : W → Prop) : Prop where
  isZero_iff : ∀ {a}, P a → (isZero a = true ↔ a = zero)
  isOne_iff : ∀ {a}, P a → (isOne a = true ↔ a = one)

theorem Tested.plain_iff {P : W → Prop} [Tested P] {a : W} (member : P a) :
    (isZero a = true ∨ isOne a = true) ↔ (a = zero ∨ a = one) :=
  or_congr (isZero_iff member) (isOne_iff member)

section Everywhere
variable [Tested (fun _ : W => True)]

theorem Tested.zero_iff {a : W} : isZero a = true ↔ a = zero :=
  isZero_iff (P := fun _ : W => True) trivial

theorem Tested.one_iff {a : W} : isOne a = true ↔ a = one :=
  isOne_iff (P := fun _ : W => True) trivial

end Everywhere
end Weight

namespace Direction
open Weight
variable {W : Type} [Weight W]

def side : Direction → Side
  | toInitial => .left
  | toFinal => .right

def rejoin (direction : Direction) (divisor quotient : W) : W :=
  match direction with
  | toInitial => times divisor quotient
  | toFinal => times quotient divisor

-- Division as a direction uses it: every divisor but zero is cancelled, and the
-- absorbing form differs from division at zero only.
class DividesOut (direction : Direction) (P : W → Prop) : Prop where
  divide_mem : ∀ {a c : W}, P c → P a → a ≠ zero → P (divide direction.side c a)
  rejoin_divide : ∀ {a c : W}, P c → P a → a ≠ zero →
    direction.rejoin a (divide direction.side c a) = c
  divideOrZero_zero : ∀ {c : W}, P c → divideOrZero direction.side c zero = zero
  divideOrZero_eq : ∀ {a c : W}, P c → P a → a ≠ zero →
    divideOrZero direction.side c a = divide direction.side c a

class Distributes (direction : Direction) (P : W → Prop) : Prop where
  rejoin_plus : ∀ {a b c : W}, P a → P b → P c →
    direction.rejoin c (plus a b) = plus (direction.rejoin c a) (direction.rejoin c b)

instance {P : W → Prop} [LeftDistributive P] : toInitial.Distributes P where
  rejoin_plus := LeftDistributive.times_plus

instance {P : W → Prop} [RightDistributive P] : toFinal.Distributes P where
  rejoin_plus := RightDistributive.plus_times

-- What moving weights asks of absorbing division, apart from cancelling.
class Absorbs (direction : Direction) (P : W → Prop) : Prop where
  divideOrZero_mem : ∀ {a c : W}, P c → P a → P (divideOrZero direction.side c a)
  divideOrZero_zero : ∀ {c : W}, P c → divideOrZero direction.side c zero = zero
  zero_divideOrZero : ∀ {a : W}, P a → divideOrZero direction.side zero a = zero
  one_divideOrZero_one : divideOrZero direction.side (one : W) one = one

class Dividing (direction : Direction) (P : W → Prop) : Prop where
  divideOrZero_mem : ∀ {a c : W}, P c → P a → P (divideOrZero direction.side c a)

variable {P : W → Prop} {direction : Direction} {a c : W}

instance [absorbs : direction.Absorbs P] : direction.Dividing P where
  divideOrZero_mem := absorbs.divideOrZero_mem

theorem divideOrZero_mem (direction : Direction) [absorbs : direction.Absorbs P] (dividend : P c)
    (divisor : P a) : P (divideOrZero direction.side c a) :=
  absorbs.divideOrZero_mem dividend divisor

theorem rejoin_divideOrZero (direction : Direction) [divides : direction.DividesOut P]
    (dividend : P c) (divisor : P a) (nonzero : a ≠ zero) :
    direction.rejoin a (divideOrZero direction.side c a) = c := by
  rw [divides.divideOrZero_eq dividend divisor nonzero]
  exact divides.rejoin_divide dividend divisor nonzero

theorem one_ne_zero_of_ne [Lawful P] (member : P a) (nonzero : a ≠ zero) : (one : W) ≠ zero := by
  intro trivial
  apply nonzero
  rw [← Lawful.one_times member, trivial, Lawful.zero_times member]

theorem eq_of_inverse [Lawful P] {b d : W} (aMember : P a) (bMember : P b) (dMember : P d)
    (after : times a b = one) (before : times b d = one) : a = d :=
  calc a = times a (times b d) := by rw [before, Lawful.times_one aMember]
    _ = times (times a b) d := (Lawful.times_assoc aMember bMember dMember).symm
    _ = d := by rw [after, Lawful.one_times dMember]

-- Weights that cancel on one side have an inverse, which is one on both sides.
theorem exists_inverse [Lawful P] (direction : Direction) [divides : direction.DividesOut P]
    (member : P a) (nonzero : a ≠ zero) :
    ∃ b, P b ∧ times a b = one ∧ times b a = one := by
  have proper : (one : W) ≠ zero := one_ne_zero_of_ne member nonzero
  have unit : P (one : W) := Lawful.one_mem
  cases direction with
  | toInitial =>
    have inverse : P (divide .left one a) := divides.divide_mem unit member nonzero
    have cancels : times a (divide .left one a) = one :=
      divides.rejoin_divide unit member nonzero
    have inverseNonzero : divide .left one a ≠ zero := by
      intro none
      rw [none, Lawful.times_zero member] at cancels
      exact proper cancels.symm
    have back : P (divide .left one (divide .left one a)) :=
      divides.divide_mem unit inverse inverseNonzero
    have backCancels : times (divide .left one a) (divide .left one (divide .left one a)) = one :=
      divides.rejoin_divide unit inverse inverseNonzero
    have same := eq_of_inverse member inverse back cancels backCancels
    rw [← same] at backCancels
    exact ⟨_, inverse, cancels, backCancels⟩
  | toFinal =>
    have inverse : P (divide .right one a) := divides.divide_mem unit member nonzero
    have cancels : times (divide .right one a) a = one :=
      divides.rejoin_divide unit member nonzero
    have inverseNonzero : divide .right one a ≠ zero := by
      intro none
      rw [none, Lawful.zero_times member] at cancels
      exact proper cancels.symm
    have back : P (divide .right one (divide .right one a)) :=
      divides.divide_mem unit inverse inverseNonzero
    have backCancels :
        times (divide .right one (divide .right one a)) (divide .right one a) = one :=
      divides.rejoin_divide unit inverse inverseNonzero
    have same := eq_of_inverse back inverse member backCancels cancels
    rw [same] at backCancels
    exact ⟨_, inverse, backCancels, cancels⟩

theorem rejoin_injective [Lawful P] (direction : Direction) [direction.DividesOut P]
    {x y : W} (divisor : P a) (nonzero : a ≠ zero) (left : P x) (right : P y)
    (same : direction.rejoin a x = direction.rejoin a y) : x = y := by
  obtain ⟨b, inverse, after, before⟩ := exists_inverse direction divisor nonzero
  cases direction with
  | toInitial =>
    change times a x = times a y at same
    rw [← Lawful.one_times left, ← Lawful.one_times right, ← before,
      Lawful.times_assoc inverse divisor left, Lawful.times_assoc inverse divisor right, same]
  | toFinal =>
    change times x a = times y a at same
    rw [← Lawful.times_one left, ← Lawful.times_one right, ← after,
      ← Lawful.times_assoc left divisor inverse, ← Lawful.times_assoc right divisor inverse, same]

instance [Lawful P] [divides : direction.DividesOut P] : direction.Absorbs P where
  divideOrZero_mem := by
    intro a c dividend divisor
    by_cases zero : a = Weight.zero
    · subst a
      rw [divides.divideOrZero_zero dividend]
      exact Lawful.zero_mem
    · rw [divides.divideOrZero_eq dividend divisor zero]
      exact divides.divide_mem dividend divisor zero
  divideOrZero_zero := divides.divideOrZero_zero
  zero_divideOrZero := by
    intro a divisor
    have dividend : P (zero : W) := Lawful.zero_mem
    by_cases zero : a = Weight.zero
    · subst a
      exact divides.divideOrZero_zero dividend
    · have rejoined := rejoin_divideOrZero direction dividend divisor zero
      rw [divides.divideOrZero_eq dividend divisor zero] at rejoined ⊢
      apply rejoin_injective direction divisor zero (divides.divide_mem dividend divisor zero)
        dividend
      rw [rejoined]
      cases direction with
      | toInitial => exact (Lawful.times_zero divisor).symm
      | toFinal => exact (Lawful.zero_times divisor).symm
  one_divideOrZero_one := by
    have unit : P (one : W) := Lawful.one_mem
    by_cases trivial : (one : W) = zero
    · rw [trivial]
      exact divides.divideOrZero_zero Lawful.zero_mem
    · have rejoined := rejoin_divideOrZero direction unit unit trivial
      rw [divides.divideOrZero_eq unit unit trivial] at rejoined ⊢
      apply rejoin_injective direction unit trivial (divides.divide_mem unit unit trivial) unit
      rw [rejoined]
      cases direction with
      | toInitial => exact (Lawful.one_times unit).symm
      | toFinal => exact (Lawful.one_times unit).symm

section Quotients
variable [Lawful P] {b : W}

theorem divideOrZero_self (direction : Direction) [direction.DividesOut P] (member : P a)
    (nonzero : a ≠ zero) : divideOrZero direction.side a a = one := by
  apply rejoin_injective direction member nonzero (divideOrZero_mem direction member member)
    Lawful.one_mem
  rw [rejoin_divideOrZero direction member member nonzero]
  cases direction with
  | toInitial => exact (Lawful.times_one member).symm
  | toFinal => exact (Lawful.one_times member).symm

theorem divideOrZero_plus (direction : Direction) [direction.DividesOut P]
    [distributes : direction.Distributes P] (left : P b) (right : P c) (divisor : P a)
    (nonzero : a ≠ zero) : divideOrZero direction.side (plus b c) a =
      plus (divideOrZero direction.side b a) (divideOrZero direction.side c a) := by
  have leftMember : P (divideOrZero direction.side b a) := divideOrZero_mem direction left divisor
  have rightMember : P (divideOrZero direction.side c a) := divideOrZero_mem direction right divisor
  have dividend : P (plus b c) := Lawful.plus_mem left right
  apply rejoin_injective direction divisor nonzero (divideOrZero_mem direction dividend divisor)
    (Lawful.plus_mem leftMember rightMember)
  rw [rejoin_divideOrZero direction dividend divisor nonzero,
    distributes.rejoin_plus leftMember rightMember divisor,
    rejoin_divideOrZero direction left divisor nonzero,
    rejoin_divideOrZero direction right divisor nonzero]

end Quotients
end Direction
end WeightedAutomata
