import Mathlib.Algebra.Field.Rat
import WeightedAutomata.Number.Exact
import WeightedAutomata.Proofs.Weight.Laws

namespace WeightedAutomata

-- Exact numbers that are added where paths meet and multiplied along a path, as chances
-- are. Unlike costs, they can add up to more than what they began with.
structure Chance where
  value : Exact
deriving DecidableEq

namespace Chance
open Weight

instance : Weight Chance where
  zero := ⟨.finite 0⟩
  one := ⟨.finite 1⟩
  noWeight := ⟨.nan⟩
  plus a b := ⟨a.value.add b.value⟩
  times a b := ⟨a.value.mul b.value⟩
  divide _ a b := if b.value = .finite 0 then ⟨.nan⟩ else ⟨a.value.div b.value⟩
  isMember a := match a.value with
    | .finite _ => true
    | _ => false
  properties := { Properties.semiring with commutative := true }
  typeName := "chance"

def of (value : Rat) : Chance :=
  ⟨.finite value⟩

theorem member_of (p : Rat) : Member (of p) :=
  rfl

theorem exists_of {a : Chance} (member : Member a) : ∃ p, a = of p := by
  obtain ⟨value⟩ := a
  cases value with
  | finite p => exact ⟨p, rfl⟩
  | infinity negative => nomatch member
  | nan => nomatch member

theorem plus_of (p q : Rat) : plus (of p) (of q) = of (p + q) := rfl

theorem times_of (p q : Rat) : times (of p) (of q) = of (p * q) := rfl

theorem zero_of : (zero : Chance) = of 0 := rfl

theorem one_of : (one : Chance) = of 1 := rfl

theorem divide_of (side : Side) (p : Rat) {q : Rat} (nonzero : q ≠ 0) :
    divide side (of p) (of q) = of (p / q) := by
  have proper : (of q).value ≠ .finite 0 := fun same => nonzero (Exact.finite.inj same)
  change (if (of q).value = .finite 0 then ⟨.nan⟩ else ⟨(of p).value.div (of q).value⟩ : Chance) = _
  rw [if_neg proper]
  exact congrArg Chance.mk (if_pos nonzero)

instance : Lawful (Member (W := Chance)) where
  zero_mem := rfl
  one_mem := rfl
  plus_mem := by
    intro a b aMember bMember
    obtain ⟨p, rfl⟩ := exists_of aMember
    obtain ⟨q, rfl⟩ := exists_of bMember
    exact member_of _
  times_mem := by
    intro a b aMember bMember
    obtain ⟨p, rfl⟩ := exists_of aMember
    obtain ⟨q, rfl⟩ := exists_of bMember
    exact member_of _
  plus_assoc := by
    intro a b c aMember bMember cMember
    obtain ⟨p, rfl⟩ := exists_of aMember
    obtain ⟨q, rfl⟩ := exists_of bMember
    obtain ⟨r, rfl⟩ := exists_of cMember
    simp only [plus_of, add_assoc]
  plus_comm := by
    intro a b aMember bMember
    obtain ⟨p, rfl⟩ := exists_of aMember
    obtain ⟨q, rfl⟩ := exists_of bMember
    simp only [plus_of, add_comm]
  zero_plus := by
    intro a member
    obtain ⟨p, rfl⟩ := exists_of member
    rw [zero_of, plus_of, zero_add]
  times_assoc := by
    intro a b c aMember bMember cMember
    obtain ⟨p, rfl⟩ := exists_of aMember
    obtain ⟨q, rfl⟩ := exists_of bMember
    obtain ⟨r, rfl⟩ := exists_of cMember
    simp only [times_of, mul_assoc]
  one_times := by
    intro a member
    obtain ⟨p, rfl⟩ := exists_of member
    rw [one_of, times_of, one_mul]
  times_one := by
    intro a member
    obtain ⟨p, rfl⟩ := exists_of member
    rw [one_of, times_of, mul_one]
  zero_times := by
    intro a member
    obtain ⟨p, rfl⟩ := exists_of member
    rw [zero_of, times_of, zero_mul]
  times_zero := by
    intro a member
    obtain ⟨p, rfl⟩ := exists_of member
    rw [zero_of, times_of, mul_zero]

instance : RightDistributive (Member (W := Chance)) where
  plus_times := by
    intro a b c aMember bMember cMember
    obtain ⟨p, rfl⟩ := exists_of aMember
    obtain ⟨q, rfl⟩ := exists_of bMember
    obtain ⟨r, rfl⟩ := exists_of cMember
    simp only [plus_of, times_of, add_mul]

instance : Tested (Member (W := Chance)) where
  isZero_iff _ := decide_eq_true_iff
  isOne_iff _ := decide_eq_true_iff

instance : Direction.toFinal.DividesOut (Member (W := Chance)) where
  divide_mem := by
    intro a c dividend divisor nonzero
    obtain ⟨p, rfl⟩ := exists_of dividend
    obtain ⟨q, rfl⟩ := exists_of divisor
    rw [divide_of _ p fun none => nonzero (by rw [none, zero_of])]
    exact member_of _
  rejoin_divide := by
    intro a c dividend divisor nonzero
    obtain ⟨p, rfl⟩ := exists_of dividend
    obtain ⟨q, rfl⟩ := exists_of divisor
    have proper : q ≠ 0 := fun none => nonzero (by rw [none, zero_of])
    rw [divide_of _ p proper]
    change times (of (p / q)) (of q) = of p
    rw [times_of, div_mul_cancel₀ p proper]
  divideOrZero_zero _ := rfl
  divideOrZero_eq := by
    intro a c _ _ nonzero
    exact if_neg fun tested => nonzero (decide_eq_true_iff.mp tested)

end Chance
end WeightedAutomata
