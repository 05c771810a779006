import Mathlib.Algebra.Order.Ring.Rat
import Mathlib.Tactic.Linarith
import WeightedAutomata.Number.Exact
import WeightedAutomata.Proofs.Weight.Laws
import WeightedAutomata.Weight.Tropical

namespace WeightedAutomata.Tropical
open Weight

-- The members over exact numbers: the rationals, and infinity for the weight of no path.
def cost : Option Rat → Tropical Exact
  | some value => ⟨.finite value⟩
  | none => ⟨.infinity false⟩

instance {α : Type} [Number α] [DecidableEq α] : @LawfulBEq (Tropical α) Weight.toBEq :=
  inferInstanceAs (@LawfulBEq (Tropical α) instBEqOfDecidableEq)

theorem member_iff {a : Tropical Exact} : Member a ↔ ∃ c, a = cost c := by
  obtain ⟨value⟩ := a
  cases value with
  | finite value => exact ⟨fun _ => ⟨some value, rfl⟩, fun _ => rfl⟩
  | infinity negative =>
    cases negative with
    | false => exact ⟨fun _ => ⟨none, rfl⟩, fun _ => rfl⟩
    | true =>
      refine ⟨fun member => (nomatch member), ?_⟩
      rintro ⟨_ | value, same⟩ <;> cases same
  | nan =>
    refine ⟨fun member => (nomatch member), ?_⟩
    rintro ⟨_ | value, same⟩ <;> cases same

theorem member_cost (c : Option Rat) : Member (cost c) :=
  member_iff.mpr ⟨c, rfl⟩

def joined : Option Rat → Option Rat → Option Rat
  | some a, some b => some (a + b)
  | _, _ => none

def lesser : Option Rat → Option Rat → Option Rat
  | some a, some b => some (if a ≤ b then a else b)
  | some a, none => some a
  | none, b => b

theorem times_cost (c d : Option Rat) : times (cost c) (cost d) = cost (joined c d) := by
  cases c <;> cases d <;> rfl

theorem plus_cost (c d : Option Rat) : Weight.plus (cost c) (cost d) = cost (lesser c d) := by
  cases c with
  | none => cases d <;> rfl
  | some a =>
    cases d with
    | none => rfl
    | some b =>
      change (⟨if (decide (a ≤ b)) = true then .finite a else .finite b⟩ : Tropical Exact) =
        ⟨.finite (if a ≤ b then a else b)⟩
      by_cases below : a ≤ b <;> simp [below]

theorem zero_cost : (zero : Tropical Exact) = cost none := rfl

theorem one_cost : (one : Tropical Exact) = cost (some 0) := rfl

instance : Lawful (Member (W := Tropical Exact)) where
  zero_mem := rfl
  one_mem := rfl
  plus_mem := by
    intro a b aMember bMember
    obtain ⟨c, rfl⟩ := member_iff.mp aMember
    obtain ⟨d, rfl⟩ := member_iff.mp bMember
    rw [plus_cost]
    exact member_cost _
  times_mem := by
    intro a b aMember bMember
    obtain ⟨c, rfl⟩ := member_iff.mp aMember
    obtain ⟨d, rfl⟩ := member_iff.mp bMember
    rw [times_cost]
    exact member_cost _
  plus_assoc := by
    intro a b c aMember bMember cMember
    obtain ⟨d, rfl⟩ := member_iff.mp aMember
    obtain ⟨e, rfl⟩ := member_iff.mp bMember
    obtain ⟨f, rfl⟩ := member_iff.mp cMember
    simp only [plus_cost]
    apply congrArg cost
    cases d <;> cases e <;> cases f <;> simp only [lesser]
    grind
  plus_comm := by
    intro a b aMember bMember
    obtain ⟨c, rfl⟩ := member_iff.mp aMember
    obtain ⟨d, rfl⟩ := member_iff.mp bMember
    simp only [plus_cost]
    apply congrArg cost
    cases c <;> cases d <;> simp only [lesser]
    grind
  zero_plus := by
    intro a member
    obtain ⟨c, rfl⟩ := member_iff.mp member
    rw [zero_cost, plus_cost]
    rfl
  times_assoc := by
    intro a b c aMember bMember cMember
    obtain ⟨d, rfl⟩ := member_iff.mp aMember
    obtain ⟨e, rfl⟩ := member_iff.mp bMember
    obtain ⟨f, rfl⟩ := member_iff.mp cMember
    simp only [times_cost]
    apply congrArg cost
    cases d <;> cases e <;> cases f <;> simp only [joined, add_assoc]
  one_times := by
    intro a member
    obtain ⟨c, rfl⟩ := member_iff.mp member
    rw [one_cost, times_cost]
    apply congrArg cost
    cases c <;> simp only [joined, zero_add]
  times_one := by
    intro a member
    obtain ⟨c, rfl⟩ := member_iff.mp member
    rw [one_cost, times_cost]
    apply congrArg cost
    cases c <;> simp only [joined, add_zero]
  zero_times := by
    intro a member
    obtain ⟨c, rfl⟩ := member_iff.mp member
    rw [zero_cost, times_cost]
    rfl
  times_zero := by
    intro a member
    obtain ⟨c, rfl⟩ := member_iff.mp member
    rw [zero_cost, times_cost]
    cases c <;> rfl

instance : LeftDistributive (Member (W := Tropical Exact)) where
  times_plus := by
    intro a b c aMember bMember cMember
    obtain ⟨d, rfl⟩ := member_iff.mp aMember
    obtain ⟨e, rfl⟩ := member_iff.mp bMember
    obtain ⟨f, rfl⟩ := member_iff.mp cMember
    simp only [plus_cost, times_cost]
    apply congrArg cost
    cases d <;> cases e <;> cases f <;> simp only [lesser, joined]
    grind

instance : RightDistributive (Member (W := Tropical Exact)) where
  plus_times := by
    intro a b c aMember bMember cMember
    obtain ⟨d, rfl⟩ := member_iff.mp aMember
    obtain ⟨e, rfl⟩ := member_iff.mp bMember
    obtain ⟨f, rfl⟩ := member_iff.mp cMember
    simp only [plus_cost, times_cost]
    apply congrArg cost
    cases d <;> cases e <;> cases f <;> simp only [lesser, joined]
    grind

instance : Truthful (Member (W := Tropical Exact)) where
  times_plus _ := inferInstance
  plus_times _ := inferInstance
  times_comm _ := by
    intro a b aMember bMember
    obtain ⟨c, rfl⟩ := member_iff.mp aMember
    obtain ⟨d, rfl⟩ := member_iff.mp bMember
    simp only [times_cost]
    apply congrArg cost
    cases c <;> cases d <;> simp only [joined, add_comm]
  plus_self _ := by
    intro a member
    obtain ⟨c, rfl⟩ := member_iff.mp member
    rw [plus_cost]
    apply congrArg cost
    cases c <;> simp [lesser]

instance : Tested (Member (W := Tropical Exact)) where
  isZero_iff := by
    intro a member
    obtain ⟨c, rfl⟩ := member_iff.mp member
    cases c with
    | none => exact ⟨fun _ => rfl, fun _ => rfl⟩
    | some value => exact ⟨fun holds => (nomatch holds), fun same => (nomatch same)⟩
  isOne_iff := by
    intro a _
    exact decide_eq_true_iff

theorem contains_required (direction : Direction) :
    (properties (Tropical Exact)).contains direction.required = true := by
  cases direction <;> rfl

theorem divide_cost (side : Side) (c : Option Rat) (d : Rat) :
    divide side (cost c) (cost (some d)) = cost (c.map (· - d)) := by
  cases c with
  | none => rfl
  | some c =>
    change (⟨.finite (c + -d)⟩ : Tropical Exact) = ⟨.finite (c - d)⟩
    rw [sub_eq_add_neg]

theorem cost_of_nonzero {a : Tropical Exact} (member : Member a) (nonzero : a ≠ zero) :
    ∃ d : Rat, a = cost (some d) := by
  obtain ⟨c, rfl⟩ := member_iff.mp member
  cases c with
  | none => exact absurd rfl nonzero
  | some d => exact ⟨d, rfl⟩

instance (direction : Direction) : direction.DividesOut (Member (W := Tropical Exact)) where
  divide_mem := by
    intro a c dividend divisor nonzero
    obtain ⟨d, rfl⟩ := cost_of_nonzero divisor nonzero
    obtain ⟨c, rfl⟩ := member_iff.mp dividend
    rw [divide_cost]
    exact member_cost _
  rejoin_divide := by
    intro a c dividend divisor nonzero
    obtain ⟨d, rfl⟩ := cost_of_nonzero divisor nonzero
    obtain ⟨c, rfl⟩ := member_iff.mp dividend
    rw [divide_cost]
    cases direction <;> cases c <;> simp [Direction.rejoin, times_cost, joined]
  divideOrZero_zero := by
    intro c _
    rfl
  divideOrZero_eq := by
    intro a c _ divisor nonzero
    obtain ⟨d, rfl⟩ := cost_of_nonzero divisor nonzero
    rfl

end WeightedAutomata.Tropical
