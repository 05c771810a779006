import WeightedAutomata.Proofs.Tuple.Coordinate
import WeightedAutomata.Proofs.Weight.Division

namespace WeightedAutomata.SparseTuple
open Weight
variable {W : Type} [Weight W] {width : Width} {P : W → Prop} {s t u : SparseTuple W width}

-- A power reports distributivity where its weights do.
theorem contains_required (direction : Direction)
    (reported : (properties W).contains direction.required = true) :
    (properties (SparseTuple W width)).contains direction.required = true := by
  change ((properties W).inter inherited).contains direction.required = true
  generalize properties W = p at reported ⊢
  cases direction <;>
    simp_all [Properties.contains, Properties.inter, Direction.required, Properties.leftSemiring,
      Properties.rightSemiring, inherited, Properties.semiring]

theorem properties_power :
    properties (SparseTuple W width) = { properties W with path := false } := by
  change (properties W).inter inherited = { properties W with path := false }
  generalize properties W = p
  simp [Properties.inter, inherited, Properties.semiring]

theorem Over.plus [Lawful P] (left : s.Over P) (right : t.Over P) : (Weight.plus s t).Over P :=
  combine_over Lawful.plus_mem left right

theorem Over.times [Lawful P] (left : s.Over P) (right : t.Over P) : (Weight.times s t).Over P :=
  combine_over Lawful.times_mem left right

theorem Over.divideOrZero {direction : Direction} [absorbs : direction.Absorbs P]
    (left : s.Over P) (right : t.Over P) : (Weight.divideOrZero direction.side s t).Over P :=
  combine_over absorbs.divideOrZero_mem left right

theorem zero_over [Lawful P] : (zero : SparseTuple W width).Over P :=
  uniform_over Lawful.zero_mem

theorem one_over [Lawful P] : (one : SparseTuple W width).Over P :=
  uniform_over Lawful.one_mem

section Inverting
variable [Lawful P] [inverting : Inverting P]

theorem Over.divide_left (left : s.Over P) (right : t.Over P) :
    (Weight.divideOrZero .left s t).Over P := by
  refine combine_over (fun dividend divisor => ?_) left right
  rw [inverting.divide_left dividend divisor]
  exact Lawful.times_mem (inverting.inverse_mem divisor) dividend

theorem Over.divide_right (left : s.Over P) (right : t.Over P) :
    (Weight.divideOrZero .right s t).Over P := by
  refine combine_over (fun dividend divisor => ?_) left right
  rw [inverting.divide_right dividend divisor]
  exact Lawful.times_mem dividend (inverting.inverse_mem divisor)

theorem Over.inverse (member : t.Over P) : (Weight.inverse t).Over P :=
  one_over.divide_right member

end Inverting

variable [LawfulBEq W]

theorem Over.part_plus (left : s.Over P) (right : t.Over P) (c : Coordinate width) :
    (Weight.plus s t).part c = Weight.plus (s.part c) (t.part c) :=
  SparseTuple.part_plus left.canonical right.canonical c

theorem Over.part_times (left : s.Over P) (right : t.Over P) (c : Coordinate width) :
    (Weight.times s t).part c = Weight.times (s.part c) (t.part c) :=
  SparseTuple.part_times left.canonical right.canonical c

instance [Lawful P] : Lawful (Over P : SparseTuple W width → Prop) where
  zero_mem := zero_over
  one_mem := one_over
  plus_mem := Over.plus
  times_mem := Over.times
  plus_assoc := by
    intro s t u sOver tOver uOver
    apply Over.ext ((sOver.plus tOver).plus uOver) (sOver.plus (tOver.plus uOver))
    intro c
    rw [(sOver.plus tOver).part_plus uOver, sOver.part_plus tOver,
      sOver.part_plus (tOver.plus uOver), tOver.part_plus uOver]
    exact Lawful.plus_assoc (sOver.part c) (tOver.part c) (uOver.part c)
  plus_comm := by
    intro s t sOver tOver
    apply Over.ext (sOver.plus tOver) (tOver.plus sOver)
    intro c
    rw [sOver.part_plus tOver, tOver.part_plus sOver]
    exact Lawful.plus_comm (sOver.part c) (tOver.part c)
  zero_plus := by
    intro s member
    apply Over.ext (zero_over.plus member) member
    intro c
    rw [zero_over.part_plus member, part_zero]
    exact Lawful.zero_plus (member.part c)
  times_assoc := by
    intro s t u sOver tOver uOver
    apply Over.ext ((sOver.times tOver).times uOver) (sOver.times (tOver.times uOver))
    intro c
    rw [(sOver.times tOver).part_times uOver, sOver.part_times tOver,
      sOver.part_times (tOver.times uOver), tOver.part_times uOver]
    exact Lawful.times_assoc (sOver.part c) (tOver.part c) (uOver.part c)
  one_times := by
    intro s member
    apply Over.ext (one_over.times member) member
    intro c
    rw [one_over.part_times member, part_one]
    exact Lawful.one_times (member.part c)
  times_one := by
    intro s member
    apply Over.ext (member.times one_over) member
    intro c
    rw [member.part_times one_over, part_one]
    exact Lawful.times_one (member.part c)
  zero_times := by
    intro s member
    apply Over.ext (zero_over.times member) zero_over
    intro c
    rw [zero_over.part_times member, part_zero]
    exact Lawful.zero_times (member.part c)
  times_zero := by
    intro s member
    apply Over.ext (member.times zero_over) zero_over
    intro c
    rw [member.part_times zero_over, part_zero]
    exact Lawful.times_zero (member.part c)

instance [Lawful P] [LeftDistributive P] :
    LeftDistributive (Over P : SparseTuple W width → Prop) where
  times_plus := by
    intro s t u sOver tOver uOver
    apply Over.ext (uOver.times (sOver.plus tOver)) ((uOver.times sOver).plus (uOver.times tOver))
    intro c
    rw [uOver.part_times (sOver.plus tOver), sOver.part_plus tOver,
      (uOver.times sOver).part_plus (uOver.times tOver), uOver.part_times sOver,
      uOver.part_times tOver]
    exact LeftDistributive.times_plus (sOver.part c) (tOver.part c) (uOver.part c)

instance [Lawful P] [RightDistributive P] :
    RightDistributive (Over P : SparseTuple W width → Prop) where
  plus_times := by
    intro s t u sOver tOver uOver
    apply Over.ext ((sOver.plus tOver).times uOver) ((sOver.times uOver).plus (tOver.times uOver))
    intro c
    rw [(sOver.plus tOver).part_times uOver, sOver.part_plus tOver,
      (sOver.times uOver).part_plus (tOver.times uOver), sOver.part_times uOver,
      tOver.part_times uOver]
    exact RightDistributive.plus_times (sOver.part c) (tOver.part c) (uOver.part c)

instance [Lawful P] [truthful : Truthful P] :
    Truthful (Over P : SparseTuple W width → Prop) where
  times_plus := by
    intro reported
    rw [properties_power] at reported
    have := truthful.times_plus reported
    infer_instance
  plus_times := by
    intro reported
    rw [properties_power] at reported
    have := truthful.plus_times reported
    infer_instance
  times_comm := by
    intro reported s t sOver tOver
    rw [properties_power] at reported
    apply Over.ext (sOver.times tOver) (tOver.times sOver)
    intro c
    rw [sOver.part_times tOver, tOver.part_times sOver]
    exact truthful.times_comm reported (sOver.part c) (tOver.part c)
  plus_self := by
    intro reported s member
    rw [properties_power] at reported
    apply Over.ext (member.plus member) member
    intro c
    rw [member.part_plus member]
    exact truthful.plus_self reported (member.part c)

instance : Tested (Over P : SparseTuple W width → Prop) where
  isZero_iff _ := beq_iff_eq
  isOne_iff _ := beq_iff_eq

theorem Over.part_divideOrZero (side : Side) (left : s.Over P) (right : t.Over P)
    (c : Coordinate width) :
    (Weight.divideOrZero side s t).part c = Weight.divideOrZero side (s.part c) (t.part c) :=
  SparseTuple.part_divideOrZero side left.canonical right.canonical c

instance {direction : Direction} [Lawful P] [absorbs : direction.Absorbs P] :
    direction.Absorbs (Over P : SparseTuple W width → Prop) where
  divideOrZero_mem := Over.divideOrZero
  divideOrZero_zero := by
    intro s member
    apply Over.ext (member.divideOrZero zero_over) zero_over
    intro c
    rw [member.part_divideOrZero _ zero_over, part_zero]
    exact absorbs.divideOrZero_zero (member.part c)
  zero_divideOrZero := by
    intro s member
    apply Over.ext (zero_over.divideOrZero member) zero_over
    intro c
    rw [zero_over.part_divideOrZero _ member, part_zero]
    exact absorbs.zero_divideOrZero (member.part c)
  one_divideOrZero_one := by
    have unit : (one : SparseTuple W width).Over P := one_over
    apply Over.ext (unit.divideOrZero unit) unit
    intro c
    rw [unit.part_divideOrZero _ unit, part_one]
    exact absorbs.one_divideOrZero_one

theorem Over.part_inverse [Lawful P] (member : t.Over P) (c : Coordinate width) :
    (Weight.inverse t).part c = Weight.inverse (t.part c) := by
  unfold Weight.inverse
  rw [one_over.part_divideOrZero _ member, part_one]

instance [Lawful P] [inverting : Inverting P] : Inverting (Over P : SparseTuple W width → Prop) where
  inverse_mem := Over.inverse
  divide_left := by
    intro s t dividend divisor
    apply Over.ext (dividend.divide_left divisor) (divisor.inverse.times dividend)
    intro c
    rw [dividend.part_divideOrZero _ divisor, divisor.inverse.part_times dividend,
      divisor.part_inverse]
    exact inverting.divide_left (dividend.part c) (divisor.part c)
  divide_right := by
    intro s t dividend divisor
    apply Over.ext (dividend.divide_right divisor) (dividend.times divisor.inverse)
    intro c
    rw [dividend.part_divideOrZero _ divisor, dividend.part_times divisor.inverse,
      divisor.part_inverse]
    exact inverting.divide_right (dividend.part c) (divisor.part c)
  regular := by
    intro s member
    apply Over.ext ((member.times member.inverse).times member) member
    intro c
    rw [(member.times member.inverse).part_times member, member.part_times member.inverse,
      member.part_inverse]
    exact inverting.regular (member.part c)

instance [Lawful P] [Inverting P] [involutive : Involutive P] :
    Involutive (Over P : SparseTuple W width → Prop) where
  inverse_inverse := by
    intro s member
    apply Over.ext member.inverse.inverse member
    intro c
    rw [member.inverse.part_inverse, member.part_inverse]
    exact involutive.inverse_inverse (member.part c)

end WeightedAutomata.SparseTuple
