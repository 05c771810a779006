import WeightedAutomata.Proofs.Weight.Laws

namespace WeightedAutomata.Weight
variable {W : Type} [Weight W]

def inverse (a : W) : W :=
  divideOrZero .right one a

-- Absorbing division as multiplication by an inverse. A power has it from its
-- coordinates, while a tuple with some coordinates zero cancels on neither side: of
-- an inverse only `a ⊗ inverse a ⊗ a = a` is left.
class Inverting (P : W → Prop) : Prop where
  inverse_mem : ∀ {a}, P a → P (inverse a)
  divide_left : ∀ {a c : W}, P c → P a → divideOrZero .left c a = times (inverse a) c
  divide_right : ∀ {a c : W}, P c → P a → divideOrZero .right c a = times c (inverse a)
  regular : ∀ {a : W}, P a → times (times a (inverse a)) a = a

class Involutive (P : W → Prop) : Prop where
  inverse_inverse : ∀ {a : W}, P a → inverse (inverse a) = a

theorem inverse_one (P : W → Prop) [Lawful P] [inverting : Inverting P] :
    inverse (one : W) = one := by
  have unit : P (one : W) := Lawful.one_mem
  have inverseMember := inverting.inverse_mem unit
  have regular := inverting.regular unit
  rwa [Lawful.one_times inverseMember, Lawful.times_one inverseMember] at regular

section Cancelling
variable {P : W → Prop} [Lawful P] [right : Direction.toFinal.DividesOut P] {a b : W}

theorem inverse_of_zero (P : W → Prop) [Lawful P] [right : Direction.toFinal.DividesOut P] :
    inverse (zero : W) = zero :=
  right.divideOrZero_zero (P := P) Lawful.one_mem

theorem inverse_of_nonzero (member : P a) (nonzero : a ≠ zero) :
    P (inverse a) ∧ times a (inverse a) = one ∧ times (inverse a) a = one := by
  have unit : P (one : W) := Lawful.one_mem
  have inverseMember : P (inverse a) := Direction.divideOrZero_mem .toFinal unit member
  have before : times (inverse a) a = one :=
    Direction.rejoin_divideOrZero .toFinal unit member nonzero
  obtain ⟨b, bMember, after, _⟩ := Direction.exists_inverse .toFinal member nonzero
  have same : inverse a = b := Direction.eq_of_inverse inverseMember member bMember before after
  exact ⟨inverseMember, by rw [same, after], before⟩

theorem times_ne_zero (aMember : P a) (bMember : P b) (aNonzero : a ≠ zero)
    (bNonzero : b ≠ zero) : times a b ≠ zero := by
  obtain ⟨inverseMember, _, before⟩ := inverse_of_nonzero aMember aNonzero
  intro none
  apply bNonzero
  rw [← Lawful.one_times bMember, ← before, Lawful.times_assoc inverseMember aMember bMember, none,
    Lawful.times_zero inverseMember]

theorem inverse_times (aMember : P a) (bMember : P b) :
    inverse (times a b) = times (inverse b) (inverse a) := by
  have aInverse : P (inverse a) := Direction.divideOrZero_mem .toFinal Lawful.one_mem aMember
  have bInverse : P (inverse b) := Direction.divideOrZero_mem .toFinal Lawful.one_mem bMember
  by_cases aZero : a = zero
  · rw [aZero, Lawful.zero_times bMember, inverse_of_zero P, Lawful.times_zero bInverse]
  · by_cases bZero : b = zero
    · rw [bZero, Lawful.times_zero aMember, inverse_of_zero P, Lawful.zero_times aInverse]
    · have product : P (times a b) := Lawful.times_mem aMember bMember
      obtain ⟨_, aAfter, _⟩ := inverse_of_nonzero aMember aZero
      obtain ⟨_, bAfter, _⟩ := inverse_of_nonzero bMember bZero
      obtain ⟨inverseMember, _, before⟩ :=
        inverse_of_nonzero product (times_ne_zero aMember bMember aZero bZero)
      have quotient : P (times (inverse b) (inverse a)) := Lawful.times_mem bInverse aInverse
      have after : times (times a b) (times (inverse b) (inverse a)) = one := by
        rw [Lawful.times_assoc aMember bMember quotient,
          ← Lawful.times_assoc bMember bInverse aInverse, bAfter, Lawful.one_times aInverse, aAfter]
      exact Direction.eq_of_inverse inverseMember product quotient before after

instance : Involutive P where
  inverse_inverse := by
    intro a member
    by_cases none : a = zero
    · rw [none, inverse_of_zero P, inverse_of_zero P]
    · obtain ⟨inverseMember, after, _⟩ := inverse_of_nonzero member none
      have nonzero : inverse a ≠ zero := by
        intro vanishes
        rw [vanishes, Lawful.times_zero member] at after
        exact Direction.one_ne_zero_of_ne member none after.symm
      obtain ⟨twiceMember, again, _⟩ := inverse_of_nonzero inverseMember nonzero
      exact (Direction.eq_of_inverse member inverseMember twiceMember after again).symm

instance [left : Direction.toInitial.DividesOut P] : Inverting P where
  inverse_mem := Direction.divideOrZero_mem .toFinal Lawful.one_mem
  divide_left := by
    intro a c dividend divisor
    by_cases none : a = zero
    · subst a
      rw [inverse_of_zero P, Lawful.zero_times dividend]
      exact left.divideOrZero_zero dividend
    · obtain ⟨inverseMember, after, _⟩ := inverse_of_nonzero divisor none
      apply Direction.rejoin_injective .toInitial divisor none
        (Direction.divideOrZero_mem .toInitial dividend divisor)
        (Lawful.times_mem inverseMember dividend)
      rw [Direction.rejoin_divideOrZero .toInitial dividend divisor none]
      change c = times a (times (inverse a) c)
      rw [← Lawful.times_assoc divisor inverseMember dividend, after, Lawful.one_times dividend]
  divide_right := by
    intro a c dividend divisor
    by_cases none : a = zero
    · subst a
      rw [inverse_of_zero P, Lawful.times_zero dividend]
      exact right.divideOrZero_zero dividend
    · obtain ⟨inverseMember, _, before⟩ := inverse_of_nonzero divisor none
      apply Direction.rejoin_injective .toFinal divisor none
        (Direction.divideOrZero_mem .toFinal dividend divisor)
        (Lawful.times_mem dividend inverseMember)
      rw [Direction.rejoin_divideOrZero .toFinal dividend divisor none]
      change c = times (times c (inverse a)) a
      rw [Lawful.times_assoc dividend inverseMember divisor, before, Lawful.times_one dividend]
  regular := by
    intro a member
    by_cases none : a = zero
    · subst a
      rw [inverse_of_zero P, Lawful.times_zero member, Lawful.times_zero member]
    · obtain ⟨_, after, _⟩ := inverse_of_nonzero member none
      rw [after, Lawful.one_times member]

end Cancelling
end WeightedAutomata.Weight
