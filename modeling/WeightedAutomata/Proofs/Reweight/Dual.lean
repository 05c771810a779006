import WeightedAutomata.Proofs.Reweight.Flank
import WeightedAutomata.Proofs.Tuple.Laws
import WeightedAutomata.Proofs.Weight.Tropical

namespace WeightedAutomata.Automaton
open Weight
variable {W : Type} [Weight W] {P : W → Prop} {direction : Direction} {potentials : Array W}
  {a : Automaton W} {v : W}

def inverted (potentials : Array W) : Array W :=
  potentials.map fun v => divideOrZero .right one v

theorem get_inverted (P : W → Prop) [Lawful P] [absorbs : Direction.toFinal.Absorbs P]
    (potentials : Array W) (s : Nat) :
    Potential.get (inverted potentials) s = inverse (Potential.get potentials s) := by
  unfold Potential.get inverted
  rw [Array.getElem?_map]
  cases potentials[s]? with
  | none => exact (absorbs.divideOrZero_zero (P := P) Lawful.one_mem).symm
  | some v => rfl

theorem inverted_mem [inverting : Inverting P] (members : ∀ v ∈ potentials, P v) :
    ∀ v ∈ inverted potentials, P v := by
  intro v present
  obtain ⟨old, stored, rfl⟩ := Array.mem_map.mp present
  exact inverting.inverse_mem (members old stored)

-- Whatever is its own inverse is the inverse of nothing else.
theorem inverse_eq_iff [involutive : Involutive P] {c : W} (fixed : inverse c = c) (member : P v) :
    inverse v = c ↔ v = c := by
  constructor
  · intro same
    rw [← involutive.inverse_inverse member, same, fixed]
  · intro same
    rw [same, fixed]

section Moving
variable [Lawful P] [inverting : Inverting P] [involutive : Involutive P]
  [absorbs : Direction.toFinal.Absorbs P]

theorem moveWeights_dual (all : a.All P) (members : ∀ v ∈ potentials, P v) :
    a.moveWeights .toInitial (inverted potentials) = a.moveWeights .toFinal potentials := by
  rw [moveWeights_flank .toInitial all (inverted_mem members),
    moveWeights_flank .toFinal all members]
  congr 1
  · funext s
    rw [get_inverted P]
    exact involutive.inverse_inverse (get_mem members s)
  · funext s
    exact get_inverted P potentials s

variable [Tested P]

theorem restoreStart_dual (member : P v) (a : Automaton W) :
    restoreStart .toInitial (inverse v) a = restoreStart .toFinal v a := by
  have inverseMember : P (inverse v) := inverting.inverse_mem member
  have sameZero : isZero (inverse v) = isZero v := by
    rw [Bool.eq_iff_iff, Tested.isZero_iff inverseMember, Tested.isZero_iff member]
    exact inverse_eq_iff (absorbs.divideOrZero_zero (P := P) Lawful.one_mem) member
  have sameOne : isOne (inverse v) = isOne v := by
    rw [Bool.eq_iff_iff, Tested.isOne_iff inverseMember, Tested.isOne_iff member]
    exact inverse_eq_iff (inverse_one P) member
  unfold restoreStart
  simp only [sameZero, sameOne]
  rfl

def Dual (potentials : Array W) (a : Automaton W) : Prop :=
  ∃ b, a.reweight .toFinal potentials = .ok b ∧ a.reweight .toInitial (inverted potentials) = .ok b

theorem dual_of_involutive
    (reported : ∀ direction : Direction, (properties W).contains direction.required = true)
    (closed : a.Closed) (all : a.All P) (members : ∀ v ∈ potentials, P v) : Dual potentials a := by
  have moved := moveWeights_dual all members
  cases begins : a.start with
  | none =>
    refine ⟨_, reweight_unstarted (reported .toFinal) begins, ?_⟩
    rw [reweight_unstarted (reported .toInitial) begins, moved]
  | some start =>
    have exist := closed.start start begins
    have score : P (Potential.get potentials start) := get_mem members start
    obtain ⟨b, reweighted, _⟩ := reweight_outcome potentials (reported .toFinal) closed begins
    refine ⟨b, reweighted, ?_⟩
    rw [← reweighted, reweight_started (reported .toInitial) begins exist,
      reweight_started (reported .toFinal) begins exist, moved, get_inverted P,
      restoreStart_dual score]

end Moving

-- Both directions are one, with weights that divide on both sides and with the powers of
-- them. The weights need not commute, and a potential that is zero, or zero at some
-- keys, takes away the same weights either way.
theorem reweight_dual [LawfulBEq W] [Lawful P] [Tested P] [Direction.toInitial.DividesOut P]
    [Direction.toFinal.DividesOut P]
    (reported : ∀ direction : Direction, (properties W).contains direction.required = true) :
    (∀ potentials (a : Automaton W), a.Closed → a.All P → (∀ v ∈ potentials, P v) →
      Dual potentials a) ∧
    ∀ width potentials (a : Automaton (SparseTuple W width)), a.Closed →
      a.All (SparseTuple.Over P) → (∀ v ∈ potentials, v.Over P) → Dual potentials a :=
  ⟨fun _ _ closed all members => dual_of_involutive reported closed all members,
    fun _ _ _ closed all members => dual_of_involutive
      (fun direction => SparseTuple.contains_required direction (reported direction)) closed all
      members⟩

def mirrored : Automaton (SparseTuple (Tropical Exact) .bits8) where
  states := #[
    ⟨⟨Tropical.cost none, []⟩,
      #[⟨1, 1, ⟨Tropical.cost (some 1), [(⟨11, by decide, by decide⟩, Tropical.cost (some 2))]⟩, 1⟩]⟩,
    ⟨⟨Tropical.cost none, [(⟨11, by decide, by decide⟩, Tropical.cost (some 4))]⟩,
      #[⟨2, 2, ⟨Tropical.cost (some 3), []⟩, 0⟩]⟩]
  start := some 0

def mirroredPotentials : Array (SparseTuple (Tropical Exact) .bits8) :=
  #[⟨Tropical.cost (some 5), [(⟨11, by decide, by decide⟩, Tropical.cost none),
      (⟨12, by decide, by decide⟩, Tropical.cost (some 0))]⟩,
    ⟨Tropical.cost none, [(⟨12, by decide, by decide⟩, Tropical.cost (some 6))]⟩]

theorem mirrored_dual :
    (∀ direction : Direction,
        (properties (Tropical Exact)).contains direction.required = true) ∧
      mirrored.Closed ∧ mirrored.All (SparseTuple.Over Member) ∧
      (∀ v ∈ mirroredPotentials, v.Over Member) ∧ Dual mirroredPotentials mirrored := by
  have closed : mirrored.Closed := by decide
  have all : mirrored.All (SparseTuple.Over Member) := by decide
  have members : ∀ v ∈ mirroredPotentials, v.Over Member := by decide
  exact ⟨Tropical.contains_required, closed, all, members,
    (reweight_dual Tropical.contains_required).2 .bits8 mirroredPotentials mirrored closed all
      members⟩

end WeightedAutomata.Automaton
