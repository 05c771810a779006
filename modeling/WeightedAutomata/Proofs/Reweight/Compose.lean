import WeightedAutomata.Proofs.Automaton.Total
import WeightedAutomata.Proofs.Reweight.Flank
import WeightedAutomata.Proofs.Weight.Tropical

namespace WeightedAutomata

def Direction.opposite : Direction → Direction
  | toInitial => toFinal
  | toFinal => toInitial

namespace Automaton
open Weight
variable {W : Type} [Weight W] {P : W → Prop} {direction : Direction}
  {potentials first second : Array W} {a : Automaton W} {start s : Nat} {v next : W}
  {front back : Nat → W}

structure Unlooped (P : W → Prop) (a : Automaton W) (start : Nat) : Prop where
  closed : a.Closed
  begins : a.start = some start
  acyclic : ¬ a.OnCycle start
  all : a.All P

structure Covering (P : W → Prop) (potentials : Array W) (a : Automaton W) : Prop where
  members : ∀ v ∈ potentials, P v
  nonzero : ∀ s < a.states.size, Potential.get potentials s ≠ zero

-- The potentials of two reweightings as those of one, the first multiplied in on the
-- side of the arcs that lead to a state.
def joined (direction : Direction) (first second : Array W) : Array W :=
  Array.zipWith direction.rejoin first second

-- What stands before all that leaves a state once the start's potential is put back,
-- which leaves nothing before the start.
def settledFront (direction : Direction) (potentials : Array W) (start s : Nat) : W :=
  if start = s then one else frontFactor direction (Potential.get potentials s)

theorem Unlooped.flank [Lawful P] (unlooped : a.Unlooped P start) (fronts : ∀ s, P (front s))
    (backs : ∀ s, P (back s)) : (a.flank front back).Unlooped P start where
  closed := (flank_alike front back a).closed unlooped.closed
  begins := unlooped.begins
  acyclic cycle := unlooped.acyclic ((flank_alike front back a).onCycle.mp cycle)
  all := flank_all unlooped.all fronts backs

theorem Covering.flank (covering : Covering P potentials a) (front back : Nat → W) :
    Covering P potentials (a.flank front back) where
  members := covering.members
  nonzero := by
    rw [(flank_alike front back a).size]
    exact covering.nonzero

section Factors
variable [Lawful P] [Direction.toFinal.DividesOut P]

theorem startFactor_frontFactor (direction : Direction) (member : P v) (nonzero : v ≠ zero) :
    times (startFactor direction v) (frontFactor direction v) = one := by
  obtain ⟨_, after, before⟩ := inverse_of_nonzero member nonzero
  cases direction with
  | toInitial => exact after
  | toFinal => exact before

theorem frontFactor_rejoin (direction : Direction) (vMember : P v) (nextMember : P next) :
    frontFactor direction (direction.rejoin v next) =
      times (frontFactor direction next) (frontFactor direction v) := by
  cases direction with
  | toInitial => exact inverse_times vMember nextMember
  | toFinal => rfl

theorem startFactor_rejoin (direction : Direction) (vMember : P v) (nextMember : P next) :
    startFactor direction (direction.rejoin v next) =
      times (startFactor direction v) (startFactor direction next) := by
  cases direction with
  | toInitial => rfl
  | toFinal => exact inverse_times nextMember vMember

theorem rejoin_ne_zero (direction : Direction) (vMember : P v) (nextMember : P next)
    (vNonzero : v ≠ zero) (nextNonzero : next ≠ zero) : direction.rejoin v next ≠ zero := by
  cases direction with
  | toInitial => exact times_ne_zero vMember nextMember vNonzero nextNonzero
  | toFinal => exact times_ne_zero nextMember vMember nextNonzero vNonzero

end Factors

theorem frontFactor_opposite (direction : Direction) (v : W) :
    frontFactor direction.opposite v = startFactor direction v := by
  cases direction <;> rfl

theorem startFactor_opposite (direction : Direction) (v : W) :
    startFactor direction.opposite v = frontFactor direction v := by
  cases direction <;> rfl

section Joined
variable [Lawful P]

theorem rejoin_mem (direction : Direction) (vMember : P v) (nextMember : P next) :
    P (direction.rejoin v next) := by
  cases direction with
  | toInitial => exact Lawful.times_mem vMember nextMember
  | toFinal => exact Lawful.times_mem nextMember vMember

theorem get_joined (direction : Direction) (firstMembers : ∀ v ∈ first, P v)
    (secondMembers : ∀ v ∈ second, P v) (s : Nat) :
    Potential.get (joined direction first second) s =
      direction.rejoin (Potential.get first s) (Potential.get second s) := by
  have firstMember : P (Potential.get first s) := get_mem firstMembers s
  have secondMember : P (Potential.get second s) := get_mem secondMembers s
  unfold Potential.get joined at *
  rw [Array.getElem?_zipWith]
  cases firstFound : first[s]? with
  | none =>
    cases direction with
    | toInitial => exact (Lawful.zero_times secondMember).symm
    | toFinal => exact (Lawful.times_zero secondMember).symm
  | some v =>
    rw [firstFound] at firstMember
    cases secondFound : second[s]? with
    | none =>
      cases direction with
      | toInitial => exact (Lawful.times_zero firstMember).symm
      | toFinal => exact (Lawful.zero_times firstMember).symm
    | some next => rfl

theorem joined_mem (direction : Direction) (firstMembers : ∀ v ∈ first, P v)
    (secondMembers : ∀ v ∈ second, P v) : ∀ v ∈ joined direction first second, P v := by
  intro v present
  obtain ⟨s, found⟩ := Array.mem_iff_getElem?.mp present
  have reads := get_joined direction firstMembers secondMembers s
  rw [Potential.get, found] at reads
  change v = _ at reads
  rw [reads]
  exact rejoin_mem direction (get_mem firstMembers s) (get_mem secondMembers s)

end Joined

section Settled
variable [Lawful P] [Direction.toFinal.DividesOut P]

theorem joined_covering (direction : Direction) (firstCovering : Covering P first a)
    (secondCovering : Covering P second a) : Covering P (joined direction first second) a where
  members := joined_mem direction firstCovering.members secondCovering.members
  nonzero s inside := by
    rw [get_joined direction firstCovering.members secondCovering.members]
    exact rejoin_ne_zero direction (get_mem firstCovering.members s)
      (get_mem secondCovering.members s) (firstCovering.nonzero s inside)
      (secondCovering.nonzero s inside)

variable [Direction.toInitial.DividesOut P]

theorem settledFront_mem (direction : Direction) (members : ∀ v ∈ potentials, P v)
    (start s : Nat) : P (settledFront direction potentials start s) := by
  unfold settledFront
  split
  · exact Lawful.one_mem
  · exact frontFactor_mem direction (get_mem members s)

variable [Tested P]

-- Whether the start's potential is folded in or, being one, left out: what leaves the
-- start ends up with nothing before it.
theorem reweight_settled (reported : (properties W).contains direction.required = true)
    (unlooped : a.Unlooped P start) (covering : Covering P potentials a) :
    a.reweight direction potentials = .ok (a.flank (settledFront direction potentials start)
      fun s => startFactor direction (Potential.get potentials s)) := by
  have score : ∀ s, P (Potential.get potentials s) := get_mem covering.members
  have nonzero : Potential.get potentials start ≠ zero :=
    covering.nonzero start (unlooped.closed.start start unlooped.begins)
  have moved := moveWeights_flank direction unlooped.all covering.members
  obtain ⟨b, reweighted, outcome⟩ :=
    reweight_outcome potentials reported unlooped.closed unlooped.begins
  rw [reweighted]
  cases outcome with
  | kept plain =>
    rw [moved]
    congr 2
    funext s
    unfold settledFront
    split
    · rename_i here
      rcases (Tested.plain_iff (score start)).mp plain with none | unit
      · exact absurd none nonzero
      · rw [← here, unit, frontFactor_one P]
    · rfl
  | folded _ _ _ =>
    rw [moved, foldStart_flank unlooped.all (fun s => frontFactor_mem direction (score s))
      (fun s => startFactor_mem_inverting direction (score s))
      (startFactor_mem_inverting direction (score start))]
    congr 2
    funext s
    unfold settledFront
    split
    · rename_i here
      rw [← here, startFactor_frontFactor direction (score start) nonzero]
    · rfl
  | prepended _ _ cyclic => exact absurd cyclic unlooped.acyclic

theorem reweight_twice (direction other : Direction)
    (reported : ∀ direction : Direction, (properties W).contains direction.required = true)
    (unlooped : a.Unlooped P start) (firstCovering : Covering P first a)
    (secondCovering : Covering P second a) :
    ∃ b, a.reweight direction first = .ok b ∧ b.reweight other second = .ok (a.flank
      (fun s => times (settledFront other second start s) (settledFront direction first start s))
      fun s => times (startFactor direction (Potential.get first s))
        (startFactor other (Potential.get second s))) := by
  have fronts := settledFront_mem direction firstCovering.members start
  have backs : ∀ s, P (startFactor direction (Potential.get first s)) :=
    fun s => startFactor_mem_inverting direction (get_mem firstCovering.members s)
  refine ⟨_, reweight_settled (reported direction) unlooped firstCovering, ?_⟩
  rw [reweight_settled (reported other) (unlooped.flank fronts backs) (secondCovering.flank _ _),
    flank_flank unlooped.all fronts backs (settledFront_mem other secondCovering.members start)
      fun s => startFactor_mem_inverting other (get_mem secondCovering.members s)]

-- Two reweightings in one direction are one with the products of the potentials, and a
-- reweighting is undone by the other direction.
theorem reweight_compose
    (reported : ∀ direction : Direction, (properties W).contains direction.required = true)
    (unlooped : a.Unlooped P start) (firstCovering : Covering P first a)
    (secondCovering : Covering P second a) :
    (∀ direction : Direction, ∃ b c, a.reweight direction first = .ok b ∧
      b.reweight direction second = .ok c ∧
      a.reweight direction (joined direction first second) = .ok c) ∧
    ∀ direction : Direction, ∃ b, a.reweight direction first = .ok b ∧
      b.reweight direction.opposite first = .ok a := by
  have firstScore : ∀ s, P (Potential.get first s) := get_mem firstCovering.members
  have secondScore : ∀ s, P (Potential.get second s) := get_mem secondCovering.members
  constructor
  · intro direction
    obtain ⟨b, firstRun, secondRun⟩ :=
      reweight_twice direction direction reported unlooped firstCovering secondCovering
    refine ⟨b, _, firstRun, secondRun, ?_⟩
    rw [reweight_settled (reported direction) unlooped
      (joined_covering direction firstCovering secondCovering)]
    congr 2
    · funext s
      unfold settledFront
      rw [get_joined direction firstCovering.members secondCovering.members]
      split
      · exact (Lawful.one_times (P := P) Lawful.one_mem).symm
      · exact frontFactor_rejoin direction (firstScore s) (secondScore s)
    · funext s
      rw [get_joined direction firstCovering.members secondCovering.members]
      exact startFactor_rejoin direction (firstScore s) (secondScore s)
  · intro direction
    obtain ⟨b, firstRun, secondRun⟩ :=
      reweight_twice direction direction.opposite reported unlooped firstCovering firstCovering
    refine ⟨b, firstRun, secondRun.trans ?_⟩
    have cancels : ∀ s < a.states.size, times (startFactor direction (Potential.get first s))
        (frontFactor direction (Potential.get first s)) = one :=
      fun s inside => startFactor_frontFactor direction (firstScore s)
        (firstCovering.nonzero s inside)
    refine congrArg Except.ok ((flank_congr unlooped.closed ?_ ?_).trans (flank_one unlooped.all))
    · intro s inside
      unfold settledFront
      split
      · exact Lawful.one_times (P := P) Lawful.one_mem
      · rw [frontFactor_opposite, cancels s inside]
    · intro s inside
      rw [startFactor_opposite, cancels s inside]

end Settled

def entered : Automaton (Tropical Exact) where
  states := #[
    ⟨Tropical.cost (some 3), #[⟨1, 1, Tropical.cost (some 2), 1⟩]⟩,
    ⟨Tropical.cost (some 4), #[⟨2, 2, Tropical.cost (some (1 / 2)), 1⟩]⟩,
    ⟨Tropical.cost none, #[⟨3, 3, Tropical.cost (some 5), 0⟩]⟩]
  start := some 0

def enteredFirst : Array (Tropical Exact) :=
  #[Tropical.cost (some 7), Tropical.cost (some 2), Tropical.cost (some 6)]

def enteredSecond : Array (Tropical Exact) :=
  #[Tropical.cost (some (-7)), Tropical.cost (some 3), Tropical.cost (some 0)]

theorem entered_unlooped : entered.Unlooped Member 0 := by
  have onward : ∀ s < 2, ∀ t, entered.Step s t → t = 1 := by
    intro s inside t step
    obtain ⟨i, arc, found, rfl⟩ := step
    have targets : ∀ q < 2, ∀ arc ∈ entered.leaving q, arc.target = 1 := by decide
    exact targets s inside arc (mem_leaving.mpr ⟨i, found⟩)
  have after : ∀ t, Relation.TransGen entered.Step 0 t → t = 1 := by
    intro t path
    induction path with
    | single step => exact onward 0 (by decide) _ step
    | tail _ step ih => exact onward _ (by rw [ih]; decide) _ step
  refine ⟨by decide, rfl, fun cycle => ?_, by decide⟩
  exact absurd (after 0 cycle) (by decide)

theorem entered_compose :
    (∀ direction : Direction,
        (properties (Tropical Exact)).contains direction.required = true) ∧
      entered.Unlooped Member 0 ∧ Covering Member enteredFirst entered ∧
      Covering Member enteredSecond entered ∧
      (∀ direction : Direction, ∃ b c, entered.reweight direction enteredFirst = .ok b ∧
        b.reweight direction enteredSecond = .ok c ∧
        entered.reweight direction (joined direction enteredFirst enteredSecond) = .ok c) ∧
      ∀ direction : Direction, ∃ b, entered.reweight direction enteredFirst = .ok b ∧
        b.reweight direction.opposite enteredFirst = .ok entered := by
  have firstCovering : Covering Member enteredFirst entered := ⟨by decide, by decide⟩
  have secondCovering : Covering Member enteredSecond entered := ⟨by decide, by decide⟩
  exact ⟨Tropical.contains_required, entered_unlooped, firstCovering, secondCovering,
    reweight_compose Tropical.contains_required entered_unlooped firstCovering secondCovering⟩

end Automaton
end WeightedAutomata
