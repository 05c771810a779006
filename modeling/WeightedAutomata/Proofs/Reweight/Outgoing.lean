import WeightedAutomata.Proofs.Reweight.Pushing

namespace WeightedAutomata.Automaton
open Weight
variable {W : Type} [Weight W] {P : W → Prop} {potentials : Array W} {a b : Automaton W}
  {start s t : Nat} {factor : W}

def outgoing (a : Automaton W) (s : Nat) : W :=
  plus (a.final s) (sum ((a.leaving s).map Arc.weight))

-- How the states of a result `b` with the start `t` stand. The start alone keeps the
-- distance that all other states have divided out.
structure Normalised (potentials : Array W) (a : Automaton W) (start : Nat) (b : Automaton W)
    (t : Nat) : Prop where
  begins : (b.states.size = a.states.size ∧ t = start) ∨
    (b.states.size = a.states.size + 1 ∧ t = a.states.size)
  unit : ∀ s < a.states.size, s ≠ t → Potential.get potentials s ≠ zero → b.outgoing s = one
  first : Potential.get potentials start ≠ zero → b.outgoing t = Potential.get potentials start

theorem moveWeights_outgoing [Lawful P] [LeftDistributive P] [Direction.toInitial.DividesOut P]
    (distances : DistancesToFinal potentials a) (all : a.All P) (members : ∀ v ∈ potentials, P v)
    (exist : s < a.states.size) (nonzero : Potential.get potentials s ≠ zero) :
    (a.moveWeights .toInitial potentials).outgoing s = one := by
  have scores : ∀ q, P (Potential.get potentials q) := get_mem members
  have onward : ∀ x ∈ (a.leaving s).map fun arc =>
      times arc.weight (Potential.get potentials arc.target), P x := by
    intro x present
    obtain ⟨arc, leaves, rfl⟩ := List.mem_map.mp present
    exact Lawful.times_mem (leaving_mem all leaves) (scores arc.target)
  have moved : ((a.moveWeights .toInitial potentials).leaving s).map Arc.weight =
      ((a.leaving s).map fun arc => times arc.weight (Potential.get potentials arc.target)).map
        (divideOrZero Direction.toInitial.side · (Potential.get potentials s)) := by
    rw [moveWeights_leaving, List.map_map, List.map_map]
    rfl
  calc (a.moveWeights .toInitial potentials).outgoing s
      = plus (divideOrZero Direction.toInitial.side (a.final s) (Potential.get potentials s))
          (divideOrZero Direction.toInitial.side (sum ((a.leaving s).map fun arc =>
            times arc.weight (Potential.get potentials arc.target)))
              (Potential.get potentials s)) := by
        rw [outgoing, moved, moveWeights_final exist,
          divideOrZero_sum .toInitial onward (scores s) nonzero]
        rfl
    _ = divideOrZero Direction.toInitial.side (Potential.get potentials s)
          (Potential.get potentials s) := by
        rw [← Direction.divideOrZero_plus .toInitial (final_mem all s) (Weight.sum_mem onward)
          (scores s) nonzero, ← distances s exist]
    _ = one := Direction.divideOrZero_self .toInitial (scores s) nonzero

theorem foldStart_outgoing [Lawful P] [LeftDistributive P] (all : a.All P) (member : P factor)
    (exist : start < a.states.size) (s : Nat) : (a.foldStart factor start).outgoing s =
      if start = s then times factor (a.outgoing s) else a.outgoing s := by
  have weights : ∀ x ∈ (a.leaving s).map Arc.weight, P x := by
    intro x present
    obtain ⟨arc, leaves, rfl⟩ := List.mem_map.mp present
    exact leaving_mem all leaves
  unfold outgoing
  rw [foldStart_final exist, foldStart_leaving]
  by_cases here : start = s
  · rw [if_pos here, if_pos here, if_pos here,
      LeftDistributive.times_plus (final_mem all s) (Weight.sum_mem weights) member,
      times_sum member weights, List.map_map, List.map_map]
    rfl
  · rw [if_neg here, if_neg here, if_neg here]

theorem prependStart_outgoing_old (exist : s < a.states.size) :
    (a.prependStart factor start).outgoing s = a.outgoing s := by
  rw [outgoing, outgoing, final, final, leaving, leaving, prependStart_state exist]

theorem prependStart_outgoing_new [Lawful P] (a : Automaton W) (start : Nat) (member : P factor) :
    (a.prependStart factor start).outgoing a.states.size = factor := by
  rw [outgoing, final, leaving, prependStart_last]
  change plus zero (plus factor zero) = factor
  rw [plus_zero member, Lawful.zero_plus member]

-- Every state but the start is normalised, and the start carries its own distance: in
-- its own weights, or on the arc from a new start when a cycle runs through it.
theorem reweight_normalised [Lawful P] [LeftDistributive P] [Tested P]
    [Direction.toInitial.DividesOut P]
    (reported : (properties W).contains Direction.toInitial.required = true) (closed : a.Closed)
    (begins : a.start = some start) (all : a.All P) (members : ∀ v ∈ potentials, P v)
    (distances : DistancesToFinal potentials a) :
    ∃ b t, a.reweight .toInitial potentials = .ok b ∧ b.start = some t ∧
      Normalised potentials a start b t := by
  have exist : start < a.states.size := closed.start start begins
  have score : P (Potential.get potentials start) := get_mem members start
  have movedAll := moveWeights_all .toInitial members all
  have unit : ∀ s < a.states.size, Potential.get potentials s ≠ zero →
      (a.moveWeights .toInitial potentials).outgoing s = one :=
    fun s inside nonzero => moveWeights_outgoing distances all members inside nonzero
  obtain ⟨b, reweighted, outcome⟩ := reweight_outcome potentials reported closed begins
  cases outcome with
  | kept plain =>
    refine ⟨_, start, reweighted, begins, .inl ⟨moveWeights_size, rfl⟩,
      fun s inside _ => unit s inside, fun nonzero => ?_⟩
    rcases (Tested.plain_iff score).mp plain with none | same
    · exact absurd none nonzero
    · rw [unit start exist nonzero, same]
  | folded _ _ acyclic =>
    have movedExist : start < (a.moveWeights .toInitial potentials).states.size := by
      simpa using exist
    have folded := foldStart_outgoing movedAll score movedExist
    refine ⟨_, start, reweighted, begins, .inl ⟨by simp, rfl⟩, ?_, fun nonzero => ?_⟩
    · intro s inside other nonzero
      rw [startFactor, folded, if_neg (Ne.symm other), unit s inside nonzero]
    · rw [startFactor, folded, if_pos rfl, unit start exist nonzero, Lawful.times_one score]
  | prepended _ _ cyclic =>
    have added := prependStart_outgoing_new (a.moveWeights .toInitial potentials) start score
    rw [moveWeights_size] at added
    refine ⟨_, a.states.size, reweighted, by simp [prependStart], .inr ⟨by simp, rfl⟩, ?_,
      fun _ => added⟩
    intro s inside _ nonzero
    rw [prependStart_outgoing_old (by simpa using inside), unit s inside nonzero]

def circling : Automaton (Tropical Exact) where
  states := #[
    ⟨Tropical.cost none, #[⟨1, 1, Tropical.cost (some 1), 1⟩, ⟨2, 2, Tropical.cost (some 4), 2⟩,
      ⟨3, 3, Tropical.cost (some 0), 3⟩]⟩,
    ⟨Tropical.cost none, #[⟨4, 4, Tropical.cost (some 2), 0⟩]⟩,
    ⟨Tropical.cost (some (1 / 2)), #[]⟩,
    ⟨Tropical.cost none, #[]⟩]
  start := some 0

def circlingDistances : Array (Tropical Exact) :=
  #[Tropical.cost (some (9 / 2)), Tropical.cost (some (13 / 2)), Tropical.cost (some (1 / 2))]

theorem circling_normalised :
    (properties (Tropical Exact)).contains Direction.toInitial.required = true ∧ circling.Closed ∧
      circling.start = some 0 ∧ circling.All Member ∧ (∀ v ∈ circlingDistances, Member v) ∧
      DistancesToFinal circlingDistances circling ∧
      ∃ b t, circling.reweight .toInitial circlingDistances = .ok b ∧ b.start = some t ∧
        Normalised circlingDistances circling 0 b t := by
  have reported : (properties (Tropical Exact)).contains Direction.toInitial.required = true := rfl
  have closed : circling.Closed := by decide
  have all : circling.All Member := by decide
  have members : ∀ v ∈ circlingDistances, Member v := by decide
  have distances : DistancesToFinal circlingDistances circling := by
    unfold DistancesToFinal
    decide +kernel
  exact ⟨reported, closed, rfl, all, members, distances,
    reweight_normalised reported closed rfl all members distances⟩

end WeightedAutomata.Automaton
