import WeightedAutomata.Proofs.Reweight.Pushing
import WeightedAutomata.Proofs.Weight.Chance

namespace WeightedAutomata.Automaton
open Weight
variable {W : Type} [Weight W] {P : W → Prop} {potentials : Array W} {a b : Automaton W}
  {start p q : Nat} {factor : W}

def between (a : Automaton W) (q p : Nat) : List W :=
  ((a.leaving p).filter fun arc => arc.target = q).map Arc.weight

def incoming (a : Automaton W) (q : Nat) : W :=
  sum ((List.range a.states.size).flatMap (a.between q))

theorem moveWeights_between : (a.moveWeights .toFinal potentials).between q p =
    (arriving potentials a q p).map (divideOrZero .right · (Potential.get potentials q)) := by
  unfold between arriving
  rw [moveWeights_leaving, List.filter_map, List.map_map, List.map_map]
  apply List.map_congr_left
  intro arc kept
  have target : arc.target = q := by simpa using (List.mem_filter.mp kept).2
  simp only [Function.comp_apply, movedWeight, target]
  rfl

theorem entering_mem [Lawful P] (all : a.All P) (members : ∀ v ∈ potentials, P v) (q : Nat) :
    ∀ x ∈ (List.range a.states.size).flatMap (arriving potentials a q), P x := by
  intro x present
  obtain ⟨p, _, arrives⟩ := List.mem_flatMap.mp present
  exact arriving_mem all members q p x arrives

theorem moveWeights_incoming [Lawful P] [RightDistributive P] [Direction.toFinal.DividesOut P]
    (all : a.All P) (members : ∀ v ∈ potentials, P v) (nonzero : Potential.get potentials q ≠ zero) :
    (a.moveWeights .toFinal potentials).incoming q =
      divideOrZero .right (sum ((List.range a.states.size).flatMap (arriving potentials a q)))
        (Potential.get potentials q) := by
  have moved : ∀ p, (a.moveWeights .toFinal potentials).between q p = _ :=
    fun _ => moveWeights_between
  refine Eq.trans ?_ (divideOrZero_sum .toFinal (entering_mem all members q) (get_mem members q)
    nonzero).symm
  rw [incoming, moveWeights_size, funext moved, List.map_flatMap]
  rfl

-- Before the start's potential is put back, its own share of the start is still divided.
theorem moveWeights_entered [Lawful P] [RightDistributive P] [Direction.toFinal.DividesOut P]
    (distances : DistancesFromStart potentials a start) (all : a.All P)
    (members : ∀ v ∈ potentials, P v) (exist : q < a.states.size)
    (nonzero : Potential.get potentials q ≠ zero) :
    plus (divideOrZero .right (if q = start then one else zero) (Potential.get potentials q))
      ((a.moveWeights .toFinal potentials).incoming q) = one := by
  have score : P (Potential.get potentials q) := get_mem members q
  have initial : P (if q = start then one else zero) := by
    split
    · exact Lawful.one_mem
    · exact Lawful.zero_mem
  have entering := Weight.sum_mem (entering_mem all members q)
  calc plus (divideOrZero .right (if q = start then one else zero) (Potential.get potentials q))
        ((a.moveWeights .toFinal potentials).incoming q)
      = divideOrZero .right (plus (if q = start then one else zero)
          (sum ((List.range a.states.size).flatMap (arriving potentials a q))))
            (Potential.get potentials q) := by
        rw [moveWeights_incoming all members nonzero]
        exact (Direction.divideOrZero_plus .toFinal initial entering score nonzero).symm
    _ = divideOrZero .right (Potential.get potentials q) (Potential.get potentials q) := by
        rw [← distances q exist]
    _ = one := Direction.divideOrZero_self .toFinal score nonzero

theorem moveWeights_entered_away [Lawful P] [RightDistributive P] [Direction.toFinal.DividesOut P]
    (distances : DistancesFromStart potentials a start) (all : a.All P)
    (members : ∀ v ∈ potentials, P v) (exist : q < a.states.size) (away : q ≠ start)
    (nonzero : Potential.get potentials q ≠ zero) :
    (a.moveWeights .toFinal potentials).incoming q = one := by
  have score : P (Potential.get potentials q) := get_mem members q
  have entered := moveWeights_entered distances all members exist nonzero
  have absorbs : Direction.toFinal.Absorbs P := inferInstance
  have nothing : divideOrZero .right zero (Potential.get potentials q) = zero :=
    absorbs.zero_divideOrZero score
  have member : P ((a.moveWeights .toFinal potentials).incoming q) := by
    rw [moveWeights_incoming all members nonzero]
    exact Direction.divideOrZero_mem .toFinal (Weight.sum_mem (entering_mem all members q)) score
  rwa [if_neg away, nothing, Lawful.zero_plus member] at entered

-- Only states out of reach lead to a start that no cycle passes, and their distance is
-- zero.
theorem start_one_of_acyclic [Lawful P] (distances : DistancesFromStart potentials a start)
    (unreached : ∀ p < a.states.size, ¬ Relation.ReflTransGen a.Step start p →
      Potential.get potentials p = zero)
    (all : a.All P) (exist : start < a.states.size) (acyclic : ¬ a.OnCycle start) :
    Potential.get potentials start = one := by
  have nothing : ∀ x ∈ (List.range a.states.size).flatMap (arriving potentials a start),
      x = zero := by
    intro x present
    obtain ⟨p, inside, arrives⟩ := List.mem_flatMap.mp present
    obtain ⟨arc, kept, rfl⟩ := List.mem_map.mp arrives
    obtain ⟨leaves, target⟩ := List.mem_filter.mp kept
    have step : a.Step p start := by
      have same : arc.target = start := by simpa using target
      exact same ▸ step_of_leaving leaves
    have apart : ¬ Relation.ReflTransGen a.Step start p :=
      fun reached => acyclic (.tail' reached step)
    rw [unreached p (List.mem_range.mp inside) apart, Lawful.zero_times (leaving_mem all leaves)]
  rw [distances start exist, if_pos rfl, sum_eq_zero P nothing,
    plus_zero (P := P) Lawful.one_mem]

theorem prependStart_between_old (exist : p < a.states.size) :
    (a.prependStart factor start).between q p = a.between q p := by
  rw [between, between, leaving, leaving, prependStart_state exist]

theorem prependStart_between_new :
    (a.prependStart factor start).between q a.states.size = if q = start then [factor] else [] := by
  rw [between, leaving, prependStart_last]
  by_cases here : q = start
  · simp [here]
  · have other : start ≠ q := fun same => here same.symm
    simp [here, other]

theorem prependStart_incoming [Lawful P] (all : a.All P) (member : P factor) :
    (a.prependStart factor start).incoming q =
      if q = start then plus factor (a.incoming q) else a.incoming q := by
  have weights : ∀ x ∈ (List.range a.states.size).flatMap (a.between q), P x := by
    intro x present
    obtain ⟨p, _, arrives⟩ := List.mem_flatMap.mp present
    obtain ⟨arc, kept, rfl⟩ := List.mem_map.mp arrives
    exact leaving_mem all (List.mem_filter.mp kept).1
  have old : (List.range a.states.size).flatMap ((a.prependStart factor start).between q) =
      (List.range a.states.size).flatMap (a.between q) := by
    rw [List.flatMap_def, List.flatMap_def]
    refine congrArg List.flatten (List.map_congr_left fun p inside => ?_)
    exact prependStart_between_old (List.mem_range.mp inside)
  rw [incoming, prependStart_size, List.range_succ, List.flatMap_append, old, List.flatMap_singleton,
    prependStart_between_new]
  by_cases here : q = start
  · rw [if_pos here, if_pos here, sum_append weights (by simpa using member)]
    change plus (a.incoming q) (plus factor zero) = plus factor (a.incoming q)
    rw [plus_zero member]
    exact Lawful.plus_comm (Weight.sum_mem weights) member
  · rw [if_neg here, if_neg here, List.append_nil]
    rfl

-- Every state at a distance is normalised. A start that no cycle passes is at the
-- distance one, so that nothing is ever taken into its arcs; where a cycle passes it, the
-- arc from the new start brings the share of the empty path.
theorem reweight_incoming [Lawful P] [RightDistributive P] [Tested P]
    [Direction.toFinal.DividesOut P]
    (reported : (properties W).contains Direction.toFinal.required = true) (closed : a.Closed)
    (begins : a.start = some start) (all : a.All P) (members : ∀ v ∈ potentials, P v)
    (distances : DistancesFromStart potentials a start)
    (unreached : ∀ p < a.states.size, ¬ Relation.ReflTransGen a.Step start p →
      Potential.get potentials p = zero) :
    ∃ b t, a.reweight .toFinal potentials = .ok b ∧ b.start = some t ∧
      ((b.states.size = a.states.size ∧ t = start) ∨
        (b.states.size = a.states.size + 1 ∧ t = a.states.size)) ∧
      ∀ q < a.states.size, Potential.get potentials q ≠ zero →
        (if q = t then plus one (b.incoming q) else b.incoming q) = one := by
  have exist : start < a.states.size := closed.start start begins
  have score : P (Potential.get potentials start) := get_mem members start
  have movedAll := moveWeights_all .toFinal members all
  obtain ⟨b, reweighted, outcome⟩ := reweight_outcome potentials reported closed begins
  cases outcome with
  | kept plain =>
    refine ⟨_, start, reweighted, begins, .inl ⟨moveWeights_size, rfl⟩, ?_⟩
    intro q inside nonzero
    by_cases here : q = start
    · subst q
      have unit : Potential.get potentials start = one :=
        ((Tested.plain_iff score).mp plain).resolve_left nonzero
      have entered := moveWeights_entered distances all members inside nonzero
      have absorbs : Direction.toFinal.Absorbs P := inferInstance
      have same : divideOrZero .right (one : W) one = one := absorbs.one_divideOrZero_one
      rw [if_pos rfl, unit, same] at entered
      rw [if_pos rfl]
      exact entered
    · rw [if_neg here]
      exact moveWeights_entered_away distances all members inside here nonzero
  | folded _ one acyclic =>
    have unit := start_one_of_acyclic distances unreached all exist acyclic
    rw [(Tested.isOne_iff score).mpr unit] at one
    cases one
  | prepended _ _ cyclic =>
    refine ⟨_, a.states.size, reweighted, by simp [prependStart], .inr ⟨by simp, rfl⟩, ?_⟩
    intro q inside nonzero
    rw [if_neg (Nat.ne_of_lt inside), prependStart_incoming movedAll (startFactor_mem .toFinal score)]
    by_cases here : q = start
    · subst q
      have entered := moveWeights_entered distances all members inside nonzero
      rw [if_pos rfl] at entered ⊢
      exact entered
    · rw [if_neg here]
      exact moveWeights_entered_away distances all members inside here nonzero

def revolving : Automaton Chance where
  states := #[
    ⟨Chance.of 0, #[⟨1, 1, Chance.of (1 / 2), 1⟩, ⟨2, 2, Chance.of (1 / 2), 2⟩]⟩,
    ⟨Chance.of 0, #[⟨3, 3, Chance.of 1, 0⟩]⟩,
    ⟨Chance.of 1, #[]⟩,
    ⟨Chance.of 0, #[⟨4, 4, Chance.of 5, 0⟩]⟩]
  start := some 0

def revolvingDistances : Array Chance :=
  #[Chance.of 2, Chance.of 1, Chance.of 1]

theorem revolving_incoming :
    (properties Chance).contains Direction.toFinal.required = true ∧ revolving.Closed ∧
      revolving.start = some 0 ∧ revolving.All Member ∧ (∀ v ∈ revolvingDistances, Member v) ∧
      DistancesFromStart revolvingDistances revolving 0 ∧
      (∀ p < revolving.states.size, ¬ Relation.ReflTransGen revolving.Step 0 p →
        Potential.get revolvingDistances p = zero) ∧
      Potential.get revolvingDistances 0 ≠ one ∧
      ∃ b t, revolving.reweight .toFinal revolvingDistances = .ok b ∧ b.start = some t ∧
        ((b.states.size = 4 ∧ t = 0) ∨ (b.states.size = 5 ∧ t = 4)) ∧
        ∀ q < 4, Potential.get revolvingDistances q ≠ zero →
          (if q = t then plus one (b.incoming q) else b.incoming q) = one := by
  have reported : (properties Chance).contains Direction.toFinal.required = true := rfl
  have closed : revolving.Closed := by decide
  have all : revolving.All Member := by decide
  have members : ∀ v ∈ revolvingDistances, Member v := by decide
  have distances : DistancesFromStart revolvingDistances revolving 0 := by
    unfold DistancesFromStart
    decide +kernel
  have unreached : ∀ p < revolving.states.size, ¬ Relation.ReflTransGen revolving.Step 0 p →
      Potential.get revolvingDistances p = zero := by
    intro p inside apart
    match p with
    | 0 => exact absurd .refl apart
    | 1 => exact absurd (.single ⟨0, _, rfl, rfl⟩) apart
    | 2 => exact absurd (.single ⟨1, _, rfl, rfl⟩) apart
    | p + 3 => simp [Potential.get, revolvingDistances]
  exact ⟨reported, closed, rfl, all, members, distances, unreached, by decide,
    reweight_incoming reported closed rfl all members distances unreached⟩

end WeightedAutomata.Automaton
