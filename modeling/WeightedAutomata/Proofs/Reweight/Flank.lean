import WeightedAutomata.Proofs.Reweight.Members
import WeightedAutomata.Proofs.Weight.Division

namespace WeightedAutomata.Automaton
open Weight
variable {W : Type} [Weight W] {P : W → Prop} {direction : Direction} {potentials : Array W}
  {a : Automaton W} {start s : Nat} {v next weight factor : W}
  {front back nextFront nextBack : Nat → W}

-- A state with one factor before all that leaves it, and one behind each arc for the
-- state where the arc leads.
def flankState (front : W) (back : Nat → W) (state : State W) : State W where
  finalWeight := times front state.finalWeight
  arcs := state.arcs.map fun arc =>
    { arc with weight := times (times front arc.weight) (back arc.target) }

def flank (front back : Nat → W) (a : Automaton W) : Automaton W :=
  { a with states := a.states.mapIdx fun s => flankState (front s) back }

theorem flank_state : (a.flank front back).states[s]? =
    (a.states[s]?).map (flankState (front s) back) := by
  simp [flank]

theorem flank_alike (front back : Nat → W) (a : Automaton W) : a.Alike (a.flank front back) := by
  refine ⟨rfl, fun s => ?_⟩
  rw [shapes, shapes, flank_state, Option.map_map]
  congr 1
  funext state
  simp [flankState, Arc.shape, Function.comp_def]

-- Only the factors of states that exist count.
theorem flank_congr (closed : a.Closed) (fronts : ∀ s < a.states.size, front s = nextFront s)
    (backs : ∀ s < a.states.size, back s = nextBack s) :
    a.flank front back = a.flank nextFront nextBack := by
  refine ext_states rfl fun s => ?_
  rw [flank_state, flank_state]
  refine Option.map_congr fun state found => ?_
  have inside : s < a.states.size := (Array.getElem?_eq_some_iff.mp found).1
  simp only [flankState, fronts s inside, State.mk.injEq, true_and]
  apply Array.map_congr_left
  intro arc leaves
  rw [backs arc.target (closed.targets state (Array.mem_of_getElem? found) arc leaves)]

section Lawful
variable [Lawful P]

theorem flank_all (all : a.All P) (fronts : ∀ s, P (front s)) (backs : ∀ s, P (back s)) :
    (a.flank front back).All P := by
  constructor
  · intro state present
    obtain ⟨s, inside, rfl⟩ := Array.mem_mapIdx.mp present
    exact Lawful.times_mem (fronts s) (all.final _ (Array.getElem_mem inside))
  · intro state present arc leaves
    obtain ⟨s, inside, rfl⟩ := Array.mem_mapIdx.mp present
    obtain ⟨old, oldLeaves, rfl⟩ := Array.mem_map.mp leaves
    have member := all.arcs _ (Array.getElem_mem inside) old oldLeaves
    exact Lawful.times_mem (Lawful.times_mem (fronts s) member) (backs old.target)

theorem flank_flank (all : a.All P) (fronts : ∀ s, P (front s)) (backs : ∀ s, P (back s))
    (nextFronts : ∀ s, P (nextFront s)) (nextBacks : ∀ s, P (nextBack s)) :
    (a.flank front back).flank nextFront nextBack =
      a.flank (fun s => times (nextFront s) (front s)) (fun s => times (back s) (nextBack s)) := by
  refine ext_states rfl fun s => ?_
  rw [flank_state, flank_state, flank_state, Option.map_map]
  refine Option.map_congr fun state found => ?_
  have present := Array.mem_of_getElem? found
  have final : P state.finalWeight := all.final state present
  simp only [Function.comp_apply, flankState, Array.map_map, State.mk.injEq]
  refine ⟨(Lawful.times_assoc (nextFronts s) (fronts s) final).symm, Array.map_congr_left ?_⟩
  intro arc leaves
  have member : P arc.weight := all.arcs state present arc leaves
  have inner : P (times (front s) arc.weight) := Lawful.times_mem (fronts s) member
  simp only [Function.comp_apply, Arc.mk.injEq, true_and, and_true]
  calc times (times (nextFront s) (times (times (front s) arc.weight) (back arc.target)))
        (nextBack arc.target)
      = times (times (times (nextFront s) (times (front s) arc.weight)) (back arc.target))
          (nextBack arc.target) := by
        rw [Lawful.times_assoc (nextFronts s) inner (backs arc.target)]
    _ = times (times (nextFront s) (times (front s) arc.weight))
          (times (back arc.target) (nextBack arc.target)) :=
        Lawful.times_assoc (Lawful.times_mem (nextFronts s) inner) (backs arc.target)
          (nextBacks arc.target)
    _ = times (times (times (nextFront s) (front s)) arc.weight)
          (times (back arc.target) (nextBack arc.target)) := by
        rw [Lawful.times_assoc (nextFronts s) (fronts s) member]

theorem flank_one (all : a.All P) : a.flank (fun _ => one) (fun _ => one) = a := by
  refine ext_states rfl fun s => ?_
  rw [flank_state]
  cases found : a.states[s]? with
  | none => rfl
  | some state =>
    have present := Array.mem_of_getElem? found
    have arcs : state.arcs.map (fun arc =>
        { arc with weight := times (times one arc.weight) one }) = state.arcs := by
      refine (Array.map_congr_left fun arc leaves => ?_).trans (Array.map_id _)
      have member : P arc.weight := all.arcs state present arc leaves
      rw [Lawful.one_times member, Lawful.times_one member]
      rfl
    simp only [Option.map_some, flankState, arcs, Lawful.one_times (all.final state present)]

theorem foldStart_flank (all : a.All P) (fronts : ∀ s, P (front s)) (backs : ∀ s, P (back s))
    (member : P factor) (start : Nat) :
    (a.flank front back).foldStart factor start =
      a.flank (fun s => if start = s then times factor (front s) else front s) back := by
  refine ext_states rfl fun s => ?_
  rw [foldStart_state, flank_state, flank_state]
  by_cases here : start = s
  · rw [if_pos here, if_pos here, Option.map_map]
    refine Option.map_congr fun state found => ?_
    have present := Array.mem_of_getElem? found
    have final : P state.finalWeight := all.final state present
    simp only [Function.comp_apply, scaleState, flankState, Array.map_map, State.mk.injEq]
    refine ⟨(Lawful.times_assoc member (fronts s) final).symm, Array.map_congr_left ?_⟩
    intro arc leaves
    have weight : P arc.weight := all.arcs state present arc leaves
    simp only [Function.comp_apply, Arc.mk.injEq, true_and, and_true]
    rw [← Lawful.times_assoc member (Lawful.times_mem (fronts s) weight) (backs arc.target),
      ← Lawful.times_assoc member (fronts s) weight]
  · rw [if_neg here, if_neg here]

end Lawful

-- What a potential puts before all that leaves its state. What it puts behind the arcs
-- that lead to its state is its start factor.
def frontFactor (direction : Direction) (v : W) : W :=
  match direction with
  | .toInitial => inverse v
  | .toFinal => v

section Inverting
variable [inverting : Inverting P]

theorem frontFactor_mem (direction : Direction) (member : P v) : P (frontFactor direction v) := by
  cases direction with
  | toInitial => exact inverting.inverse_mem member
  | toFinal => exact member

theorem startFactor_mem_inverting (direction : Direction) (member : P v) :
    P (startFactor direction v) := by
  cases direction with
  | toInitial => exact member
  | toFinal => exact inverting.inverse_mem member

theorem reweightFinal_flank (direction : Direction) (source : P v) (member : P weight) :
    reweightFinal direction v weight = times (frontFactor direction v) weight := by
  cases direction with
  | toInitial => exact inverting.divide_left member source
  | toFinal => rfl

variable [Lawful P]

theorem frontFactor_one (P : W → Prop) [Lawful P] [Inverting P] :
    frontFactor direction (one : W) = one := by
  cases direction with
  | toInitial => exact inverse_one P
  | toFinal => rfl

theorem reweightArc_flank (direction : Direction) (source : P v) (target : P next)
    (member : P weight) : reweightArc direction v next weight =
      times (times (frontFactor direction v) weight) (startFactor direction next) := by
  cases direction with
  | toInitial =>
    rw [reweightArc, inverting.divide_left (Lawful.times_mem member target) source,
      ← Lawful.times_assoc (inverting.inverse_mem source) member target]
    rfl
  | toFinal =>
    rw [reweightArc, inverting.divide_right (Lawful.times_mem source member) target]
    rfl

theorem moveWeights_flank (direction : Direction) (all : a.All P)
    (members : ∀ v ∈ potentials, P v) :
    a.moveWeights direction potentials =
      a.flank (fun s => frontFactor direction (Potential.get potentials s))
        (fun s => startFactor direction (Potential.get potentials s)) := by
  refine ext_states rfl fun s => ?_
  rw [moveWeights_state, flank_state]
  refine Option.map_congr fun state found => ?_
  have present := Array.mem_of_getElem? found
  simp only [reweightState, flankState, State.mk.injEq]
  refine ⟨reweightFinal_flank direction (get_mem members s) (all.final state present),
    Array.map_congr_left ?_⟩
  intro arc leaves
  simp only [Arc.mk.injEq, true_and, and_true]
  exact reweightArc_flank direction (get_mem members s) (get_mem members arc.target)
    (all.arcs state present arc leaves)

end Inverting
end WeightedAutomata.Automaton
