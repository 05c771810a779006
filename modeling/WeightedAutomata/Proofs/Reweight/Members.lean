import WeightedAutomata.Proofs.Reweight.Outcome
import WeightedAutomata.Proofs.Weight.Laws

namespace WeightedAutomata.Automaton
open Weight
variable {W : Type} [Weight W] {P : W → Prop} {direction : Direction} {potentials : Array W}
  {a b : Automaton W} {start s : Nat} {v next weight factor : W}

theorem get_mem [Multiplicative P] (members : ∀ v ∈ potentials, P v) (s : Nat) :
    P (Potential.get potentials s) := by
  unfold Potential.get
  cases found : potentials[s]? with
  | none => exact Multiplicative.zero_mem
  | some v => exact members v (Array.mem_of_getElem? found)

section Moving
variable [Multiplicative P] [dividing : direction.Dividing P]

theorem reweightArc_mem (source : P v) (target : P next) (member : P weight) :
    P (reweightArc direction v next weight) := by
  cases direction with
  | toInitial => exact dividing.divideOrZero_mem (Multiplicative.times_mem member target) source
  | toFinal => exact dividing.divideOrZero_mem (Multiplicative.times_mem source member) target

theorem reweightFinal_mem (source : P v) (member : P weight) :
    P (reweightFinal direction v weight) := by
  cases direction with
  | toInitial => exact dividing.divideOrZero_mem member source
  | toFinal => exact Multiplicative.times_mem source member

variable (direction) in
theorem startFactor_mem (member : P v) : P (startFactor direction v) := by
  cases direction with
  | toInitial => exact member
  | toFinal => exact dividing.divideOrZero_mem Multiplicative.one_mem member

theorem movedWeight_mem (members : ∀ v ∈ potentials, P v) (all : a.All P) {arc : Arc W} {i : Nat}
    (found : a.arc? s i = some arc) : P (movedWeight direction potentials s arc) :=
  reweightArc_mem (get_mem members s) (get_mem members arc.target) (all.weight found)

variable (direction) in
theorem moveWeights_all (members : ∀ v ∈ potentials, P v) (all : a.All P) :
    (a.moveWeights direction potentials).All P := by
  constructor
  · intro state present
    obtain ⟨s, inside, rfl⟩ := Array.mem_mapIdx.mp present
    exact reweightFinal_mem (get_mem members s) (all.final _ (Array.getElem_mem inside))
  · intro state present arc leaves
    obtain ⟨s, inside, rfl⟩ := Array.mem_mapIdx.mp present
    obtain ⟨old, oldLeaves, rfl⟩ := Array.mem_map.mp leaves
    exact reweightArc_mem (get_mem members s) (get_mem members old.target)
      (all.arcs _ (Array.getElem_mem inside) old oldLeaves)

omit dividing in
theorem foldStart_all (start : Nat) (member : P factor) (all : a.All P) :
    (a.foldStart factor start).All P := by
  constructor
  · intro state present
    obtain ⟨s, found⟩ := Array.mem_iff_getElem?.mp present
    rw [foldStart_state] at found
    split at found
    · obtain ⟨old, oldFound, rfl⟩ := Option.map_eq_some_iff.mp found
      exact Multiplicative.times_mem member (all.final old (Array.mem_of_getElem? oldFound))
    · exact all.final state (Array.mem_of_getElem? found)
  · intro state present arc leaves
    obtain ⟨s, found⟩ := Array.mem_iff_getElem?.mp present
    obtain ⟨i, arcFound⟩ := Array.mem_iff_getElem?.mp leaves
    have here := arc?_eq_some.mpr ⟨state, found, arcFound⟩
    rw [foldStart_arc?] at here
    obtain ⟨old, oldFound, rfl⟩ := Option.map_eq_some_iff.mp here
    by_cases same : start = s
    · simpa [same] using Multiplicative.times_mem member (all.weight oldFound)
    · simpa [same] using all.weight oldFound

omit dividing in
theorem prependStart_all (start : Nat) (member : P factor) (all : a.All P) :
    (a.prependStart factor start).All P := by
  constructor
  · intro state present
    rcases Array.mem_push.mp present with old | rfl
    · exact all.final state old
    · exact Multiplicative.zero_mem
  · intro state present arc leaves
    rcases Array.mem_push.mp present with old | rfl
    · exact all.arcs state old arc leaves
    · cases Array.mem_singleton.mp leaves
      exact member

theorem Outcome.all (outcome : Outcome direction potentials start a b)
    (members : ∀ v ∈ potentials, P v) (all : a.All P) : b.All P := by
  have moved := moveWeights_all direction members all
  have factor := startFactor_mem direction (get_mem members start)
  cases outcome with
  | kept plain => exact moved
  | folded zero one acyclic => exact foldStart_all start factor moved
  | prepended zero one cyclic => exact prependStart_all start factor moved

theorem reweight_all (closed : a.Closed) (members : ∀ v ∈ potentials, P v) (all : a.All P)
    (reweighted : a.reweight direction potentials = .ok b) : b.All P := by
  have reported := reported_of_reweight reweighted
  cases begins : a.start with
  | none =>
    rw [reweight_unstarted reported begins] at reweighted
    cases reweighted
    exact moveWeights_all direction members all
  | some start =>
    obtain ⟨c, result, outcome⟩ := reweight_outcome potentials reported closed begins
    cases result.symm.trans reweighted
    exact outcome.all members all

end Moving

theorem startFactor_one (P : W → Prop) [absorbs : direction.Absorbs P] :
    startFactor direction (one : W) = one := by
  cases direction with
  | toInitial => rfl
  | toFinal => exact absorbs.one_divideOrZero_one

theorem startFactor_zero (P : W → Prop) [Lawful P] [absorbs : direction.Absorbs P] :
    startFactor direction (zero : W) = zero := by
  cases direction with
  | toInitial => rfl
  | toFinal => exact absorbs.divideOrZero_zero Lawful.one_mem

-- A start potential of one scales nothing, and one of zero has left nothing to scale.
section Plain
variable [Lawful P] [absorbs : direction.Absorbs P]

theorem zero_reweightArc (target : P next) (member : P weight) :
    reweightArc direction zero next weight = zero := by
  cases direction with
  | toInitial => exact absorbs.divideOrZero_zero (Lawful.times_mem member target)
  | toFinal =>
    unfold reweightArc
    rw [Lawful.zero_times member]
    exact absorbs.zero_divideOrZero target

theorem zero_reweightFinal (member : P weight) :
    reweightFinal direction zero weight = zero := by
  cases direction with
  | toInitial => exact absorbs.divideOrZero_zero member
  | toFinal => exact Lawful.zero_times member

theorem scale_reweightState {state : State W} (members : ∀ v ∈ potentials, P v)
    (final : P state.finalWeight) (arcs : ∀ arc ∈ state.arcs, P arc.weight)
    (plain : (Potential.get potentials s = zero ∧ P factor) ∨ factor = one) :
    scaleState factor (reweightState direction potentials s state) =
      reweightState direction potentials s state := by
  simp only [scaleState, reweightState, Array.map_map, State.mk.injEq]
  rcases plain with ⟨none, member⟩ | rfl
  · rw [none]
    refine ⟨?_, Array.map_congr_left ?_⟩
    · rw [zero_reweightFinal final, Lawful.times_zero member]
    · intro arc leaves
      simp only [Function.comp_apply, Arc.mk.injEq, true_and, and_true]
      rw [zero_reweightArc (get_mem members arc.target) (arcs arc leaves), Lawful.times_zero member]
  · refine ⟨Lawful.one_times (reweightFinal_mem (get_mem members s) final), Array.map_congr_left ?_⟩
    intro arc leaves
    simp only [Function.comp_apply, Arc.mk.injEq, true_and, and_true]
    exact Lawful.one_times
      (reweightArc_mem (get_mem members s) (get_mem members arc.target) (arcs arc leaves))

variable (direction) in
theorem foldStart_plain (all : a.All P) (members : ∀ v ∈ potentials, P v)
    (plain : (Potential.get potentials start = zero ∧ P factor) ∨ factor = one) :
    (a.moveWeights direction potentials).foldStart factor start =
      a.moveWeights direction potentials := by
  refine ext_states rfl fun s => ?_
  rw [foldStart_state, moveWeights_state]
  by_cases here : start = s
  · subst s
    rw [if_pos rfl]
    cases found : a.states[start]? with
    | none => rfl
    | some state =>
      have present := Array.mem_of_getElem? found
      simp only [Option.map_some, Option.some.injEq]
      exact scale_reweightState members (all.final state present) (all.arcs state present) plain
  · rw [if_neg here]

end Plain

theorem pathWeight?_of_foldStart [Lawful P] (all : a.All P) (member : P factor)
    (same : a.foldStart factor start = a) (path : Path) :
    (a.pathWeight? start path).map (times factor) = a.pathWeight? start path := by
  cases path with
  | nil =>
    have states : (a.foldStart factor start).states[start]? = _ := foldStart_state
    rw [same, if_pos rfl] at states
    rw [pathWeight?_nil]
    cases found : a.states[start]? with
    | none => rfl
    | some state =>
      rw [found, Option.map_some, Option.some.injEq] at states
      exact congrArg some (congrArg State.finalWeight states).symm
  | cons i path =>
    have arcs : (a.foldStart factor start).arc? start i = _ := foldStart_arc?
    rw [same] at arcs
    rw [pathWeight?_cons]
    cases found : a.arc? start i with
    | none => rfl
    | some arc =>
      rw [found, Option.map_some, if_pos rfl, Option.some.injEq] at arcs
      rw [Option.bind_some]
      cases onward : a.pathWeight? arc.target path with
      | none => rfl
      | some rest =>
        have scaled : arc.weight = times factor arc.weight := congrArg Arc.weight arcs
        simp only [Option.map_some, Option.some.injEq]
        rw [← Lawful.times_assoc member (all.weight found) (pathWeight?_mem all onward), ← scaled]

end WeightedAutomata.Automaton
