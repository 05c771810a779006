import WeightedAutomata.Proofs.Automaton.Total
import WeightedAutomata.Proofs.Reweight.Members

namespace WeightedAutomata.Automaton
open Weight
variable {W : Type} [Weight W] {P : W → Prop} {direction : Direction} {potentials : Array W}
  {a : Automaton W} {start s k : Nat} {factor : W}

theorem moveWeights_leaving :
    (a.moveWeights direction potentials).leaving s =
      (a.leaving s).map fun arc => { arc with weight := movedWeight direction potentials s arc } := by
  unfold leaving
  rw [moveWeights_state]
  cases a.states[s]? with
  | none => rfl
  | some state => simp [reweightState, movedWeight]

theorem moveWeights_final (exist : s < a.states.size) :
    (a.moveWeights direction potentials).final s =
      reweightFinal direction (Potential.get potentials s) (a.final s) := by
  have found := Array.getElem?_eq_getElem exist
  rw [final_of_state found, final, moveWeights_state, found]
  rfl

theorem foldStart_leaving : (a.foldStart factor start).leaving s =
    if start = s then (a.leaving s).map fun arc => { arc with weight := times factor arc.weight }
    else a.leaving s := by
  unfold leaving
  rw [foldStart_state]
  by_cases here : start = s
  · rw [if_pos here, if_pos here]
    cases a.states[s]? with
    | none => rfl
    | some state => simp [scaleState]
  · rw [if_neg here, if_neg here]

theorem foldStart_final (exist : start < a.states.size) : (a.foldStart factor start).final s =
    if start = s then times factor (a.final s) else a.final s := by
  unfold final
  rw [foldStart_state]
  by_cases here : start = s
  · subst s
    rw [if_pos rfl, if_pos rfl, Array.getElem?_eq_getElem exist]
    rfl
  · rw [if_neg here, if_neg here]

theorem foldStart_total_away (exist : start < a.states.size)
    (away : ¬ Relation.ReflTransGen a.Step s start) (k : Nat) :
    (a.foldStart factor start).total k s = a.total k s := by
  induction k generalizing s with
  | zero => rfl
  | succ k ih =>
    have other : start ≠ s := by
      intro same
      exact away (same ▸ .refl)
    rw [total, total, foldStart_final exist, foldStart_leaving, if_neg other, if_neg other]
    apply congrArg (fun rest => plus (a.final s) (sum rest))
    apply List.map_congr_left
    intro arc leaves
    rw [ih fun back => away (.head (step_of_leaving leaves) back)]

-- All that leaves the start takes the factor, and what comes after never comes back.
theorem foldStart_total [Lawful P] [LeftDistributive P] (all : a.All P) (member : P factor)
    (exist : start < a.states.size) (acyclic : ¬ a.OnCycle start) (k : Nat) :
    (a.foldStart factor start).total k start = times factor (a.total k start) := by
  cases k with
  | zero => exact (Lawful.times_zero member).symm
  | succ k =>
    have onward : ∀ arc ∈ a.leaving start,
        times (times factor arc.weight) ((a.foldStart factor start).total k arc.target) =
          times factor (times arc.weight (a.total k arc.target)) := by
      intro arc leaves
      have away : ¬ Relation.ReflTransGen a.Step arc.target start :=
        fun back => acyclic (.head' (step_of_leaving leaves) back)
      rw [foldStart_total_away exist away,
        Lawful.times_assoc member (leaving_mem all leaves) (total_mem all k arc.target)]
    have products : ∀ x ∈ (a.leaving start).map fun arc =>
        times arc.weight (a.total k arc.target), P x := by
      intro x present
      obtain ⟨arc, leaves, rfl⟩ := List.mem_map.mp present
      exact Lawful.times_mem (leaving_mem all leaves) (total_mem all k arc.target)
    rw [total, total, foldStart_final exist, foldStart_leaving, if_pos rfl, if_pos rfl,
      LeftDistributive.times_plus (final_mem all start) (sum_mem products) member,
      times_sum member products, List.map_map, List.map_map]
    apply congrArg (fun rest => plus (times factor (a.final start)) (sum rest))
    apply List.map_congr_left
    exact onward

end WeightedAutomata.Automaton
