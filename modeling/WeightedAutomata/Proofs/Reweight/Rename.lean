import WeightedAutomata.Proofs.Automaton.Rename
import WeightedAutomata.Proofs.Reweight.Calls

namespace WeightedAutomata
open Weight
variable {W : Type} [Weight W] {r : Renaming} {direction : Direction} {potentials others : Array W}
  {factor : W} {start : Nat}

theorem reweightState_rename {s : Nat} {state : State W}
    (own : Potential.get others (r.state s) = Potential.get potentials s)
    (targets : ∀ arc ∈ state.arcs,
      Potential.get others (r.state arc.target) = Potential.get potentials arc.target) :
    Automaton.reweightState direction others (r.state s) (state.rename r s) =
      (Automaton.reweightState direction potentials s state).rename r s := by
  simp only [Automaton.reweightState, State.rename, reorder_map, Array.map_map, own,
    State.mk.injEq, true_and]
  refine congrArg (reorder _) (Array.map_congr_left ?_)
  intro arc leaves
  simp only [Function.comp_apply, Arc.retarget, targets arc leaves]

theorem scaleState_rename (factor : W) (r : Renaming) (s : Nat) (state : State W) :
    Automaton.scaleState factor (state.rename r s) =
      (Automaton.scaleState factor state).rename r s := by
  simp only [Automaton.scaleState, State.rename, reorder_map, Array.map_map]
  rfl

namespace Automaton
variable {a b : Automaton W}

theorem moveWeights_rename (fits : Fits r a) (closed : a.Closed)
    (same : ∀ s < a.states.size, Potential.get others (r.state s) = Potential.get potentials s) :
    (a.rename r).moveWeights direction others = (a.moveWeights direction potentials).rename r := by
  have movedFits := fits.of_alike (moveWeights_alike direction potentials a)
  refine ext_renamed r rfl fun s => ?_
  rw [moveWeights_state, rename_state fits, rename_state movedFits, moveWeights_state]
  cases found : a.states[s]? with
  | none => rfl
  | some state =>
    have inside : s < a.states.size := (Array.getElem?_eq_some_iff.mp found).1
    simp only [Option.map_some, Option.some.injEq]
    exact reweightState_rename (same s inside) fun arc leaves =>
      same arc.target (closed.targets state (Array.mem_of_getElem? found) arc leaves)

theorem foldStart_rename (fits : Fits r a) :
    (a.rename r).foldStart factor (r.state start) = (a.foldStart factor start).rename r := by
  have foldedFits := fits.of_alike (foldStart_alike factor start a)
  refine ext_renamed r rfl fun s => ?_
  rw [foldStart_state, rename_state fits, rename_state foldedFits, foldStart_state]
  by_cases here : start = s
  · subst s
    rw [if_pos rfl, if_pos rfl]
    cases a.states[start]? with
    | none => rfl
    | some state => exact congrArg some (scaleState_rename factor r start state)
  · rw [if_neg here, if_neg fun same => here (r.state.injective same)]

-- The new start comes last under either numbers.
theorem prependStart_rename (fits : Fits r a) (closed : a.Closed) (exist : start < a.states.size) :
    (a.rename r).prependStart factor (r.state start) = (a.prependStart factor start).rename r := by
  have prependedFits : Fits r (a.prependStart factor start) :=
    fits.of_old (by simp) (prependStart_prepended factor closed exist).old
  have last : r.state a.states.size = a.states.size := fits.state _ (Nat.le_refl _)
  apply ext_renamed r
  · simp [prependStart, rename, last]
  · intro s
    rw [rename_state prependedFits]
    rcases Nat.lt_trichotomy s a.states.size with old | rfl | beyond
    · rw [prependStart_state (rename_exist fits old), prependStart_state old, rename_state fits]
    · have renamedLast : ((a.rename r).prependStart factor (r.state start)).states[
          (a.rename r).states.size]? = some ⟨zero, #[⟨epsilon, epsilon, factor, r.state start⟩]⟩ :=
        prependStart_last
      rw [rename_size] at renamedLast
      rw [last, renamedLast, prependStart_last, Option.map_some, State.rename, List.map_toArray,
        List.map_singleton, reorder_singleton]
      rfl
    · have none : ∀ c : Automaton W, c.states.size = a.states.size →
          ∀ t, (c.prependStart factor t).states[s]? = none := by
        intro c size t
        rw [Array.getElem?_eq_none]
        rw [prependStart_size, size]
        exact beyond
      rw [fits.state s (Nat.le_of_lt beyond), none _ rename_size, none _ rfl]
      rfl

theorem restoreStart_rename (fits : Fits r a) (closed : a.Closed) (v : W) :
    restoreStart direction v (a.rename r) = (restoreStart direction v a).map (rename r) := by
  cases begins : a.start with
  | none => simp [restoreStart, rename_unstarted begins, begins, Except.map]
  | some start =>
    have exist : start < a.states.size := closed.start start begins
    have renamedExist : r.state start < (a.rename r).states.size := rename_exist fits exist
    simp only [restoreStart, rename_start begins, begins, rename_initialAcyclic fits closed]
    split
    · rfl
    · rcases initialAcyclic_cases closed begins with ⟨answer, -⟩ | ⟨answer, -⟩
      · simp only [answer, bind, Except.bind, if_true, modifyState, exist, renamedExist]
        exact congrArg Except.ok (foldStart_rename fits)
      · simp only [answer, bind, Except.bind]
        exact congrArg Except.ok (prependStart_rename fits closed exist)

theorem reweight_rename_eq (fits : Fits r a) (closed : a.Closed)
    (same : ∀ s < a.states.size, Potential.get others (r.state s) = Potential.get potentials s) :
    (a.rename r).reweight direction others =
      (a.reweight direction potentials).map (rename r) := by
  have moved : (a.rename r).moveWeights direction others =
      (a.moveWeights direction potentials).rename r := moveWeights_rename fits closed same
  have movedFits := fits.of_alike (moveWeights_alike direction potentials a)
  cases reported : (properties W).contains direction.required with
  | false => simp [reweight, reported, Except.map]
  | true =>
    cases begins : a.start with
    | none =>
      rw [reweight_unstarted reported (rename_unstarted begins),
        reweight_unstarted reported begins, moved]
      rfl
    | some start =>
      have exist : start < a.states.size := closed.start start begins
      rw [reweight_started reported (rename_start begins) (rename_exist fits exist),
        reweight_started reported begins exist, moved, same start exist,
        restoreStart_rename movedFits (moveWeights_closed direction potentials closed)]
      cases restoreStart direction (Potential.get potentials start)
        (a.moveWeights direction potentials) <;> rfl

theorem reweight_fits (fits : Fits r a) (closed : a.Closed)
    (reweighted : a.reweight direction potentials = .ok b) :
    Fits r b ∧ (b.states.size ≠ a.states.size → b.start = some a.states.size) := by
  cases begins : a.start with
  | none =>
    rw [reweight_unstarted (reported_of_reweight reweighted) begins] at reweighted
    cases reweighted
    have alike := moveWeights_alike direction potentials a
    exact ⟨fits.of_alike alike, fun grown => absurd alike.size grown⟩
  | some start =>
    have grown : Grown start a b := by
      have performed := (Grown.alike (Alike.refl a)).perform closed begins ⟨direction, potentials⟩
      rwa [perform, reweighted] at performed
    cases grown with
    | alike same =>
      exact ⟨fits.of_alike same, fun grown => absurd same.size grown⟩
    | prepended added =>
      exact ⟨fits.of_old (by rw [added.size]; omega) added.old, fun _ => added.begins⟩

-- The result is the renamed result, and a start that has been added has the number of states
-- under the new numbers as under the old.
theorem reweight_rename (direction : Direction) (fits : Fits r a) (closed : a.Closed)
    (same : ∀ s < a.states.size, Potential.get others (r.state s) = Potential.get potentials s) :
    (a.rename r).reweight direction others = (a.reweight direction potentials).map (rename r) ∧
      ∀ b, a.reweight direction potentials = .ok b → Fits r b ∧
        (b.states.size ≠ a.states.size →
          b.start = some a.states.size ∧ (b.rename r).start = some a.states.size) := by
  refine ⟨reweight_rename_eq fits closed same, fun b reweighted => ?_⟩
  obtain ⟨stillFits, added⟩ := reweight_fits fits closed reweighted
  refine ⟨stillFits, fun grown => ⟨added grown, ?_⟩⟩
  rw [rename, added grown, Option.map_some, fits.state _ (Nat.le_refl _)]

def homing : Automaton (Tropical Exact) where
  states := #[
    ⟨Tropical.cost none, #[⟨1, 1, Tropical.cost (some 1), 1⟩, ⟨2, 2, Tropical.cost (some 2), 2⟩]⟩,
    ⟨Tropical.cost (some 3), #[⟨3, 3, Tropical.cost (some 4), 0⟩]⟩,
    ⟨Tropical.cost (some 0), #[]⟩]
  start := some 0

def homingPotentials : Array (Tropical Exact) :=
  #[Tropical.cost (some 5), Tropical.cost (some 6)]

def swapping : Renaming where
  state := Equiv.swap 0 2
  arc s := if s = 0 then Equiv.swap 0 1 else Equiv.refl Nat

def swappedPotentials : Array (Tropical Exact) :=
  #[Tropical.cost none, Tropical.cost (some 6), Tropical.cost (some 5)]

theorem homing_reweight_rename :
    Fits swapping homing ∧ homing.Closed ∧
      (∀ s < homing.states.size, Potential.get swappedPotentials (swapping.state s) =
        Potential.get homingPotentials s) ∧
      (homing.rename swapping).start = some 2 ∧
      ∃ b, homing.reweight .toInitial homingPotentials = .ok b ∧ b.states.size = 4 ∧
        b.start = some 3 ∧
        (homing.rename swapping).reweight .toInitial swappedPotentials =
          .ok (b.rename swapping) ∧ (b.rename swapping).start = some 3 := by
  have fits : Fits swapping homing := by
    refine ⟨fun s beyond => ?_, fun s i missing => ?_⟩
    · have past : 3 ≤ s := beyond
      exact Equiv.swap_apply_of_ne_of_ne (by omega) (by omega)
    · by_cases first : s = 0
      · subst s
        have zero : i ≠ 0 := by
          rintro rfl
          cases missing
        have one : i ≠ 1 := by
          rintro rfl
          cases missing
        exact Equiv.swap_apply_of_ne_of_ne zero one
      · simp [swapping, first]
  have closed : homing.Closed := by decide
  have same : ∀ s < homing.states.size, Potential.get swappedPotentials (swapping.state s) =
      Potential.get homingPotentials s := by
    decide
  have cyclic : homing.OnCycle 0 :=
    .tail (.single (show homing.Step 0 1 from ⟨0, _, rfl, rfl⟩))
      (show homing.Step 1 0 from ⟨0, _, rfl, rfl⟩)
  let call : Call (Tropical Exact) := ⟨.toInitial, homingPotentials⟩
  have answered : Answered call 0 homing (homing.perform call) :=
    perform_answered (Tropical.contains_required .toInitial) closed rfl
  generalize homing.perform call = b at answered
  have reweighted : homing.reweight .toInitial homingPotentials = .ok b := answered.result
  have size : b.states.size = 4 := answered.added_iff.mpr ⟨by decide, by decide, cyclic⟩
  obtain ⟨renamed, results⟩ := reweight_rename .toInitial fits closed same
  obtain ⟨-, added⟩ := results b reweighted
  obtain ⟨begins, renamedBegins⟩ := added (by rw [size]; decide)
  rw [reweighted] at renamed
  exact ⟨fits, closed, same, by decide, b, reweighted, size, begins, renamed, renamedBegins⟩

end Automaton
end WeightedAutomata
