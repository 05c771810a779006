import WeightedAutomata.Proofs.Reweight.Outcome
import WeightedAutomata.Proofs.Weight.Tropical

namespace WeightedAutomata

structure Call (W : Type) where
  direction : Direction
  potentials : Array W

open Weight
variable {W : Type} [Weight W]

-- The start's potential has to be put back, and not into the start.
structure Call.Grows (call : Call W) (start : Nat) (a : Automaton W) : Prop where
  zero : isZero (Potential.get call.potentials start) = false
  one : isOne (Potential.get call.potentials start) = false
  cyclic : a.OnCycle start

namespace Automaton
variable {a b : Automaton W} {start : Nat} {call : Call W}

def perform (a : Automaton W) (call : Call W) : Automaton W :=
  match a.reweight call.direction call.potentials with
  | .ok b => b
  | .error _ => a

def run (a : Automaton W) (calls : List (Call W)) : Automaton W :=
  calls.foldl perform a

-- What a call does to an automaton with a start. No path ends at a state that it adds.
structure Answered (call : Call W) (start : Nat) (a b : Automaton W) : Prop where
  result : a.reweight call.direction call.potentials = .ok b
  added_iff : b.states.size = a.states.size + 1 ↔ call.Grows start a
  kept : ¬ call.Grows start a → a.Alike b
  added : call.Grows start a → a.Prepended start b
  final : call.Grows start a → ∃ state, b.states[a.states.size]? = some state ∧
    state.finalWeight = zero ∧ (isZero (zero : W) = true → state.isFinal = false)

theorem refused_of_required
    (lacking : (properties W).contains call.direction.required = false) (a : Automaton W) :
    a.reweight call.direction call.potentials =
      .error (.notDistributive call.direction (typeName W)) := by
  simp [reweight, lacking]

theorem perform_refused (lacking : (properties W).contains call.direction.required = false)
    (a : Automaton W) : a.perform call = a := by
  rw [perform, refused_of_required lacking]

theorem answered_of_alike (result : a.reweight call.direction call.potentials = .ok b)
    (settled : ¬ call.Grows start a) (same : a.Alike b) : Answered call start a b where
  result := result
  added_iff := by
    rw [same.size]
    exact iff_of_false (Nat.ne_of_lt (Nat.lt_succ_self _)) settled
  kept _ := same
  added grows := absurd grows settled
  final grows := absurd grows settled

theorem answered_of_prepended {state : State W}
    (result : a.reweight call.direction call.potentials = .ok b) (grows : call.Grows start a)
    (prepended : a.Prepended start b) (last : b.states[a.states.size]? = some state)
    (blank : state.finalWeight = zero) : Answered call start a b where
  result := result
  added_iff := iff_of_true prepended.size grows
  kept settled := absurd grows settled
  added _ := prepended
  final _ := by
    refine ⟨state, last, blank, fun none => ?_⟩
    rw [State.isFinal, blank, none]
    rfl

theorem perform_answered (reported : (properties W).contains call.direction.required = true)
    (closed : a.Closed) (begins : a.start = some start) :
    Answered call start a (a.perform call) := by
  obtain ⟨b, result, outcome⟩ := reweight_outcome call.potentials reported closed begins
  have moved := moveWeights_alike call.direction call.potentials a
  rw [perform, result]
  cases outcome with
  | kept plain =>
    refine answered_of_alike result (fun grows => ?_) moved
    rcases plain with none | unit
    · cases grows.zero.symm.trans none
    · cases grows.one.symm.trans unit
  | folded _ _ acyclic =>
    exact answered_of_alike result (fun grows => acyclic grows.cyclic)
      (moved.trans (foldStart_alike _ start _))
  | prepended zero one cyclic =>
    have exist : start < (a.moveWeights call.direction call.potentials).states.size := by
      simpa using closed.start start begins
    apply answered_of_prepended result ⟨zero, one, cyclic⟩
      (moved.prepended (prependStart_prepended _ (moved.closed closed) exist))
    · rw [← moved.size]
      exact prependStart_last
    · rfl

namespace Grown

-- Nothing leads to a start that a call added, so no later call adds another.
theorem perform (grown : Grown start a b) (closed : a.Closed) (begins : a.start = some start)
    (call : Call W) : Grown start a (b.perform call) := by
  have after : b.Closed := grown.closed closed begins
  cases reported : (properties W).contains call.direction.required with
  | false =>
    rw [perform_refused reported]
    exact grown
  | true =>
    cases grown with
    | alike same =>
      have answered := perform_answered reported after (same.start.trans begins)
      by_cases grows : call.Grows start b
      · exact .prepended (same.prepended (answered.added grows))
      · exact .alike (same.trans (answered.kept grows))
    | prepended added =>
      have answered := perform_answered reported after added.begins
      exact .prepended
        (added.alike (answered.kept fun grows => added.not_onCycle grows.cyclic))

theorem run (grown : Grown start a b) (closed : a.Closed) (begins : a.start = some start)
    (calls : List (Call W)) : Grown start a (b.run calls) := by
  induction calls generalizing b with
  | nil => exact grown
  | cons call calls ih => exact ih (grown.perform closed begins call)

end Grown

theorem perform_unstarted (unstarted : a.start = none) (call : Call W) :
    a.Alike (a.perform call) := by
  cases reported : (properties W).contains call.direction.required with
  | false =>
    rw [perform_refused reported]
    exact Alike.refl a
  | true =>
    rw [perform, reweight_unstarted reported unstarted]
    exact moveWeights_alike call.direction call.potentials a

theorem run_unstarted (unstarted : a.start = none) (calls : List (Call W)) :
    a.Alike (a.run calls) := by
  induction calls generalizing a with
  | nil => exact Alike.refl a
  | cons call calls ih =>
    have first := perform_unstarted unstarted call
    exact first.trans (ih (first.start.trans unstarted))

theorem run_closed (closed : a.Closed) (calls : List (Call W)) :
    (a.run calls).Closed ∧ (a.run calls).states.size ≤ a.states.size + 1 := by
  cases begins : a.start with
  | none =>
    have same := run_unstarted begins calls
    exact ⟨same.closed closed, Nat.le_succ_of_le (Nat.le_of_eq same.size)⟩
  | some start =>
    have grown : Grown start a (a.run calls) :=
      (Grown.alike (Alike.refl a)).run closed begins calls
    exact ⟨grown.closed closed begins, grown.size_le⟩

-- A call is refused for weights without the law that its direction needs. Any other call
-- keeps what the automaton is apart from its weights, but that one call of a run may add
-- a state, which becomes the start.
theorem run_grown :
    (∀ (a : Automaton W) (call : Call W),
      (properties W).contains call.direction.required = false →
        a.reweight call.direction call.potentials =
            .error (.notDistributive call.direction (typeName W)) ∧
          a.perform call = a) ∧
    ∀ (a : Automaton W) start, a.Closed → a.start = some start → ∀ calls : List (Call W),
      (a.run calls).Closed ∧ Grown start a (a.run calls) ∧
      (∀ s < a.states.size, (a.run calls).shapes s = a.shapes s) ∧
      (a.run calls).states.size ≤ a.states.size + 1 ∧
      ∃ t, (a.run calls).start = some t ∧
        ∀ call : Call W, (properties W).contains call.direction.required = true →
          Answered call t (a.run calls) ((a.run calls).perform call) := by
  refine ⟨fun a call lacking => ⟨refused_of_required lacking a, perform_refused lacking a⟩, ?_⟩
  intro a start closed begins calls
  have grown : Grown start a (a.run calls) :=
    (Grown.alike (Alike.refl a)).run closed begins calls
  have after := grown.closed closed begins
  obtain ⟨t, current⟩ := grown.begins begins
  exact ⟨after, grown, grown.old, grown.size_le, t, current,
    fun call reported => perform_answered reported after current⟩

end Automaton

structure LeftOnly where
  cost : Tropical Exact
deriving DecidableEq

instance : Weight LeftOnly where
  zero := ⟨zero⟩
  one := ⟨one⟩
  noWeight := ⟨noWeight⟩
  plus a b := ⟨plus a.cost b.cost⟩
  times a b := ⟨times a.cost b.cost⟩
  divide side a b := ⟨divide side a.cost b.cost⟩
  isMember a := isMember a.cost
  properties := Properties.leftSemiring
  typeName := "left_only"

namespace Automaton

def returning : Automaton LeftOnly where
  states := #[
    ⟨⟨Tropical.cost (some 1)⟩, #[⟨1, 1, ⟨Tropical.cost (some 2)⟩, 1⟩]⟩,
    ⟨⟨Tropical.cost none⟩, #[⟨2, 2, ⟨Tropical.cost (some 4)⟩, 0⟩]⟩]
  start := some 0

def returningPotentials : Array LeftOnly :=
  #[⟨Tropical.cost (some 3)⟩, ⟨Tropical.cost (some 5)⟩]

theorem returning_run_grown :
    (properties LeftOnly).contains Direction.toInitial.required = true ∧
      (properties LeftOnly).contains Direction.toFinal.required = false ∧
      returning.Closed ∧ returning.start = some 0 ∧
      Call.Grows ⟨.toInitial, returningPotentials⟩ 0 returning ∧
      (returning.perform ⟨.toInitial, returningPotentials⟩).states.size = 3 ∧
      returning.perform ⟨.toFinal, returningPotentials⟩ = returning ∧
      ∀ calls, (returning.run calls).states.size ≤ 3 := by
  have reported : (properties LeftOnly).contains Direction.toInitial.required = true := rfl
  have lacking : (properties LeftOnly).contains Direction.toFinal.required = false := rfl
  have closed : returning.Closed := by decide
  have there : returning.Step 0 1 := ⟨0, _, rfl, rfl⟩
  have back : returning.Step 1 0 := ⟨0, _, rfl, rfl⟩
  have grows : Call.Grows ⟨.toInitial, returningPotentials⟩ 0 returning :=
    ⟨by decide, by decide, .tail (.single there) back⟩
  obtain ⟨refused, grown⟩ := run_grown (W := LeftOnly)
  obtain ⟨_, _, _, _, t, begins, answered⟩ := grown returning 0 closed rfl []
  cases begins
  refine ⟨reported, lacking, closed, rfl, grows, ?_, ?_, ?_⟩
  · exact (answered ⟨.toInitial, returningPotentials⟩ reported).added_iff.mpr grows
  · exact (refused returning ⟨.toFinal, returningPotentials⟩ lacking).2
  · intro calls
    exact (grown returning 0 closed rfl calls).2.2.2.1

end Automaton
end WeightedAutomata
