import WeightedAutomata.Number.Exponential
import WeightedAutomata.Proofs.Automaton.Read
import WeightedAutomata.Proofs.Automaton.Write
import WeightedAutomata.Proofs.Reweight.Calls

namespace WeightedAutomata
open Weight
variable {W : Type} {a : Automaton W} {s : Nat} {direction : Direction} {potentials : Array W}

namespace Automaton

def rewriteState (onArc : Arc W → W) (onFinal : W → W) (s : Nat) (a : Automaton W) :
    Except MissingState (Automaton W) := do
  let a ← a.modifyState s fun state =>
    { state with arcs := state.arcs.map fun arc => { arc with weight := onArc arc } }
  let state ← a.state s
  a.setFinal s (onFinal state.finalWeight)

-- The final weight is read before it is replaced, so the state decides what it becomes.
theorem rewriteState_eq (onArc : Arc W → W) (onFinal : W → W) (s : Nat) (a : Automaton W) :
    a.rewriteState onArc onFinal s = a.modifyState s fun state =>
      ⟨onFinal state.finalWeight,
        state.arcs.map fun arc => { arc with weight := onArc arc }⟩ := by
  by_cases inside : s < a.states.size
  · have found := Array.getElem?_eq_getElem inside
    simp only [rewriteState, modifyState, setFinal, state, inside, if_true, bind, Except.bind,
      Array.size_modify, Array.getElem?_modify, found, Option.map_some, Except.ok.injEq,
      Automaton.mk.injEq, and_true]
    apply Array.ext_getElem?
    intro q
    simp only [Array.getElem?_modify]
    split
    · rename_i same
      subst q
      simp [found]
    · rfl
  · simp [rewriteState, modifyState, inside, bind, Except.bind]

variable [Weight W]

def extendInPlace (a : Automaton W) (statement : Statement W) :
    Except MissingState (Automaton W) := do
  let grown := a.ensureState statement.lastState
  let told ← match statement with
    | .arc source arc => grown.addArc source arc
    | .final s weight => grown.setFinal s weight
  .ok { told with start := some (a.start.getD statement.source) }

theorem extendInPlace_eq (a : Automaton W) (statement : Statement W) :
    a.extendInPlace statement = .ok (a.extend statement) := by
  have exist : statement.source < (a.ensureState statement.lastState).states.size := by
    have last := statement.source_le_lastState
    rw [ensureState_size]
    omega
  cases statement with
  | arc source arc =>
    simp only [Statement.source] at exist
    simp [extendInPlace, addArc, modifyState, exist, extend, bind, Except.bind]
  | final q weight =>
    simp only [Statement.source] at exist
    simp [extendInPlace, setFinal, modifyState, exist, extend, bind, Except.bind]

theorem foldlM_extendInPlace (statements : List (Statement W)) (a : Automaton W) :
    statements.foldlM extendInPlace a = .ok (statements.foldl extend a) := by
  induction statements generalizing a with
  | nil => rfl
  | cons statement rest ih =>
    rw [List.foldlM_cons, extendInPlace_eq]
    exact ih (a.extend statement)

def moveState (direction : Direction) (potentials : Array W) (a : Automaton W) (s : Nat) :
    Except MissingState (Automaton W) :=
  a.rewriteState (movedWeight direction potentials s)
    (reweightFinal direction (Potential.get potentials s)) s

def moveInPlace (direction : Direction) (potentials : Array W) (a : Automaton W) :
    Except MissingState (Automaton W) :=
  (List.range a.states.size).foldlM (moveState direction potentials) a

theorem moveInPlace_prefix (direction : Direction) (potentials : Array W) (a : Automaton W)
    {n : Nat} (inside : n ≤ a.states.size) :
    (List.range n).foldlM (moveState direction potentials) a =
      .ok { a with states := a.states.mapIdx fun s state =>
        if s < n then reweightState direction potentials s state else state } := by
  induction n with
  | zero =>
    have unmoved : a.states.mapIdx (fun _ state => state) = a.states := by
      apply Array.ext_getElem?
      simp
    simp [unmoved, pure, Except.pure]
  | succ n ih =>
    have before := ih (Nat.le_of_succ_le inside)
    rw [List.range_succ, List.foldlM_append, before]
    simp only [bind, Except.bind, List.foldlM_cons, List.foldlM_nil, moveState, rewriteState_eq,
      modifyState, Array.size_mapIdx, Nat.lt_of_succ_le inside, if_true, pure, Except.pure]
    congr 2
    apply Array.ext_getElem?
    intro s
    rw [Array.getElem?_modify, Array.getElem?_mapIdx, Array.getElem?_mapIdx]
    rcases Nat.lt_trichotomy s n with old | rfl | later
    · rw [if_neg (Nat.ne_of_gt old)]
      simp [old, Nat.lt_succ_of_lt old]
    · simp [reweightState, movedWeight]
    · rw [if_neg (Nat.ne_of_lt later)]
      simp [Nat.not_lt_of_gt later, Nat.not_lt.mpr (Nat.succ_le_of_lt later)]

theorem moveInPlace_eq (direction : Direction) (potentials : Array W) (a : Automaton W) :
    a.moveInPlace direction potentials = .ok (a.moveWeights direction potentials) := by
  rw [moveInPlace, moveInPlace_prefix direction potentials a (Nat.le_refl _)]
  congr 2
  apply Array.ext_getElem?
  intro s
  simp only [Array.getElem?_mapIdx]
  by_cases inside : s < a.states.size
  · simp [inside]
  · simp [Array.getElem?_eq_none (Nat.le_of_not_lt inside)]

def restoreInPlace (direction : Direction) (v : W) (a : Automaton W) :
    Except MissingState (Automaton W) :=
  match a.start with
  | none => .ok a
  | some start =>
    if isZero v || isOne v then .ok a
    else do
      let factor := startFactor direction v
      if ← a.initialAcyclic then
        a.rewriteState (fun arc => times factor arc.weight) (times factor) start
      else do
        let b ← a.addState.addArc a.states.size ⟨epsilon, epsilon, factor, start⟩
        .ok { b with start := some a.states.size }

theorem restoreInPlace_eq (direction : Direction) (v : W) (a : Automaton W) :
    a.restoreInPlace direction v = restoreStart direction v a := by
  have prepended : ∀ factor start,
      (do let b ← a.addState.addArc a.states.size ⟨epsilon, epsilon, factor, start⟩
          .ok { b with start := some a.states.size } : Except MissingState (Automaton W)) =
        .ok (a.prependStart factor start) := by
    intro factor start
    simp only [addArc, modifyState, addState, Array.size_push, Nat.lt_succ_self, if_true, bind,
      Except.bind, prependStart]
    congr 2
    apply Array.ext_getElem?
    intro q
    rw [Array.getElem?_modify, Array.getElem?_push, Array.getElem?_push]
    by_cases last : q = a.states.size
    · subst q
      simp [State.blank]
    · simp [last, Ne.symm last]
  simp only [restoreInPlace, restoreStart, rewriteState_eq, prepended]
  rfl

def reweightInPlace (direction : Direction) (potentials : Array W) (a : Automaton W) :
    Except ReweightError (Automaton W) :=
  if !(properties W).contains direction.required then
    .error (.notDistributive direction (typeName W))
  else if a.states.isEmpty then .ok a
  else
    let v := match a.start with
      | some start => Potential.get potentials start
      | none => zero
    (do let moved ← a.moveInPlace direction potentials
        moved.restoreInPlace direction v).mapError .missingState

theorem reweightInPlace_eq (direction : Direction) (potentials : Array W) (a : Automaton W) :
    a.reweightInPlace direction potentials = a.reweight direction potentials := by
  simp only [reweightInPlace, reweight, moveInPlace_eq, bind, Except.bind, restoreInPlace_eq]
  rfl

variable [WeightText W]

-- Whatever is done with an automaton next, no state is asked for that does not exist:
-- neither by the search, nor by writing, nor by reweighting with any potentials.
structure Accessible (a : Automaton W) : Prop where
  searched : ∃ acyclic, a.initialAcyclic = .ok acyclic
  written : ∃ text, a.write = .ok text
  performed : ∀ call : Call W, (properties W).contains call.direction.required = true →
    a.reweightInPlace call.direction call.potentials = .ok (a.perform call)
  refused : ∀ call : Call W, (properties W).contains call.direction.required = false →
    a.reweightInPlace call.direction call.potentials =
      .error (.notDistributive call.direction (typeName W))

theorem accessible_of_closed (closed : a.Closed) : a.Accessible where
  searched := by
    cases begins : a.start with
    | none => exact ⟨true, by rw [initialAcyclic, begins]⟩
    | some start =>
      rcases initialAcyclic_cases closed begins with ⟨acyclic, _⟩ | ⟨cyclic, _⟩
      · exact ⟨true, acyclic⟩
      · exact ⟨false, cyclic⟩
  written := by
    cases begins : a.start with
    | none => exact ⟨_, write_unstarted begins⟩
    | some start => exact ⟨_, write_statements begins (closed.start start begins)⟩
  performed := by
    intro call reported
    obtain ⟨b, reweighted⟩ := reweight_defined call.potentials reported closed
    rw [reweightInPlace_eq, perform, reweighted]
  refused := by
    intro call lacking
    rw [reweightInPlace_eq, refused_of_required lacking]

-- What lines say is added in place, and whatever calls follow, with potentials for more
-- states or for fewer, the automaton stays accessible. Its states can all be numbered.
theorem read_run_accessible {name : String} {content : ByteArray}
    (accepted : read name content = .ok a) (calls : List (Call W)) :
    (∃ statements, LineFile.read name Statement.ofColumns content = .ok statements ∧
        statements.toList.foldlM extendInPlace {} = .ok a) ∧
      (a.run calls).Accessible ∧ (a.run calls).states.size ≤ stateLimit + 1 := by
  obtain ⟨inRange, size⟩ := read_inRange accepted
  obtain ⟨closed, bound⟩ := run_closed inRange.closed calls
  refine ⟨?_, accessible_of_closed closed, by omega⟩
  obtain ⟨statements, found, rfl⟩ := ok_map accepted
  refine ⟨statements, found, ?_⟩
  rw [foldlM_extendInPlace, ofStatements, Array.foldl_toList]

def gapped : ByteArray :=
  "0 1 1 1 0.5\n1 0 2 2\n1 4 3 3 2\n".toUTF8

def gappedCalls : List (Call (Tropical Binary64)) :=
  let potentials (content : String) := (Potential.read "tropical" "v" content.toUTF8).toOption
  [⟨.toInitial, (potentials "0 3.5\n1 1\n4 2\n9 1\n").getD #[]⟩,
    ⟨.toFinal, (potentials "0 1.5\n1 2\n").getD #[]⟩]

theorem gapped_run_accessible :
    ∃ a : Automaton (Tropical Binary64), read "a.fst" gapped = .ok a ∧
      (gappedCalls.map fun call => call.potentials.size) = [10, 2] ∧
      a.states.size = 5 ∧ (a.run gappedCalls).states.size = 6 ∧
      (a.run gappedCalls).Accessible := by
  have sizes : (read (W := Tropical Binary64) "a.fst" gapped).toOption.map
      (fun a => (a.states.size, (a.run gappedCalls).states.size)) = some (5, 6) := by
    decide +kernel
  obtain ⟨a, found, same⟩ := Option.map_eq_some_iff.mp sizes
  obtain ⟨before, after⟩ := Prod.mk.inj same
  cases accepted : read (W := Tropical Binary64) "a.fst" gapped with
  | error fault => simp [accepted, Except.toOption] at found
  | ok b =>
    simp only [accepted, Except.toOption, Option.some.injEq] at found
    subst b
    exact ⟨a, rfl, by decide +kernel, before, after, (read_run_accessible accepted gappedCalls).2.1⟩

end Automaton
end WeightedAutomata
