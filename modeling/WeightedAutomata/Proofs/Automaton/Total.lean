import Mathlib.Data.List.Nodup
import Mathlib.Data.List.Perm.Subperm
import WeightedAutomata.Proofs.Automaton.Path
import WeightedAutomata.Proofs.Weight.Sum

namespace WeightedAutomata.Automaton
open Weight
variable {W : Type} {a b : Automaton W} {s t i k : Nat} {path : Path} {arcs : List (Arc W)}

theorem walk?_length (walked : a.walk? s path = some arcs) : arcs.length = path.length := by
  induction path generalizing s arcs with
  | nil =>
    cases walked
    rfl
  | cons i path ih =>
    obtain ⟨arc, rest, found, onward, rfl⟩ := walk?_cons.mp walked
    rw [List.length_cons, List.length_cons, ih onward]

theorem visited_nodup (acyclic : a.Acyclic) (walked : a.walk? s path = some arcs) :
    (visited s arcs).Nodup := by
  induction path generalizing s arcs with
  | nil =>
    cases walked
    simp [visited]
  | cons i path ih =>
    obtain ⟨arc, rest, found, onward, rfl⟩ := walk?_cons.mp walked
    refine List.nodup_cons.mpr ⟨?_, ih onward⟩
    intro back
    exact acyclic s (onCycle_of_return walked back)

-- A path without a cycle passes no state twice, so it is shorter than there are states.
theorem walk?_short (closed : a.Closed) (acyclic : a.Acyclic) (exist : s < a.states.size)
    (walked : a.walk? s path = some arcs) : path.length < a.states.size := by
  have inside : visited s arcs ⊆ List.range a.states.size := by
    intro q present
    exact List.mem_range.mpr (visited_lt closed exist walked q present)
  have short := (List.subperm_of_subset (visited_nodup acyclic walked) inside).length_le
  rw [List.length_range, visited, List.length_cons, List.length_map, walk?_length walked] at short
  exact short

def leaving (a : Automaton W) (s : Nat) : List (Arc W) :=
  match a.states[s]? with
  | some state => state.arcs.toList
  | none => []

theorem leaving_getElem? : (a.leaving s)[i]? = a.arc? s i := by
  unfold leaving
  cases found : a.states[s]? <;> simp [arc?, found]

theorem mem_leaving {arc : Arc W} : arc ∈ a.leaving s ↔ ∃ i, a.arc? s i = some arc := by
  simp only [List.mem_iff_getElem?, leaving_getElem?]

theorem step_of_leaving {arc : Arc W} (leaves : arc ∈ a.leaving s) : a.Step s arc.target := by
  obtain ⟨i, found⟩ := mem_leaving.mp leaves
  exact ⟨i, arc, found, rfl⟩

theorem leaving_target (closed : a.Closed) {s : Nat} {arc : Arc W} (leaves : arc ∈ a.leaving s) :
    arc.target < a.states.size := by
  obtain ⟨i, found⟩ := mem_leaving.mp leaves
  exact arc?_target closed found

theorem leaving_mem {P : W → Prop} (all : a.All P) {arc : Arc W} (leaves : arc ∈ a.leaving s) :
    P arc.weight := by
  obtain ⟨i, found⟩ := mem_leaving.mp leaves
  exact all.weight found

variable [Weight W]

def final (a : Automaton W) (s : Nat) : W :=
  match a.states[s]? with
  | some state => state.finalWeight
  | none => zero

theorem final_of_state {state : State W} (found : a.states[s]? = some state) :
    a.final s = state.finalWeight := by
  rw [final, found]

def Accepting (a : Automaton W) (s : Nat) (path : Path) : Prop :=
  ∃ arcs state, a.walk? s path = some arcs ∧ a.states[reached s arcs]? = some state ∧
    state.isFinal = true

-- All accepting paths from `s`, each of them once.
structure Enumerates (a : Automaton W) (s : Nat) (paths : List Path) : Prop where
  nodup : paths.Nodup
  complete : ∀ path, path ∈ paths ↔ a.Accepting s path

def together (a : Automaton W) (s : Nat) (paths : List Path) : W :=
  sum (paths.filterMap (a.pathWeight? s))

theorem accepting_cons : a.Accepting s (i :: path) ↔
    ∃ arc, a.arc? s i = some arc ∧ a.Accepting arc.target path := by
  constructor
  · intro accepting
    obtain ⟨arcs, state, walked, found, isFinal⟩ := accepting
    obtain ⟨arc, rest, arcFound, onward, rfl⟩ := walk?_cons.mp walked
    exact ⟨arc, arcFound, rest, state, onward, found, isFinal⟩
  · intro accepting
    obtain ⟨arc, arcFound, rest, state, onward, found, isFinal⟩ := accepting
    exact ⟨arc :: rest, state, walk?_cons.mpr ⟨arc, rest, arcFound, onward, rfl⟩, found, isFinal⟩

-- The accepting paths from `s` of fewer than `k` arcs.
def acceptingBelow (a : Automaton W) : Nat → Nat → List Path
  | 0, _ => []
  | k + 1, s =>
    (if isZero (a.final s) then [] else [[]]) ++
      (a.leaving s).zipIdx.flatMap fun (arc, i) =>
        (a.acceptingBelow k arc.target).map fun path => i :: path

def total (a : Automaton W) : Nat → Nat → W
  | 0, _ => zero
  | k + 1, s =>
    plus (a.final s) (sum ((a.leaving s).map fun arc => times arc.weight (a.total k arc.target)))

section Members
variable {P : W → Prop} [Lawful P]

theorem final_mem (all : a.All P) (s : Nat) : P (a.final s) := by
  unfold final
  cases found : a.states[s]? with
  | none => exact Lawful.zero_mem
  | some state => exact all.final state (Array.mem_of_getElem? found)

theorem onward_mem (all : a.All P) (s : Nat) {f : Nat → W} (members : ∀ q, P (f q)) :
    P (sum ((a.leaving s).map fun arc => times arc.weight (f arc.target))) := by
  apply Weight.sum_mem
  intro x present
  obtain ⟨arc, leaves, rfl⟩ := List.mem_map.mp present
  exact Lawful.times_mem (leaving_mem all leaves) (members arc.target)

theorem total_mem (all : a.All P) (k s : Nat) : P (a.total k s) := by
  induction k generalizing s with
  | zero => exact Lawful.zero_mem
  | succ k ih => exact Lawful.plus_mem (final_mem all s) (onward_mem all s ih)

theorem together_mem (all : a.All P) {paths : List Path} :
    ∀ x ∈ paths.filterMap (a.pathWeight? s), P x := by
  intro x present
  obtain ⟨path, _, weighs⟩ := List.mem_filterMap.mp present
  exact pathWeight?_mem all weighs

theorem state_of_final [Tested P] (nonzero : isZero (a.final s) = false) :
    ∃ state, a.states[s]? = some state ∧ a.final s = state.finalWeight := by
  cases found : a.states[s]? with
  | none =>
    have none : isZero (zero : W) = true := (Tested.isZero_iff (P := P) Lawful.zero_mem).mpr rfl
    simp [final, found, none] at nonzero
  | some state => exact ⟨state, rfl, final_of_state found⟩

theorem accepting_nil [Tested P] : a.Accepting s [] ↔ isZero (a.final s) = false := by
  constructor
  · intro accepting
    obtain ⟨arcs, state, walked, found, isFinal⟩ := accepting
    cases walked
    rw [reached] at found
    rw [final_of_state found]
    simpa [State.isFinal] using isFinal
  · intro nonzero
    obtain ⟨state, found, weight⟩ := state_of_final (P := P) nonzero
    rw [weight] at nonzero
    exact ⟨[], state, rfl, found, by simp [State.isFinal, nonzero]⟩

theorem mem_acceptingBelow [Tested P] :
    path ∈ a.acceptingBelow k s ↔ path.length < k ∧ a.Accepting s path := by
  induction k generalizing s path with
  | zero => simp [acceptingBelow]
  | succ k ih =>
    rw [acceptingBelow, List.mem_append]
    cases path with
    | nil =>
      rw [accepting_nil (P := P)]
      cases isZero (a.final s) <;> simp
    | cons i path =>
      rw [accepting_cons, List.length_cons, Nat.add_lt_add_iff_right]
      constructor
      · intro present
        rcases present with first | later
        · cases isZero (a.final s) <;> simp at first
        · obtain ⟨⟨arc, j⟩, numbered, rest⟩ := List.mem_flatMap.mp later
          obtain ⟨tail, tailPresent, same⟩ := List.mem_map.mp rest
          cases same
          obtain ⟨short, accepting⟩ := ih.mp tailPresent
          rw [List.mem_zipIdx_iff_getElem?, leaving_getElem?] at numbered
          exact ⟨short, arc, numbered, accepting⟩
      · intro facts
        obtain ⟨short, arc, found, accepting⟩ := facts
        refine .inr (List.mem_flatMap.mpr ⟨(arc, i), ?_, ?_⟩)
        · rw [List.mem_zipIdx_iff_getElem?, leaving_getElem?]
          exact found
        · exact List.mem_map.mpr ⟨path, ih.mpr ⟨short, accepting⟩, rfl⟩

end Members

-- Paths that begin with arcs at different positions differ.
theorem acceptingBelow_nodup (k s : Nat) : (a.acceptingBelow k s).Nodup := by
  induction k generalizing s with
  | zero => simp [acceptingBelow]
  | succ k ih =>
    have positions : (a.leaving s).zipIdx.Pairwise fun e f => e.2 ≠ f.2 := by
      have distinct : ((a.leaving s).zipIdx.map Prod.snd).Nodup := by
        rw [List.zipIdx_map_snd]
        exact List.nodup_range'
      exact List.pairwise_map.mp distinct
    rw [acceptingBelow]
    refine List.nodup_append.mpr ⟨?_, ?_, ?_⟩
    · cases isZero (a.final s) <;> simp
    · refine List.nodup_flatMap.mpr ⟨?_, ?_⟩
      · intro numbered _
        exact (ih numbered.1.target).map fun x y same => (List.cons.inj same).2
      · refine positions.imp fun different => ?_
        intro path left right
        obtain ⟨x, _, rfl⟩ := List.mem_map.mp left
        obtain ⟨y, _, same⟩ := List.mem_map.mp right
        exact different (List.cons.inj same).1.symm
    · intro x empty y later same
      subst y
      obtain ⟨numbered, _, rest⟩ := List.mem_flatMap.mp later
      obtain ⟨tail, _, rfl⟩ := List.mem_map.mp rest
      cases isZero (a.final s) <;> simp at empty

theorem acceptingBelow_enumerates {P : W → Prop} [Lawful P] [Tested P] (closed : a.Closed)
    (acyclic : a.Acyclic) (exist : s < a.states.size) :
    a.Enumerates s (a.acceptingBelow a.states.size s) := by
  refine ⟨acceptingBelow_nodup a.states.size s, fun path => ?_⟩
  rw [mem_acceptingBelow (P := P)]
  constructor
  · exact And.right
  · intro accepting
    have ⟨arcs, _, walked, _⟩ := accepting
    exact ⟨walk?_short closed acyclic exist walked, accepting⟩

section Together
variable {P : W → Prop} [Lawful P]

theorem together_append (all : a.All P) (xs ys : List Path) :
    a.together s (xs ++ ys) = plus (a.together s xs) (a.together s ys) := by
  unfold together
  rw [List.filterMap_append]
  exact sum_append (together_mem all) (together_mem all)

theorem together_cons_paths [LeftDistributive P] (all : a.All P) {arc : Arc W}
    (found : a.arc? s i = some arc) (paths : List Path) :
    a.together s (paths.map fun path => i :: path) =
      times arc.weight (a.together arc.target paths) := by
  unfold together
  rw [times_sum (all.weight found) (together_mem all)]
  apply congrArg sum
  induction paths with
  | nil => rfl
  | cons path rest ih =>
    have here : a.pathWeight? s (i :: path) =
        (a.pathWeight? arc.target path).map (times arc.weight) := by
      rw [pathWeight?_cons, found, Option.bind_some]
    cases weighs : a.pathWeight? arc.target path with
    | none => simpa [here, weighs] using ih
    | some weight => simpa [here, weighs] using ih

theorem together_flatMap (all : a.All P) {X : Type} (xs : List X) (f : X → List Path) :
    a.together s (xs.flatMap f) = sum (xs.map fun x => a.together s (f x)) := by
  induction xs with
  | nil => rfl
  | cons x xs ih => rw [List.flatMap_cons, together_append all, ih, List.map_cons, sum_cons]

theorem together_acceptingBelow [Tested P] [LeftDistributive P] (all : a.All P) (k s : Nat) :
    a.together s (a.acceptingBelow k s) = a.total k s := by
  induction k generalizing s with
  | zero => rfl
  | succ k ih =>
    have ending : a.together s (if isZero (a.final s) then [] else [[]]) = a.final s := by
      cases tested : isZero (a.final s) with
      | true => exact ((Tested.isZero_iff (final_mem all s)).mp tested).symm
      | false =>
        obtain ⟨state, found, weight⟩ := state_of_final (P := P) tested
        have empty : a.pathWeight? s [] = some (a.final s) := by
          rw [pathWeight?_nil, found, weight, Option.map_some]
        simp [together, empty, plus_zero (final_mem all s)]
    have onward : ∀ numbered ∈ (a.leaving s).zipIdx,
        a.together s ((a.acceptingBelow k numbered.1.target).map fun path => numbered.2 :: path) =
          times numbered.1.weight (a.total k numbered.1.target) := by
      intro numbered present
      rw [List.mem_zipIdx_iff_getElem?, leaving_getElem?] at present
      rw [together_cons_paths all present, ih]
    have unnumbered : (a.leaving s).zipIdx.map (fun numbered =>
        times numbered.1.weight (a.total k numbered.1.target)) =
          (a.leaving s).map fun arc => times arc.weight (a.total k arc.target) := by
      conv_rhs => rw [← List.zipIdx_map_fst 0 (a.leaving s), List.map_map]
      rfl
    rw [acceptingBelow, total, together_append all, ending, together_flatMap all,
      List.map_congr_left onward, unnumbered]

-- However the accepting paths are listed, they weigh the same together.
theorem Enumerates.total [Tested P] [LeftDistributive P] (closed : a.Closed) (acyclic : a.Acyclic)
    (all : a.All P) (exist : s < a.states.size) {paths : List Path}
    (enumerates : a.Enumerates s paths) : a.together s paths = a.total a.states.size s := by
  have listed := acceptingBelow_enumerates (P := P) closed acyclic exist
  have perm : paths.Perm (a.acceptingBelow a.states.size s) := by
    refine (List.perm_ext_iff_of_nodup enumerates.nodup listed.nodup).mpr fun path => ?_
    rw [enumerates.complete, listed.complete]
  rw [← together_acceptingBelow all]
  exact sum_perm (perm.filterMap _) (together_mem all)

end Together

end WeightedAutomata.Automaton
