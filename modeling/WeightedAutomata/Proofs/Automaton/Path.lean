import Mathlib.Logic.Relation
import WeightedAutomata.Automaton.Basic
import WeightedAutomata.Proofs.Weight.Laws

namespace WeightedAutomata

-- A path by the positions of its arcs among those of the states it passes. Two arcs
-- of a state can agree in everything, and are then still two ways on.
abbrev Path := List Nat

def Arc.shape {W : Type} (arc : Arc W) : Nat × Nat × Nat :=
  (arc.input, arc.output, arc.target)

namespace Automaton
variable {W : Type} {a b : Automaton W} {s t i : Nat} {arc : Arc W} {path : Path}
  {arcs : List (Arc W)}

theorem ext_states (start : a.start = b.start) (states : ∀ s : Nat, a.states[s]? = b.states[s]?) :
    a = b := by
  cases a
  cases b
  cases start
  cases Array.ext_getElem? states
  rfl

structure Closed (a : Automaton W) : Prop where
  start : ∀ s, a.start = some s → s < a.states.size
  targets : ∀ state ∈ a.states, ∀ arc ∈ state.arcs, arc.target < a.states.size

structure All (P : W → Prop) (a : Automaton W) : Prop where
  final : ∀ state ∈ a.states, P state.finalWeight
  arcs : ∀ state ∈ a.states, ∀ arc ∈ state.arcs, P arc.weight

instance (a : Automaton W) : Decidable a.Closed :=
  decidable_of_iff ((∀ s ∈ a.start, s < a.states.size) ∧
      ∀ state ∈ a.states, ∀ arc ∈ state.arcs, arc.target < a.states.size)
    ⟨fun ⟨start, targets⟩ => ⟨start, targets⟩, fun ⟨start, targets⟩ => ⟨start, targets⟩⟩

instance (P : W → Prop) [DecidablePred P] (a : Automaton W) : Decidable (a.All P) :=
  decidable_of_iff ((∀ state ∈ a.states, P state.finalWeight) ∧
      ∀ state ∈ a.states, ∀ arc ∈ state.arcs, P arc.weight)
    ⟨fun ⟨final, arcs⟩ => ⟨final, arcs⟩, fun ⟨final, arcs⟩ => ⟨final, arcs⟩⟩

def arc? (a : Automaton W) (s i : Nat) : Option (Arc W) := do
  let state ← a.states[s]?
  state.arcs[i]?

theorem arc?_eq_some :
    a.arc? s i = some arc ↔ ∃ state, a.states[s]? = some state ∧ state.arcs[i]? = some arc := by
  simp [arc?, Option.bind_eq_some_iff]

theorem arc?_target (closed : a.Closed) (found : a.arc? s i = some arc) :
    arc.target < a.states.size := by
  obtain ⟨state, stateFound, arcFound⟩ := arc?_eq_some.mp found
  exact closed.targets state (Array.mem_of_getElem? stateFound) arc (Array.mem_of_getElem? arcFound)

theorem arc?_source (found : a.arc? s i = some arc) : s < a.states.size := by
  obtain ⟨state, stateFound, -⟩ := arc?_eq_some.mp found
  exact (Array.getElem?_eq_some_iff.mp stateFound).1

theorem All.weight {P : W → Prop} (all : a.All P) (found : a.arc? s i = some arc) :
    P arc.weight := by
  obtain ⟨state, stateFound, arcFound⟩ := arc?_eq_some.mp found
  exact all.arcs state (Array.mem_of_getElem? stateFound) arc (Array.mem_of_getElem? arcFound)

def Step (a : Automaton W) (s t : Nat) : Prop :=
  ∃ i arc, a.arc? s i = some arc ∧ arc.target = t

def OnCycle (a : Automaton W) (s : Nat) : Prop :=
  Relation.TransGen a.Step s s

def Acyclic (a : Automaton W) : Prop :=
  ∀ s, ¬ a.OnCycle s

theorem acyclic_of_upward (upward : ∀ s t, a.Step s t → s < t) : a.Acyclic := by
  have climbs : ∀ s t, Relation.TransGen a.Step s t → s < t := by
    intro s t path
    induction path with
    | single step => exact upward s _ step
    | tail _ step ih => exact Nat.lt_trans ih (upward _ _ step)
  intro s cycle
  exact Nat.lt_irrefl s (climbs s s cycle)

-- The arcs of a path, in order, when it is one from `s`.
def walk? (a : Automaton W) : Nat → Path → Option (List (Arc W))
  | _, [] => some []
  | s, i :: path => do
    let arc ← a.arc? s i
    let rest ← a.walk? arc.target path
    some (arc :: rest)

def visited (s : Nat) (arcs : List (Arc W)) : List Nat :=
  s :: arcs.map Arc.target

def reached (s : Nat) : List (Arc W) → Nat
  | [] => s
  | arc :: rest => reached arc.target rest

@[simp] theorem walk?_nil : a.walk? s [] = some [] := rfl

theorem walk?_cons :
    a.walk? s (i :: path) = some arcs ↔
      ∃ arc rest, a.arc? s i = some arc ∧ a.walk? arc.target path = some rest ∧
        arcs = arc :: rest := by
  simp only [walk?, Option.bind_eq_bind, Option.bind_eq_some_iff, Option.some.injEq]
  constructor
  · rintro ⟨arc, found, rest, walked, rfl⟩
    exact ⟨arc, rest, found, walked, rfl⟩
  · rintro ⟨arc, rest, found, walked, rfl⟩
    exact ⟨arc, found, rest, walked, rfl⟩

theorem reached_mem_visited (s : Nat) (arcs : List (Arc W)) : reached s arcs ∈ visited s arcs := by
  induction arcs generalizing s with
  | nil => simp [reached, visited]
  | cons arc rest ih => exact List.mem_cons_of_mem _ (ih arc.target)

theorem visited_lt (closed : a.Closed) (exist : s < a.states.size)
    (walked : a.walk? s path = some arcs) : ∀ q ∈ visited s arcs, q < a.states.size := by
  induction path generalizing s arcs with
  | nil =>
    cases walked
    simpa [visited] using exist
  | cons i path ih =>
    obtain ⟨arc, rest, found, onward, rfl⟩ := walk?_cons.mp walked
    intro q present
    rcases List.mem_cons.mp present with rfl | later
    · exact exist
    · exact ih (arc?_target closed found) onward q later

theorem visited_reachable (walked : a.walk? s path = some arcs) :
    ∀ q ∈ visited s arcs, Relation.ReflTransGen a.Step s q := by
  induction path generalizing s arcs with
  | nil =>
    cases walked
    simp [visited, Relation.ReflTransGen.refl]
  | cons i path ih =>
    obtain ⟨arc, rest, found, onward, rfl⟩ := walk?_cons.mp walked
    intro q present
    rcases List.mem_cons.mp present with rfl | later
    · exact .refl
    · exact .head ⟨i, arc, found, rfl⟩ (ih onward q later)

theorem onCycle_of_return (walked : a.walk? s path = some arcs)
    (back : s ∈ arcs.map Arc.target) : a.OnCycle s := by
  cases path with
  | nil =>
    cases walked
    cases back
  | cons i path =>
    obtain ⟨arc, rest, found, onward, rfl⟩ := walk?_cons.mp walked
    exact .head' ⟨i, arc, found, rfl⟩ (visited_reachable onward s back)

def relabel (f : Nat → Arc W → W) (s : Nat) : List (Arc W) → List (Arc W)
  | [] => []
  | arc :: rest => { arc with weight := f s arc } :: relabel f arc.target rest

theorem relabel_shape (f : Nat → Arc W → W) (s : Nat) (arcs : List (Arc W)) :
    (relabel f s arcs).map Arc.shape = arcs.map Arc.shape := by
  induction arcs generalizing s with
  | nil => rfl
  | cons arc rest ih =>
    rw [relabel, List.map_cons, List.map_cons, ih]
    rfl

theorem relabel_visited (f : Nat → Arc W → W) (s : Nat) (arcs : List (Arc W)) :
    visited s (relabel f s arcs) = visited s arcs := by
  induction arcs generalizing s with
  | nil => rfl
  | cons arc rest ih =>
    have later := ih arc.target
    simp only [visited, relabel, List.map_cons, List.cons.injEq, true_and] at later ⊢
    exact later

theorem relabel_congr {f g : Nat → Arc W → W} (same : ∀ q ∈ visited s arcs, f q = g q) :
    relabel f s arcs = relabel g s arcs := by
  induction arcs generalizing s with
  | nil => rfl
  | cons arc rest ih =>
    have here : f s = g s := same s (by simp [visited])
    have later : relabel f arc.target rest = relabel g arc.target rest :=
      ih fun q present => same q (List.mem_cons_of_mem _ present)
    rw [relabel, relabel, here, later]

-- An automaton that differs in weights alone has the same paths.
theorem walk?_relabel {f : Nat → Arc W → W} (closed : a.Closed) (exist : s < a.states.size)
    (weights : ∀ q < a.states.size, ∀ i,
      b.arc? q i = (a.arc? q i).map fun arc => { arc with weight := f q arc }) :
    b.walk? s path = (a.walk? s path).map (relabel f s) := by
  induction path generalizing s with
  | nil => rfl
  | cons i path ih =>
    cases found : a.arc? s i with
    | none => simp [walk?, weights s exist, found]
    | some arc =>
      have onward := ih (arc?_target closed found)
      cases walked : a.walk? arc.target path with
      | none => simp [walk?, weights s exist, found, onward, walked]
      | some rest => simp [walk?, weights s exist, found, onward, walked, relabel]

section Weights
open Weight
variable [Weight W]

def weigh (a : Automaton W) (s : Nat) : List (Arc W) → Option W
  | [] => (a.states[s]?).map State.finalWeight
  | arc :: rest => (a.weigh arc.target rest).map (times arc.weight)

def pathWeight? (a : Automaton W) (s : Nat) (path : Path) : Option W :=
  (a.walk? s path).bind (a.weigh s)

theorem pathWeight?_nil : a.pathWeight? s [] = (a.states[s]?).map State.finalWeight := rfl

theorem pathWeight?_cons (s i : Nat) (path : Path) :
    a.pathWeight? s (i :: path) =
      (a.arc? s i).bind fun arc => (a.pathWeight? arc.target path).map (times arc.weight) := by
  cases found : a.arc? s i with
  | none => simp [pathWeight?, walk?, found]
  | some arc =>
    cases onward : a.walk? arc.target path <;> simp [pathWeight?, walk?, found, onward, weigh]

theorem pathWeight?_mem {P : W → Prop} [Lawful P] (all : a.All P) {weight : W}
    (weighs : a.pathWeight? s path = some weight) : P weight := by
  induction path generalizing s weight with
  | nil =>
    obtain ⟨state, found, rfl⟩ := Option.map_eq_some_iff.mp weighs
    exact all.final state (Array.mem_of_getElem? found)
  | cons i path ih =>
    rw [pathWeight?_cons] at weighs
    obtain ⟨arc, found, onward⟩ := Option.bind_eq_some_iff.mp weighs
    obtain ⟨rest, restWeighs, rfl⟩ := Option.map_eq_some_iff.mp onward
    exact Lawful.times_mem (all.weight found) (ih restWeighs)

theorem weigh_congr (final : ∀ q ∈ visited s arcs,
    (b.states[q]?).map State.finalWeight = (a.states[q]?).map State.finalWeight) :
    b.weigh s arcs = a.weigh s arcs := by
  induction arcs generalizing s with
  | nil => exact final s (by simp [visited])
  | cons arc rest ih =>
    have later : b.weigh arc.target rest = a.weigh arc.target rest :=
      ih fun q present => final q (List.mem_cons_of_mem _ present)
    rw [weigh, weigh, later]

end Weights
end Automaton
end WeightedAutomata
