import Mathlib.Logic.Equiv.Defs
import WeightedAutomata.Proofs.Automaton.Cycle
import WeightedAutomata.Proofs.Automaton.Shape

namespace WeightedAutomata
variable {W V X Y : Type}

section Reorder
variable {p : Equiv.Perm Nat} {xs : Array X} {i : Nat}

-- The values of an array in another order: the place `i` has what was at the place `p i`.
def reorder (p : Equiv.Perm Nat) (xs : Array X) : Array X :=
  Array.ofFn fun i : Fin xs.size => (xs[p i]?).getD xs[i]

@[simp] theorem reorder_size (p : Equiv.Perm Nat) (xs : Array X) :
    (reorder p xs).size = xs.size :=
  Array.size_ofFn

theorem lt_iff_of_fixed {n : Nat} (fixed : ∀ i, n ≤ i → p i = i) (i : Nat) : p i < n ↔ i < n := by
  constructor
  · intro inside
    refine Nat.lt_of_not_le fun beyond => ?_
    rw [fixed i beyond] at inside
    omega
  · intro inside
    refine Nat.lt_of_not_le fun beyond => ?_
    have same : p i = i := p.injective (fixed (p i) beyond)
    omega

theorem fixed_symm {n : Nat} (fixed : ∀ i, n ≤ i → p i = i) : ∀ i, n ≤ i → p.symm i = i :=
  fun i beyond => (Equiv.symm_apply_eq p).mpr (fixed i beyond).symm

theorem getElem?_reorder (fixed : ∀ i, xs.size ≤ i → p i = i) (i : Nat) :
    (reorder p xs)[i]? = xs[p i]? := by
  by_cases inside : i < xs.size
  · have within := (lt_iff_of_fixed fixed i).mpr inside
    rw [reorder, Array.getElem?_ofFn, dif_pos inside, Array.getElem?_eq_getElem within]
    rfl
  · have beyond := Nat.le_of_not_lt inside
    rw [fixed i beyond, Array.getElem?_eq_none beyond, Array.getElem?_eq_none]
    rwa [reorder_size]

theorem reorder_map (f : X → Y) (p : Equiv.Perm Nat) (xs : Array X) :
    (reorder p xs).map f = reorder p (xs.map f) := by
  apply Array.ext
  · simp
  · intro i left right
    have inside : i < xs.size := by simpa using left
    simp only [reorder, Array.getElem_map, Array.getElem_ofFn, Array.getElem?_map]
    cases xs[p i]? <;> simp

theorem reorder_singleton (p : Equiv.Perm Nat) (x : X) : reorder p #[x] = #[x] := by
  apply Array.ext
  · simp
  · intro i left right
    cases Nat.lt_one_iff.mp right
    simp only [reorder, Array.getElem_ofFn]
    cases p 0 <;> rfl

end Reorder

-- Other numbers for the states, and for each state other places for its arcs.
structure Renaming where
  state : Equiv.Perm Nat
  arc : Nat → Equiv.Perm Nat

def Arc.retarget (f : Nat → Nat) (arc : Arc W) : Arc W :=
  { arc with target := f arc.target }

-- The state that was `s`, with its arcs leading to the new numbers and in their new places.
def State.rename (r : Renaming) (s : Nat) (state : State W) : State W :=
  { state with arcs := reorder (r.arc s).symm (state.arcs.map (Arc.retarget r.state)) }

namespace Automaton
variable {r : Renaming} {a b c : Automaton W} {s t i start : Nat}

def rename (r : Renaming) (a : Automaton W) : Automaton W where
  states := reorder r.state.symm (a.states.mapIdx (State.rename r))
  start := a.start.map r.state

-- What does not exist keeps its number, so that the others change places among themselves.
structure Fits (r : Renaming) (a : Automaton W) : Prop where
  state : ∀ s, a.states.size ≤ s → r.state s = s
  arc : ∀ s i, a.arc? s i = none → r.arc s i = i

@[simp] theorem rename_size : (a.rename r).states.size = a.states.size := by
  simp [rename]

theorem rename_start (begins : a.start = some start) :
    (a.rename r).start = some (r.state start) := by
  rw [rename, begins, Option.map_some]

theorem rename_unstarted (unstarted : a.start = none) : (a.rename r).start = none := by
  rw [rename, unstarted, Option.map_none]

theorem rename_exist (fits : Fits r a) (exist : s < a.states.size) :
    r.state s < (a.rename r).states.size := by
  rw [rename_size]
  exact (lt_iff_of_fixed fits.state s).mpr exist

theorem rename_state (fits : Fits r a) (s : Nat) :
    (a.rename r).states[r.state s]? = (a.states[s]?).map (State.rename r s) := by
  have fixed : ∀ s, (a.states.mapIdx (State.rename r)).size ≤ s → r.state.symm s = s := by
    rw [Array.size_mapIdx]
    exact fixed_symm fits.state
  rw [rename, getElem?_reorder fixed, Equiv.symm_apply_apply, Array.getElem?_mapIdx]

theorem ext_renamed (r : Renaming) (begins : b.start = c.start)
    (states : ∀ s, b.states[r.state s]? = c.states[r.state s]?) : b = c := by
  refine ext_states begins fun q => ?_
  obtain ⟨s, rfl⟩ := r.state.surjective q
  exact states s

theorem rename_arc? (fits : Fits r a) (s i : Nat) :
    (a.rename r).arc? (r.state s) (r.arc s i) = (a.arc? s i).map (Arc.retarget r.state) := by
  unfold arc?
  rw [rename_state fits]
  cases found : a.states[s]? with
  | none => rfl
  | some state =>
    have fixed : ∀ i, (state.arcs.map (Arc.retarget r.state)).size ≤ i →
        (r.arc s).symm i = i := by
      refine fixed_symm fun i beyond => fits.arc s i ?_
      rw [Array.size_map] at beyond
      simp [arc?, found, Array.getElem?_eq_none beyond]
    change (State.rename r s state).arcs[r.arc s i]? = _
    rw [State.rename, getElem?_reorder fixed, Equiv.symm_apply_apply, Array.getElem?_map]
    rfl

theorem rename_step (fits : Fits r a) :
    (a.rename r).Step (r.state s) (r.state t) ↔ a.Step s t := by
  constructor
  · rintro ⟨j, arc, found, target⟩
    obtain ⟨i, rfl⟩ := (r.arc s).surjective j
    rw [rename_arc? fits] at found
    obtain ⟨old, oldFound, rfl⟩ := Option.map_eq_some_iff.mp found
    exact ⟨i, old, oldFound, r.state.injective target⟩
  · rintro ⟨i, arc, found, rfl⟩
    exact ⟨r.arc s i, arc.retarget r.state, by rw [rename_arc? fits, found]; rfl, rfl⟩

theorem rename_onCycle (fits : Fits r a) : (a.rename r).OnCycle (r.state s) ↔ a.OnCycle s := by
  constructor
  · intro cycle
    have back : ∀ x y, (a.rename r).Step x y → a.Step (r.state.symm x) (r.state.symm y) := by
      intro x y step
      rw [← rename_step fits, Equiv.apply_symm_apply, Equiv.apply_symm_apply]
      exact step
    have old : a.OnCycle (r.state.symm (r.state s)) :=
      Relation.TransGen.lift r.state.symm back _ _ cycle
    rwa [Equiv.symm_apply_apply] at old
  · intro cycle
    exact Relation.TransGen.lift r.state (fun _ _ => (rename_step fits).mpr) _ _ cycle

theorem rename_closed (fits : Fits r a) (closed : a.Closed) : (a.rename r).Closed := by
  rw [closed_iff_step] at closed ⊢
  constructor
  · intro q begins
    obtain ⟨start, oldBegins, rfl⟩ := Option.map_eq_some_iff.mp begins
    exact rename_exist fits (closed.1 start oldBegins)
  · intro x y step
    obtain ⟨s, rfl⟩ := r.state.surjective x
    obtain ⟨t, rfl⟩ := r.state.surjective y
    exact rename_exist fits (closed.2 s t ((rename_step fits).mp step))

theorem rename_initialAcyclic (fits : Fits r a) (closed : a.Closed) :
    (a.rename r).initialAcyclic = a.initialAcyclic := by
  cases begins : a.start with
  | none => simp [initialAcyclic, rename_unstarted begins, begins]
  | some start =>
    have renamed := initialAcyclic_cases (rename_closed fits closed) (rename_start begins)
    rw [rename_onCycle fits] at renamed
    rcases initialAcyclic_cases closed begins with ⟨answer, away⟩ | ⟨answer, cycle⟩
    · rcases renamed with ⟨same, -⟩ | ⟨-, impossible⟩
      · rw [same, answer]
      · exact absurd impossible away
    · rcases renamed with ⟨-, impossible⟩ | ⟨same, -⟩
      · exact absurd cycle impossible
      · rw [same, answer]

theorem Fits.of_old (fits : Fits r a) (grows : a.states.size ≤ b.states.size)
    (old : ∀ s < a.states.size, b.shapes s = a.shapes s) : Fits r b := by
  refine ⟨fun s beyond => fits.state s (Nat.le_trans grows beyond), fun s i missing => ?_⟩
  apply fits.arc
  by_cases inside : s < a.states.size
  · have shape : ∀ c : Automaton W,
        (c.arc? s i).map Arc.shape = (c.shapes s).bind fun arcs => arcs[i]? := by
      intro c
      unfold arc? shapes
      cases c.states[s]? <;> simp
    have none : (a.arc? s i).map Arc.shape = none := by
      rw [shape, ← old s inside, ← shape, missing]
      rfl
    exact Option.map_eq_none_iff.mp none
  · simp [arc?, Array.getElem?_eq_none (Nat.le_of_not_lt inside)]

theorem Fits.of_alike (fits : Fits r a) (alike : a.Alike b) : Fits r b :=
  fits.of_old (Nat.le_of_eq alike.size.symm) fun s _ => alike.shapes s

end Automaton
end WeightedAutomata
