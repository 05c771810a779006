import WeightedAutomata.Proofs.Automaton.Path

namespace WeightedAutomata.Automaton
variable {W V U : Type} {a : Automaton W} {b : Automaton V} {c : Automaton U} {s t start : Nat}

def shapes (a : Automaton W) (s : Nat) : Option (Array (Nat × Nat × Nat)) :=
  (a.states[s]?).map fun state => state.arcs.map Arc.shape

theorem shapes_eq_none_iff : a.shapes s = none ↔ a.states.size ≤ s := by
  simp [shapes]

theorem step_iff_shapes :
    a.Step s t ↔ ∃ arcs, a.shapes s = some arcs ∧ ∃ shape ∈ arcs, shape.2.2 = t := by
  constructor
  · intro step
    obtain ⟨i, arc, found, rfl⟩ := step
    obtain ⟨state, stateFound, arcFound⟩ := arc?_eq_some.mp found
    refine ⟨_, by rw [shapes, stateFound, Option.map_some], arc.shape, ?_, rfl⟩
    exact Array.mem_map.mpr ⟨arc, Array.mem_of_getElem? arcFound, rfl⟩
  · rintro ⟨arcs, found, shape, present, rfl⟩
    obtain ⟨state, stateFound, rfl⟩ := Option.map_eq_some_iff.mp found
    obtain ⟨arc, leaves, rfl⟩ := Array.mem_map.mp present
    obtain ⟨i, arcFound⟩ := Array.mem_iff_getElem?.mp leaves
    exact ⟨i, arc, arc?_eq_some.mpr ⟨state, stateFound, arcFound⟩, rfl⟩

theorem closed_iff_step :
    a.Closed ↔ (∀ s, a.start = some s → s < a.states.size) ∧
      ∀ s t, a.Step s t → t < a.states.size := by
  constructor
  · intro closed
    refine ⟨closed.start, ?_⟩
    rintro s t ⟨i, arc, found, rfl⟩
    exact arc?_target closed found
  · intro exist
    obtain ⟨start, targets⟩ := exist
    refine ⟨start, fun state present arc leaves => ?_⟩
    obtain ⟨s, found⟩ := Array.mem_iff_getElem?.mp present
    obtain ⟨i, arcFound⟩ := Array.mem_iff_getElem?.mp leaves
    exact targets s arc.target ⟨i, arc, arc?_eq_some.mpr ⟨state, found, arcFound⟩, rfl⟩

structure Alike (a : Automaton W) (b : Automaton V) : Prop where
  start : b.start = a.start
  shapes : ∀ s, b.shapes s = a.shapes s

namespace Alike

theorem refl (a : Automaton W) : a.Alike a :=
  ⟨rfl, fun _ => rfl⟩

theorem trans (before : a.Alike b) (after : b.Alike c) : a.Alike c :=
  ⟨after.start.trans before.start, fun s => (after.shapes s).trans (before.shapes s)⟩

theorem size (alike : a.Alike b) : b.states.size = a.states.size := by
  have exist : ∀ s, b.states.size ≤ s ↔ a.states.size ≤ s := by
    intro s
    rw [← shapes_eq_none_iff, ← shapes_eq_none_iff, alike.shapes]
  exact Nat.le_antisymm ((exist _).mpr (Nat.le_refl _)) ((exist _).mp (Nat.le_refl _))

theorem step (alike : a.Alike b) : b.Step = a.Step := by
  funext s t
  rw [eq_iff_iff, step_iff_shapes, step_iff_shapes, alike.shapes]

theorem closed (alike : a.Alike b) (closed : a.Closed) : b.Closed := by
  rw [closed_iff_step] at closed ⊢
  rwa [alike.start, alike.step, alike.size]

theorem onCycle (alike : a.Alike b) : b.OnCycle s ↔ a.OnCycle s := by
  rw [OnCycle, OnCycle, alike.step]

end Alike

-- A state has been added that takes over as the start and only leads to the old one,
-- by an arc that reads and writes nothing.
structure Prepended (start : Nat) (a : Automaton W) (b : Automaton V) : Prop where
  size : b.states.size = a.states.size + 1
  begins : b.start = some a.states.size
  old : ∀ s < a.states.size, b.shapes s = a.shapes s
  fresh : b.shapes a.states.size = some #[(epsilon, epsilon, start)]
  unentered : ∀ s, ¬ b.Step s a.states.size

theorem Alike.prepended (alike : a.Alike b) (prepended : b.Prepended start c) :
    a.Prepended start c := by
  obtain ⟨size, begins, old, fresh, unentered⟩ := prepended
  rw [alike.size] at size begins old fresh unentered
  exact ⟨size, begins, fun s inside => (old s inside).trans (alike.shapes s), fresh, unentered⟩

namespace Prepended

theorem alike (prepended : a.Prepended start b) (alike : b.Alike c) : a.Prepended start c where
  size := alike.size.trans prepended.size
  begins := alike.start.trans prepended.begins
  old s inside := (alike.shapes s).trans (prepended.old s inside)
  fresh := (alike.shapes a.states.size).trans prepended.fresh
  unentered := by
    rw [alike.step]
    exact prepended.unentered

theorem closed (prepended : a.Prepended start b) (closed : a.Closed)
    (exist : start < a.states.size) : b.Closed := by
  rw [closed_iff_step] at closed ⊢
  rw [prepended.size, prepended.begins]
  constructor
  · intro s begins
    cases begins
    exact Nat.lt_succ_self _
  · intro s t step
    obtain ⟨arcs, found, leaves⟩ := step_iff_shapes.mp step
    rcases Nat.lt_trichotomy s a.states.size with old | rfl | beyond
    · rw [prepended.old s old] at found
      exact Nat.lt_succ_of_lt (closed.2 s t (step_iff_shapes.mpr ⟨arcs, found, leaves⟩))
    · cases prepended.fresh.symm.trans found
      obtain ⟨shape, present, rfl⟩ := leaves
      cases Array.mem_singleton.mp present
      exact Nat.lt_succ_of_lt exist
    · have none : b.shapes s = none := by
        rw [shapes_eq_none_iff, prepended.size]
        exact beyond
      cases none.symm.trans found

-- The last step round a cycle would enter the added state.
theorem not_onCycle (prepended : a.Prepended start b) : ¬ b.OnCycle a.states.size := by
  intro cycle
  obtain ⟨s, _, step⟩ := Relation.TransGen.tail'_iff.mp cycle
  exact prepended.unentered s step

end Prepended

-- Other weights, and at most one new start besides.
inductive Grown (start : Nat) (a : Automaton W) (b : Automaton V) : Prop where
  | alike (same : a.Alike b)
  | prepended (added : a.Prepended start b)

namespace Grown

theorem closed (grown : Grown start a b) (closed : a.Closed) (begins : a.start = some start) :
    b.Closed := by
  cases grown with
  | alike same => exact same.closed closed
  | prepended added => exact added.closed closed (closed.start start begins)

theorem begins (grown : Grown start a b) (begins : a.start = some start) :
    ∃ t, b.start = some t := by
  cases grown with
  | alike same => exact ⟨start, same.start.trans begins⟩
  | prepended added => exact ⟨_, added.begins⟩

theorem old (grown : Grown start a b) : ∀ s < a.states.size, b.shapes s = a.shapes s := by
  cases grown with
  | alike same => exact fun s _ => same.shapes s
  | prepended added => exact added.old

theorem size_le (grown : Grown start a b) : b.states.size ≤ a.states.size + 1 := by
  cases grown with
  | alike same => exact Nat.le_succ_of_le (Nat.le_of_eq same.size)
  | prepended added => exact Nat.le_of_eq added.size

end Grown
end WeightedAutomata.Automaton
