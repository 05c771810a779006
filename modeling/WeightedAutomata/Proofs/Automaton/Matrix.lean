import Mathlib.Algebra.BigOperators.Fin
import Mathlib.Algebra.Ring.GeomSum
import Mathlib.Data.Matrix.Basic
import WeightedAutomata.Proofs.Automaton.Total

namespace WeightedAutomata
open Weight Matrix

section Solutions
variable {R : Type} [Semiring R] {n k : Nat} {M : Matrix (Fin n) (Fin n) R} {x y : Fin n → R}
  {initial final : Fin n → R}

-- Column equations unfold to the sum over all paths and a remainder.
theorem unfold_column (equation : y = final + M *ᵥ y) (k : Nat) :
    y = (∑ i ∈ Finset.range k, M ^ i) *ᵥ final + M ^ k *ᵥ y := by
  induction k with
  | zero => simp
  | succ k ih =>
    calc y = (∑ i ∈ Finset.range k, M ^ i) *ᵥ final + M ^ k *ᵥ y := ih
      _ = (∑ i ∈ Finset.range k, M ^ i) *ᵥ final + M ^ k *ᵥ (final + M *ᵥ y) := by
        rw [← equation]
      _ = (∑ i ∈ Finset.range (k + 1), M ^ i) *ᵥ final + M ^ (k + 1) *ᵥ y := by
        rw [mulVec_add, mulVec_mulVec, ← pow_succ, Finset.sum_range_succ, add_mulVec, add_assoc]

theorem unfold_row (equation : x = initial + x ᵥ* M) (k : Nat) :
    x = initial ᵥ* (∑ i ∈ Finset.range k, M ^ i) + x ᵥ* M ^ k := by
  induction k with
  | zero => simp
  | succ k ih =>
    calc x = initial ᵥ* (∑ i ∈ Finset.range k, M ^ i) + x ᵥ* M ^ k := ih
      _ = initial ᵥ* (∑ i ∈ Finset.range k, M ^ i) + (initial + x ᵥ* M) ᵥ* M ^ k := by
        rw [← equation]
      _ = initial ᵥ* (∑ i ∈ Finset.range (k + 1), M ^ i) + x ᵥ* M ^ (k + 1) := by
        rw [add_vecMul, vecMul_vecMul, ← pow_succ', Finset.sum_range_succ, vecMul_add, add_assoc]

variable (vanishes : M ^ n = 0)
include vanishes

theorem solve_column (equation : y = final + M *ᵥ y) :
    y = (∑ i ∈ Finset.range n, M ^ i) *ᵥ final := by
  have unfolded := unfold_column equation n
  rwa [vanishes, zero_mulVec, add_zero] at unfolded

theorem solve_row (equation : x = initial + x ᵥ* M) :
    x = initial ᵥ* (∑ i ∈ Finset.range n, M ^ i) := by
  have unfolded := unfold_row equation n
  rwa [vanishes, vecMul_zero, add_zero] at unfolded

end Solutions

section Columns
variable {R X : Type} [Semiring R] {n : Nat}

theorem sum_by_target (arcs : List X) (target : X → Nat) (u : X → R) (f : Nat → R)
    (inside : ∀ arc ∈ arcs, target arc < n) :
    ∑ q : Fin n, (arcs.map fun arc => if target arc = q then u arc else 0).sum * f q =
      (arcs.map fun arc => u arc * f (target arc)).sum := by
  induction arcs with
  | nil => simp
  | cons arc rest ih =>
    have later : ∀ arc ∈ rest, target arc < n := by
      intro other present
      exact inside other (by simp [present])
    have here : ∑ q : Fin n, (if target arc = q then u arc else 0) * f q =
        u arc * f (target arc) := by
      rw [Finset.sum_eq_single ⟨target arc, inside arc (by simp)⟩]
      · simp
      · intro q _ other
        have different : target arc ≠ q := fun same => other (Fin.ext same.symm)
        rw [if_neg different, zero_mul]
      · intro absent
        exact absurd (Finset.mem_univ _) absent
    simp only [List.map_cons, List.sum_cons, add_mul, Finset.sum_add_distrib]
    rw [here, ih later]

theorem mul_sum_if (arcs : List X) (keep : X → Prop) [DecidablePred keep] (u : X → R) (v : R) :
    v * (arcs.map fun arc => if keep arc then u arc else 0).sum =
      ((arcs.filter keep).map fun arc => v * u arc).sum := by
  induction arcs with
  | nil => simp
  | cons arc rest ih => by_cases kept : keep arc <;> simp [kept, mul_add, ih]

theorem sum_flatMap_range (f : Nat → List R) (n : Nat) :
    ((List.range n).flatMap f).sum = ∑ p : Fin n, (f p).sum := by
  induction n with
  | zero => simp
  | succ n ih => simp [List.range_succ, List.flatMap_append, ih, Fin.sum_univ_castSucc]

end Columns

namespace Automaton
variable {W : Type} [Weight W] {P : W → Prop} [Lawful P] {a : Automaton W} {n k : Nat}

noncomputable def matrix (P : W → Prop) [Lawful P] (n : Nat) (a : Automaton W) :
    Matrix (Fin n) (Fin n) (Among P) :=
  fun s q => ((a.leaving s).map fun arc => if arc.target = q.val then lift P arc.weight else 0).sum

noncomputable def finals (P : W → Prop) [Lawful P] (n : Nat) (a : Automaton W) : Fin n → Among P :=
  fun s => lift P (a.final s)

theorem lift_onward (all : a.All P) (s : Nat) {f : Nat → W} (members : ∀ q, P (f q)) :
    lift P (sum ((a.leaving s).map fun arc => times arc.weight (f arc.target))) =
      ((a.leaving s).map fun arc => lift P arc.weight * lift P (f arc.target)).sum := by
  rw [lift_sum, List.map_map]
  · apply congrArg List.sum
    apply List.map_congr_left
    intro arc leaves
    exact lift_times (leaving_mem all leaves) (members arc.target)
  · intro x present
    obtain ⟨arc, leaves, rfl⟩ := List.mem_map.mp present
    exact Lawful.times_mem (leaving_mem all leaves) (members arc.target)

variable [LeftDistributive P] [RightDistributive P]

theorem matrix_eq_zero {s q : Fin n} (apart : ¬ a.Step s q) : a.matrix P n s q = 0 := by
  apply List.sum_eq_zero
  intro x present
  obtain ⟨arc, leaves, rfl⟩ := List.mem_map.mp present
  have other : arc.target ≠ q.val := by
    intro same
    exact apart (same ▸ step_of_leaving leaves)
  exact if_neg other

theorem matrix_mulVec (closed : a.Closed) (size : a.states.size = n) (s : Fin n)
    (f : Nat → Among P) : (a.matrix P n *ᵥ fun q => f q) s =
      ((a.leaving s).map fun arc => lift P arc.weight * f arc.target).sum := by
  subst n
  exact sum_by_target (a.leaving s) Arc.target (fun arc => lift P arc.weight) f
    fun _ leaves => leaving_target closed leaves

-- The paths of fewer than `k` arcs are the powers of the matrix below `k`.
theorem lift_total (closed : a.Closed) (all : a.All P) (size : a.states.size = n) (k : Nat)
    (s : Fin n) : lift P (a.total k s) =
      ((∑ i ∈ Finset.range k, a.matrix P n ^ i) *ᵥ a.finals P n) s := by
  induction k generalizing s with
  | zero => simpa [total] using lift_zero
  | succ k ih =>
    have onward : (fun q : Fin n => lift P (a.total k q)) =
        (∑ i ∈ Finset.range k, a.matrix P n ^ i) *ᵥ a.finals P n := funext ih
    calc lift P (a.total (k + 1) s)
        = a.finals P n s +
            ((a.leaving s).map fun arc =>
              lift P arc.weight * lift P (a.total k arc.target)).sum := by
          rw [total, lift_plus (final_mem all s) (onward_mem all s (total_mem all k)),
            lift_onward all s (total_mem all k)]
          rfl
      _ = a.finals P n s + (a.matrix P n *ᵥ
            ((∑ i ∈ Finset.range k, a.matrix P n ^ i) *ᵥ a.finals P n)) s := by
          rw [← matrix_mulVec closed size s fun q => lift P (a.total k q), onward]
      _ = ((∑ i ∈ Finset.range (k + 1), a.matrix P n ^ i) *ᵥ a.finals P n) s := by
          rw [geom_sum_succ, add_mulVec, one_mulVec, mulVec_mulVec, add_comm]
          rfl

-- A power of the matrix is zero between states that no path of its length connects.
theorem pow_eq_zero {s q : Fin n}
    (apart : ∀ path arcs, path.length = k → a.walk? s path = some arcs → reached s arcs ≠ q) :
    (a.matrix P n ^ k) s q = 0 := by
  induction k generalizing s with
  | zero =>
    have other : s ≠ q := by
      intro same
      exact apart [] [] rfl rfl (congrArg Fin.val same)
    rw [pow_zero, one_apply_ne other]
  | succ k ih =>
    rw [pow_succ', mul_apply]
    apply Finset.sum_eq_zero
    intro t _
    by_cases step : a.Step s t
    · obtain ⟨i, arc, found, target⟩ := step
      have later : (a.matrix P n ^ k) t q = 0 := by
        apply ih
        intro path arcs length walked
        rw [← target] at walked
        have longer := apart (i :: path) (arc :: arcs) (by rw [List.length_cons, length])
          (walk?_cons.mpr ⟨arc, arcs, found, walked, rfl⟩)
        rwa [reached, target] at longer
      rw [later, mul_zero]
    · rw [matrix_eq_zero step, zero_mul]

theorem matrix_vanishes (closed : a.Closed) (acyclic : a.Acyclic) (size : a.states.size = n) :
    a.matrix P n ^ n = 0 := by
  subst n
  ext s q
  apply pow_eq_zero
  intro path arcs length walked
  have short := walk?_short closed acyclic s.isLt walked
  omega

theorem pow_diagonal (acyclic : a.Acyclic) (positive : 0 < k) (s : Fin n) :
    (a.matrix P n ^ k) s s = 0 := by
  apply pow_eq_zero
  intro path arcs length walked back
  apply acyclic s
  apply onCycle_of_return walked
  cases arcs with
  | nil =>
    have empty := walk?_length walked
    rw [List.length_nil] at empty
    omega
  | cons arc rest =>
    rw [reached] at back
    rw [← back]
    exact reached_mem_visited arc.target rest

end Automaton
end WeightedAutomata
