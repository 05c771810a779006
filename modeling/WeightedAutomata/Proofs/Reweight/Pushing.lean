import WeightedAutomata.Proofs.Automaton.Matrix
import WeightedAutomata.Proofs.Reweight.Flank
import WeightedAutomata.Proofs.Reweight.Total
import WeightedAutomata.Proofs.Tuple.Laws
import WeightedAutomata.Proofs.Weight.Tropical

namespace WeightedAutomata
open Weight
open Matrix hiding zero one

section Algebra
variable {R : Type} [Semiring R] {n : Nat} {M M' : Matrix (Fin n) (Fin n) R}
  {V U final final' initial : Fin n → R}

-- A state that pushes to the start has its distance divided by itself left.
theorem push_column (vanishes : M' ^ n = 0) (equation : V = final + M *ᵥ V)
    (arcs : ∀ s q, M' s q = U s * M s q * V q) (finals : ∀ s, final' s = U s * final s)
    (regular : ∀ s, V s * U s * V s = V s) :
    (∑ i ∈ Finset.range n, M' ^ i) *ᵥ final' = fun s => U s * V s := by
  symm
  apply solve_column vanishes
  funext s
  have kept : ∀ q, M' s q * (U q * V q) = U s * (M s q * V q) := by
    intro q
    rw [arcs, mul_assoc, ← mul_assoc (V q), regular, mul_assoc]
  calc U s * V s = U s * (final + M *ᵥ V) s := by rw [← equation]
    _ = final' s + ∑ q, U s * (M s q * V q) := by
      rw [Pi.add_apply, mul_add, finals, mulVec, dotProduct, Finset.mul_sum]
    _ = (final' + M' *ᵥ fun s => U s * V s) s := by
      rw [Pi.add_apply, mulVec, dotProduct, Finset.sum_congr rfl fun q _ => kept q]

-- Pushed to the final states, the distances are what a path brings along.
theorem push_row (vanishes : M ^ n = 0) (vanishes' : M' ^ n = 0)
    (equation : V = initial + V ᵥ* M) (arcs : ∀ p q, M' p q = V p * M p q * U q)
    (finals : ∀ q, final' q = V q * final q) (regular : ∀ s, V s * U s * V s = V s)
    (unit : ∀ q, initial q * U q = initial q) :
    initial ⬝ᵥ (∑ i ∈ Finset.range n, M' ^ i) *ᵥ final' =
      initial ⬝ᵥ (∑ i ∈ Finset.range n, M ^ i) *ᵥ final := by
  have kept : ∀ p q, V p * U p * M' p q = V p * M p q * U q := by
    intro p q
    rw [arcs, ← mul_assoc, ← mul_assoc, regular]
  have brought : (fun q => V q * U q) = initial ᵥ* ∑ i ∈ Finset.range n, M' ^ i := by
    apply solve_row vanishes'
    funext q
    calc V q * U q = (initial + V ᵥ* M) q * U q := by rw [← equation]
      _ = initial q + ∑ p, V p * M p q * U q := by
        rw [Pi.add_apply, add_mul, unit, vecMul, dotProduct, Finset.sum_mul]
      _ = (initial + (fun q => V q * U q) ᵥ* M') q := by
        rw [Pi.add_apply, vecMul, dotProduct, Finset.sum_congr rfl fun p _ => kept p q]
  calc initial ⬝ᵥ (∑ i ∈ Finset.range n, M' ^ i) *ᵥ final'
      = (fun q => V q * U q) ⬝ᵥ final' := by rw [dotProduct_mulVec, brought]
    _ = V ⬝ᵥ final := by
      apply Finset.sum_congr rfl
      intro q _
      rw [finals, ← mul_assoc, regular]
    _ = initial ⬝ᵥ (∑ i ∈ Finset.range n, M ^ i) *ᵥ final := by
      rw [dotProduct_mulVec, ← solve_row vanishes equation]

end Algebra

namespace Automaton
variable {W : Type} [Weight W] {P : W → Prop} {direction : Direction} {potentials : Array W}
  {a b : Automaton W} {start n : Nat}

def DistancesToFinal (potentials : Array W) (a : Automaton W) : Prop :=
  ∀ s < a.states.size, Potential.get potentials s = plus (a.final s)
    (sum ((a.leaving s).map fun arc => times arc.weight (Potential.get potentials arc.target)))

def arriving (potentials : Array W) (a : Automaton W) (q p : Nat) : List W :=
  ((a.leaving p).filter fun arc => arc.target = q).map fun arc =>
    times (Potential.get potentials p) arc.weight

def DistancesFromStart (potentials : Array W) (a : Automaton W) (start : Nat) : Prop :=
  ∀ q < a.states.size, Potential.get potentials q = plus (if q = start then one else zero)
    (sum ((List.range a.states.size).flatMap (arriving potentials a q)))

def Distances (direction : Direction) (potentials : Array W) (a : Automaton W) (start : Nat) :
    Prop :=
  match direction with
  | .toInitial => DistancesToFinal potentials a
  | .toFinal => DistancesFromStart potentials a start

structure Pushable (P : W → Prop) (direction : Direction) (potentials : Array W) (a : Automaton W)
    (start : Nat) : Prop where
  closed : a.Closed
  acyclic : a.Acyclic
  begins : a.start = some start
  all : a.All P
  members : ∀ v ∈ potentials, P v
  distances : Distances direction potentials a start

-- All accepting paths weigh together what they weighed before, whichever way they are
-- listed.
structure TotalKept (a : Automaton W) (start : Nat) (b : Automaton W) (t : Nat) : Prop where
  before : ∃ paths, a.Enumerates start paths
  after : ∃ paths, b.Enumerates t paths
  kept : ∀ old new, a.Enumerates start old → b.Enumerates t new →
    b.together t new = a.together start old

def KeepsTotal (direction : Direction) (potentials : Array W) (a : Automaton W) (start : Nat) :
    Prop :=
  ∃ b t, a.reweight direction potentials = .ok b ∧ b.start = some t ∧ TotalKept a start b t

section Moved
variable [Lawful P] [inverting : Inverting P]

theorem lift_regular {v : W} (member : P v) :
    lift P v * lift P (inverse v) * lift P v = lift P v := by
  have inverseMember := inverting.inverse_mem member
  rw [← lift_times member inverseMember, ← lift_times (Lawful.times_mem member inverseMember) member,
    inverting.regular member]

theorem moved_finals (direction : Direction) (all : a.All P) (members : ∀ v ∈ potentials, P v)
    (size : a.states.size = n) (s : Fin n) :
    (a.moveWeights direction potentials).finals P n s =
      lift P (frontFactor direction (Potential.get potentials s)) * a.finals P n s := by
  have score : P (Potential.get potentials s) := get_mem members s
  unfold finals
  rw [moveWeights_final (by omega), reweightFinal_flank direction score (final_mem all s),
    lift_times (frontFactor_mem direction score) (final_mem all s)]

variable [LeftDistributive P] [RightDistributive P]

theorem moved_matrix (direction : Direction) (all : a.All P) (members : ∀ v ∈ potentials, P v)
    (s q : Fin n) : (a.moveWeights direction potentials).matrix P n s q =
      lift P (frontFactor direction (Potential.get potentials s)) * a.matrix P n s q *
        lift P (startFactor direction (Potential.get potentials q)) := by
  unfold matrix
  rw [moveWeights_leaving, List.map_map, ← List.sum_map_mul_left, ← List.sum_map_mul_right]
  apply congrArg List.sum
  apply List.map_congr_left
  intro arc leaves
  simp only [Function.comp_apply]
  by_cases here : arc.target = q
  · have source : P (Potential.get potentials s) := get_mem members s
    have target : P (Potential.get potentials q) := get_mem members q
    have member := leaving_mem all leaves
    have front := frontFactor_mem direction source
    rw [if_pos here, if_pos here, movedWeight, here,
      reweightArc_flank direction source target member,
      lift_times (Lawful.times_mem front member) (startFactor_mem_inverting direction target),
      lift_times front member]
  · rw [if_neg here, if_neg here, mul_zero, zero_mul]

end Moved

section Equations
variable [Lawful P]

theorem arriving_mem (all : a.All P) (members : ∀ v ∈ potentials, P v) (q p : Nat) :
    ∀ x ∈ arriving potentials a q p, P x := by
  intro x present
  obtain ⟨arc, kept, rfl⟩ := List.mem_map.mp present
  exact Lawful.times_mem (get_mem members p) (leaving_mem all (List.mem_filter.mp kept).1)

variable [LeftDistributive P] [RightDistributive P]

theorem DistancesToFinal.equation (distances : DistancesToFinal potentials a) (closed : a.Closed)
    (all : a.All P) (members : ∀ v ∈ potentials, P v) (size : a.states.size = n) :
    (fun s : Fin n => lift P (Potential.get potentials s)) =
      a.finals P n + a.matrix P n *ᵥ fun q => lift P (Potential.get potentials q) := by
  funext s
  have scores : ∀ q, P (Potential.get potentials q) := get_mem members
  rw [Pi.add_apply, matrix_mulVec closed size s fun q => lift P (Potential.get potentials q),
    distances s (by omega), lift_plus (final_mem all s) (onward_mem all s scores),
    lift_onward all s scores]
  rfl

theorem sum_arriving (all : a.All P) (members : ∀ v ∈ potentials, P v) (p q : Fin n) :
    ((arriving potentials a q p).map (lift P)).sum =
      lift P (Potential.get potentials p) * a.matrix P n p q := by
  unfold arriving matrix
  rw [mul_sum_if (a.leaving p) (fun arc => arc.target = q.val), List.map_map]
  apply congrArg List.sum
  apply List.map_congr_left
  intro arc kept
  exact lift_times (get_mem members p) (leaving_mem all (List.mem_filter.mp kept).1)

theorem DistancesFromStart.equation (distances : DistancesFromStart potentials a start)
    (all : a.All P) (members : ∀ v ∈ potentials, P v) (size : a.states.size = n)
    (exist : start < n) :
    (fun q : Fin n => lift P (Potential.get potentials q)) =
      Pi.single ⟨start, exist⟩ 1 +
        (fun p : Fin n => lift P (Potential.get potentials p)) ᵥ* a.matrix P n := by
  funext q
  have initial : lift P (if q.val = start then one else zero) =
      (Pi.single ⟨start, exist⟩ 1 : Fin n → Among P) q := by
    by_cases here : q.val = start
    · have same : q = ⟨start, exist⟩ := Fin.ext here
      rw [if_pos here, same, Pi.single_eq_same, lift_one]
    · have other : q ≠ ⟨start, exist⟩ := fun same => here (congrArg Fin.val same)
      rw [if_neg here, Pi.single_eq_of_ne other, lift_zero]
  have initialMember : P (if q.val = start then one else zero) := by
    split
    · exact Lawful.one_mem
    · exact Lawful.zero_mem
  have arrivals : ∀ x ∈ (List.range n).flatMap (arriving potentials a q), P x := by
    intro x present
    obtain ⟨p, _, arrives⟩ := List.mem_flatMap.mp present
    exact arriving_mem all members q p x arrives
  have summed : lift P (sum ((List.range n).flatMap (arriving potentials a q))) =
      ∑ p : Fin n, lift P (Potential.get potentials p) * a.matrix P n p q := by
    rw [lift_sum arrivals, List.map_flatMap, sum_flatMap_range]
    exact Finset.sum_congr rfl fun p _ => sum_arriving all members p q
  rw [distances q (by omega), size, lift_plus initialMember (sum_mem arrivals), initial, summed]
  rfl

-- No path comes back to the start, so that only the empty one leads there.
theorem DistancesFromStart.start_one (distances : DistancesFromStart potentials a start)
    (closed : a.Closed) (acyclic : a.Acyclic) (all : a.All P) (members : ∀ v ∈ potentials, P v)
    (exist : start < a.states.size) : Potential.get potentials start = one := by
  have equation := distances.equation all members rfl exist
  have solved := solve_row (matrix_vanishes closed acyclic rfl) equation
  have here := congrFun solved ⟨start, exist⟩
  rw [single_one_vecMul] at here
  apply lift_injective (get_mem members start) Lawful.one_mem
  rw [lift_one]
  refine here.trans ?_
  rw [row_apply, Matrix.sum_apply, Finset.sum_eq_single 0]
  · rw [pow_zero, one_apply_eq]
  · intro k _ positive
    exact pow_diagonal acyclic (Nat.pos_of_ne_zero positive) _
  · intro absent
    exact absurd (Finset.mem_range.mpr (Nat.zero_lt_of_lt exist)) absent

end Equations

section Totals
variable [Lawful P] [LeftDistributive P] [RightDistributive P] [inverting : Inverting P]

theorem total_toInitial (distances : DistancesToFinal potentials a) (closed : a.Closed)
    (acyclic : a.Acyclic) (all : a.All P) (members : ∀ v ∈ potentials, P v)
    [Direction.toInitial.Absorbs P] (exist : start < a.states.size) :
    a.total a.states.size start = Potential.get potentials start ∧
      (a.moveWeights .toInitial potentials).total a.states.size start =
        times (inverse (Potential.get potentials start)) (Potential.get potentials start) := by
  have score : P (Potential.get potentials start) := get_mem members start
  have inverseMember := inverting.inverse_mem score
  have equation := distances.equation closed all members rfl
  have movedAll := moveWeights_all .toInitial members all
  have movedClosed := moveWeights_closed .toInitial potentials closed
  have movedAcyclic : (a.moveWeights .toInitial potentials).Acyclic :=
    fun s cycle => acyclic s (moveWeights_onCycle.mp cycle)
  constructor
  · apply lift_injective (total_mem all _ _) score
    rw [lift_total closed all rfl _ ⟨start, exist⟩,
      ← solve_column (matrix_vanishes closed acyclic rfl) equation]
  · apply lift_injective (total_mem movedAll _ _) (Lawful.times_mem inverseMember score)
    rw [lift_total movedClosed movedAll moveWeights_size _ ⟨start, exist⟩,
      push_column (matrix_vanishes movedClosed movedAcyclic moveWeights_size) equation
        (moved_matrix .toInitial all members) (moved_finals .toInitial all members rfl)
        fun s => lift_regular (get_mem members s),
      lift_times inverseMember score]
    rfl

theorem total_toFinal (distances : DistancesFromStart potentials a start) (closed : a.Closed)
    (acyclic : a.Acyclic) (all : a.All P) (members : ∀ v ∈ potentials, P v)
    [Direction.toFinal.Absorbs P] (exist : start < a.states.size) :
    (a.moveWeights .toFinal potentials).total a.states.size start =
      a.total a.states.size start := by
  have startOne := distances.start_one closed acyclic all members exist
  have movedAll := moveWeights_all .toFinal members all
  have movedClosed := moveWeights_closed .toFinal potentials closed
  have movedAcyclic : (a.moveWeights .toFinal potentials).Acyclic :=
    fun s cycle => acyclic s (moveWeights_onCycle.mp cycle)
  have unit : ∀ q : Fin a.states.size, (Pi.single ⟨start, exist⟩ 1 : Fin _ → Among P) q *
      lift P (inverse (Potential.get potentials q)) =
        (Pi.single ⟨start, exist⟩ 1 : Fin _ → Among P) q := by
    intro q
    by_cases here : q = ⟨start, exist⟩
    · rw [here, startOne, inverse_one P, lift_one, mul_one]
    · rw [Pi.single_eq_of_ne here, zero_mul]
  have pushed := push_row (matrix_vanishes closed acyclic rfl)
    (matrix_vanishes movedClosed movedAcyclic moveWeights_size)
    (distances.equation all members rfl exist) (moved_matrix .toFinal all members)
    (moved_finals .toFinal all members rfl) (fun s => lift_regular (get_mem members s)) unit
  rw [single_one_dotProduct, single_one_dotProduct,
    ← lift_total movedClosed movedAll moveWeights_size _ ⟨start, exist⟩,
    ← lift_total closed all rfl _ ⟨start, exist⟩] at pushed
  exact lift_injective (total_mem movedAll _ _) (total_mem all _ _) pushed

end Totals

section Kept
variable [Lawful P] [LeftDistributive P] [Tested P]

theorem TotalKept.of_total (closed : a.Closed) (acyclic : a.Acyclic) (all : a.All P)
    (exist : start < a.states.size) (bClosed : b.Closed) (step : b.Step = a.Step) (bAll : b.All P)
    (size : b.states.size = a.states.size)
    (same : b.total a.states.size start = a.total a.states.size start) :
    TotalKept a start b start := by
  have bAcyclic : b.Acyclic := by
    intro s cycle
    rw [OnCycle, step] at cycle
    exact acyclic s cycle
  have bExist : start < b.states.size := by omega
  refine ⟨⟨_, acceptingBelow_enumerates (P := P) closed acyclic exist⟩,
    ⟨_, acceptingBelow_enumerates (P := P) bClosed bAcyclic bExist⟩, ?_⟩
  intro old new oldListed newListed
  rw [oldListed.total closed acyclic all exist, newListed.total bClosed bAcyclic bAll bExist, size,
    same]

end Kept

theorem Pushable.total_kept [Lawful P] [LeftDistributive P] [RightDistributive P] [Tested P]
    [inverting : Inverting P] [direction.Absorbs P]
    (pushable : Pushable P direction potentials a start)
    (reported : (properties W).contains direction.required = true) :
    KeepsTotal direction potentials a start := by
  obtain ⟨closed, acyclic, begins, all, members, distances⟩ := pushable
  have exist : start < a.states.size := closed.start start begins
  have score : P (Potential.get potentials start) := get_mem members start
  have movedAll := moveWeights_all direction members all
  have movedClosed := moveWeights_closed direction potentials closed
  obtain ⟨b, reweighted, outcome⟩ := reweight_outcome potentials reported closed begins
  refine ⟨b, start, reweighted, ?_⟩
  cases outcome with
  | kept plain =>
    refine ⟨begins, .of_total closed acyclic all exist movedClosed moveWeights_step movedAll
      moveWeights_size ?_⟩
    cases direction with
    | toInitial =>
      obtain ⟨before, after⟩ := total_toInitial distances closed acyclic all members exist
      rw [before, after]
      rcases (Tested.plain_iff score).mp plain with none | unit
      · rw [none, Lawful.times_zero (P := P) (inverting.inverse_mem Lawful.zero_mem)]
      · rw [unit, inverse_one P, Lawful.one_times (P := P) Lawful.one_mem]
    | toFinal => exact total_toFinal distances closed acyclic all members exist
  | folded _ one _ =>
    cases direction with
    | toInitial =>
      obtain ⟨before, after⟩ := total_toInitial distances closed acyclic all members exist
      refine ⟨begins, .of_total closed acyclic all exist (foldStart_closed _ _ movedClosed)
        (foldStart_step.trans moveWeights_step) (foldStart_all start score movedAll)
        (by simp) ?_⟩
      have movedAcyclic : ¬ (a.moveWeights .toInitial potentials).OnCycle start :=
        fun cycle => acyclic start (moveWeights_onCycle.mp cycle)
      have inverseMember := inverting.inverse_mem score
      rw [startFactor, foldStart_total movedAll score (by simpa using exist) movedAcyclic, before,
        after, ← Lawful.times_assoc score inverseMember score, inverting.regular score]
    | toFinal =>
      have startOne := DistancesFromStart.start_one distances closed acyclic all members exist
      rw [startOne, (Tested.isOne_iff (P := P) Lawful.one_mem).mpr rfl] at one
      cases one
  | prepended _ _ cyclic => exact absurd cyclic (acyclic start)

-- Pushing with distances keeps what all accepting paths weigh together, with weights
-- that divide and just as well with the powers of them, whose tuples divide at some
-- coordinates only.
theorem reweight_total [LawfulBEq W] [Lawful P] [LeftDistributive P] [RightDistributive P]
    [Tested P] [Direction.toInitial.DividesOut P] [Direction.toFinal.DividesOut P]
    (reported : (properties W).contains direction.required = true) :
    (∀ potentials (a : Automaton W) start, Pushable P direction potentials a start →
      KeepsTotal direction potentials a start) ∧
    ∀ width potentials (a : Automaton (SparseTuple W width)) start,
      Pushable (SparseTuple.Over P) direction potentials a start →
        KeepsTotal direction potentials a start := by
  cases direction with
  | toInitial =>
    exact ⟨fun _ _ _ pushable => pushable.total_kept reported,
      fun _ _ _ _ pushable => pushable.total_kept (SparseTuple.contains_required _ reported)⟩
  | toFinal =>
    exact ⟨fun _ _ _ pushable => pushable.total_kept reported,
      fun _ _ _ _ pushable => pushable.total_kept (SparseTuple.contains_required _ reported)⟩

def branching : Automaton (SparseTuple (Tropical Exact) .bits8) where
  states := #[
    ⟨⟨Tropical.cost none, []⟩,
      #[⟨1, 1, ⟨Tropical.cost none, [(⟨1, by decide, by decide⟩, Tropical.cost (some 1))]⟩, 1⟩,
        ⟨3, 3, ⟨Tropical.cost none, [(⟨1, by decide, by decide⟩, Tropical.cost (some 5)),
          (⟨2, by decide, by decide⟩, Tropical.cost (some 1))]⟩, 2⟩]⟩,
    ⟨⟨Tropical.cost none, []⟩,
      #[⟨2, 2, ⟨Tropical.cost none, [(⟨1, by decide, by decide⟩, Tropical.cost (some 2))]⟩, 2⟩]⟩,
    ⟨⟨Tropical.cost none, [(⟨1, by decide, by decide⟩, Tropical.cost (some 0)),
      (⟨2, by decide, by decide⟩, Tropical.cost (some 0))]⟩, #[]⟩]
  start := some 0

def branchingDistances : Array (SparseTuple (Tropical Exact) .bits8) :=
  #[⟨Tropical.cost none, [(⟨1, by decide, by decide⟩, Tropical.cost (some 3)),
      (⟨2, by decide, by decide⟩, Tropical.cost (some 1))]⟩,
    ⟨Tropical.cost none, [(⟨1, by decide, by decide⟩, Tropical.cost (some 2))]⟩,
    ⟨Tropical.cost none, [(⟨1, by decide, by decide⟩, Tropical.cost (some 0)),
      (⟨2, by decide, by decide⟩, Tropical.cost (some 0))]⟩]

theorem branching_acyclic : branching.Acyclic := by
  apply acyclic_of_upward
  intro s t step
  obtain ⟨i, arc, found, rfl⟩ := step
  have upward : ∀ s < 3, ∀ arc ∈ branching.leaving s, s < arc.target := by decide
  exact upward s (arc?_source found) arc (mem_leaving.mpr ⟨i, found⟩)

theorem branching_total :
    (properties (Tropical Exact)).contains Direction.toInitial.required = true ∧
      Pushable (SparseTuple.Over Member) .toInitial branchingDistances branching 0 ∧
      KeepsTotal .toInitial branchingDistances branching 0 := by
  have reported : (properties (Tropical Exact)).contains Direction.toInitial.required = true := rfl
  have distances : DistancesToFinal branchingDistances branching := by
    unfold DistancesToFinal
    decide +kernel
  have pushable : Pushable (SparseTuple.Over Member) .toInitial branchingDistances branching 0 :=
    ⟨by decide, branching_acyclic, rfl, by decide, by decide, distances⟩
  exact ⟨reported, pushable,
    (reweight_total reported).2 .bits8 branchingDistances branching 0 pushable⟩

end Automaton
end WeightedAutomata
