import WeightedAutomata.Proofs.Reweight.PathWeight
import WeightedAutomata.Proofs.Weight.Tropical

namespace WeightedAutomata.Automaton
open Weight
variable {W : Type} [Weight W] {P : W → Prop} {direction : Direction} {potentials : Array W}
  {a b : Automaton W} {start t : Nat} {path : Path} {arcs : List (Arc W)}

-- The path behind a new start `t` that corresponds to a path from `start`: the only
-- arc of a new start comes first.
def lifted (start t : Nat) (path : Path) : Path :=
  if t = start then path else 0 :: path

-- How the paths of a reweighted automaton from its start `t` go with those of `a`
-- from `start`. A path with a potential of zero on it weighs zero, and every other
-- one weighs what it did.
structure PathLaw (potentials : Array W) (a : Automaton W) (start : Nat) (b : Automaton W)
    (t : Nat) : Prop where
  begins : t = start ∨ t = a.states.size
  lifts : ∀ path arcs, a.walk? start path = some arcs →
    ∃ moved weight, b.walk? t (lifted start t path) = some moved ∧
      moved.map Arc.shape =
        (if t = start then [] else [(epsilon, epsilon, start)]) ++ arcs.map Arc.shape ∧
      a.weigh start arcs = some weight ∧
      ((∀ q ∈ visited start arcs, Potential.get potentials q ≠ zero) →
        b.weigh t moved = some weight) ∧
      ((∃ q ∈ visited start arcs, Potential.get potentials q = zero) →
        b.weigh t moved = some zero)
  lifted_only : ∀ path, (b.walk? t path).isSome = true →
    (∃ old, (a.walk? start old).isSome = true ∧ path = lifted start t old) ∨
      (t ≠ start ∧ path = [] ∧ b.weigh t [] = some zero)

theorem moveWeights_walk? (direction : Direction) (potentials : Array W) (closed : a.Closed)
    (exist : start < a.states.size) (path : Path) :
    (a.moveWeights direction potentials).walk? start path =
      (a.walk? start path).map (relabel (movedWeight direction potentials) start) :=
  walk?_relabel closed exist fun _ _ _ => moveWeights_arc?

theorem kept_pathLaw [Lawful P] [Tested P] [direction.DividesOut P] (closed : a.Closed)
    (all : a.All P) (members : ∀ v ∈ potentials, P v) (exist : start < a.states.size)
    (plain : isZero (Potential.get potentials start) = true ∨
      isOne (Potential.get potentials start) = true) :
    PathLaw potentials a start (a.moveWeights direction potentials) start := by
  have paths := moveWeights_walk? direction potentials closed exist
  refine ⟨.inl rfl, ?_, ?_⟩
  · intro path arcs walked
    obtain ⟨x, y, weighs, movedWeighs, facts⟩ :=
      moveWeights_moved direction closed all members exist walked
    refine ⟨relabel (movedWeight direction potentials) start arcs, x, ?_, ?_, weighs, ?_, ?_⟩
    · rw [lifted, if_pos rfl, paths, walked, Option.map_some]
    · rw [relabel_shape, if_pos rfl, List.nil_append]
    · intro nonzero
      have one : Potential.get potentials start = Weight.one := by
        rcases plain with isZero | isOne
        · exact absurd ((Tested.isZero_iff (get_mem members start)).mp isZero)
            (nonzero start (by simp [visited]))
        · exact (Tested.isOne_iff (get_mem members start)).mp isOne
      have kept := facts.kept nonzero
      rw [one, startFactor_one (P := P), Lawful.one_times facts.after] at kept
      rw [movedWeighs, kept]
    · intro zero
      rw [movedWeighs, facts.killed zero]
  · intro path walks
    refine .inl ⟨path, ?_, by rw [lifted, if_pos rfl]⟩
    simpa [paths] using walks

def foldedWeight (direction : Direction) (potentials : Array W) (start s : Nat) (arc : Arc W) : W :=
  if start = s then
    times (startFactor direction (Potential.get potentials start))
      (movedWeight direction potentials s arc)
  else movedWeight direction potentials s arc

theorem folded_arc? {s i : Nat} :
    ((a.moveWeights direction potentials).foldStart
        (startFactor direction (Potential.get potentials start)) start).arc? s i =
      (a.arc? s i).map fun arc =>
        { arc with weight := foldedWeight direction potentials start s arc } := by
  rw [foldStart_arc?, moveWeights_arc?, Option.map_map]
  rfl

-- A path from a start that no cycle passes takes the factor once, with its first arc
-- or with its final weight.
theorem folded_weigh [Lawful P] [direction.DividesOut P] (closed : a.Closed) (all : a.All P)
    (members : ∀ v ∈ potentials, P v) (acyclic : ¬ a.OnCycle start)
    (walked : a.walk? start path = some arcs) {y : W}
    (movedWeighs : (a.moveWeights direction potentials).weigh start
      (relabel (movedWeight direction potentials) start arcs) = some y) :
    ((a.moveWeights direction potentials).foldStart
        (startFactor direction (Potential.get potentials start)) start).weigh start
      (relabel (foldedWeight direction potentials start) start arcs) =
      some (times (startFactor direction (Potential.get potentials start)) y) := by
  have factor : P (startFactor direction (Potential.get potentials start)) :=
    startFactor_mem direction (get_mem members start)
  cases path with
  | nil =>
    cases walked
    simp only [relabel, weigh] at movedWeighs ⊢
    obtain ⟨state, found, rfl⟩ := Option.map_eq_some_iff.mp movedWeighs
    simp [foldStart_state, found, scaleState]
  | cons i path =>
    obtain ⟨arc, rest, found, onward, rfl⟩ := walk?_cons.mp walked
    obtain ⟨x, z, -, restWeighs, facts⟩ :=
      moveWeights_moved direction closed all members (arc?_target closed found) onward
    have away : ∀ q ∈ visited arc.target rest, start ≠ q := by
      rintro q present rfl
      exact acyclic (onCycle_of_return walked present)
    have sameArcs : relabel (foldedWeight direction potentials start) arc.target rest =
        relabel (movedWeight direction potentials) arc.target rest :=
      relabel_congr fun q present => by
        funext arc
        rw [foldedWeight, if_neg (away q present)]
    have sameWeight : ((a.moveWeights direction potentials).foldStart
          (startFactor direction (Potential.get potentials start)) start).weigh arc.target
            (relabel (movedWeight direction potentials) arc.target rest) =
        (a.moveWeights direction potentials).weigh arc.target
          (relabel (movedWeight direction potentials) arc.target rest) := by
      apply weigh_congr
      intro q present
      rw [relabel_visited] at present
      rw [foldStart_state, if_neg (away q present)]
    have movedMember : P (movedWeight direction potentials start arc) :=
      movedWeight_mem members all found
    simp only [relabel, weigh, restWeighs, Option.map_some, Option.some.injEq] at movedWeighs
    simp only [relabel, weigh, sameArcs, sameWeight, restWeighs, Option.map_some, foldedWeight,
      if_true, ← movedWeighs]
    rw [Lawful.times_assoc factor movedMember facts.after]

theorem Moved.restored [Lawful P] [direction.DividesOut P] (members : ∀ v ∈ potentials, P v)
    {x y : W} (facts : Moved direction potentials P start arcs x y) :
    ((∀ q ∈ visited start arcs, Potential.get potentials q ≠ zero) →
      times (startFactor direction (Potential.get potentials start)) y = x) ∧
      ((∃ q ∈ visited start arcs, Potential.get potentials q = zero) →
        times (startFactor direction (Potential.get potentials start)) y = zero) := by
  refine ⟨facts.kept, fun zero => ?_⟩
  rw [facts.killed zero]
  exact Lawful.times_zero (startFactor_mem direction (get_mem members start))

theorem folded_pathLaw [Lawful P] [direction.DividesOut P] (closed : a.Closed) (all : a.All P)
    (members : ∀ v ∈ potentials, P v) (exist : start < a.states.size)
    (acyclic : ¬ a.OnCycle start) :
    PathLaw potentials a start
      ((a.moveWeights direction potentials).foldStart
        (startFactor direction (Potential.get potentials start)) start) start := by
  have paths : ∀ path, ((a.moveWeights direction potentials).foldStart
        (startFactor direction (Potential.get potentials start)) start).walk? start path =
      (a.walk? start path).map (relabel (foldedWeight direction potentials start) start) :=
    fun path => walk?_relabel closed exist fun q _ i => folded_arc?
  refine ⟨.inl rfl, ?_, ?_⟩
  · intro path arcs walked
    obtain ⟨x, y, weighs, movedWeighs, facts⟩ :=
      moveWeights_moved direction closed all members exist walked
    have result := folded_weigh closed all members acyclic walked movedWeighs
    obtain ⟨kept, killed⟩ := facts.restored members
    refine ⟨relabel (foldedWeight direction potentials start) start arcs, x, ?_, ?_, weighs, ?_, ?_⟩
    · rw [lifted, if_pos rfl, paths, walked, Option.map_some]
    · rw [relabel_shape, if_pos rfl, List.nil_append]
    · intro nonzero
      rw [result, kept nonzero]
    · intro zero
      rw [result, killed zero]
  · intro path walks
    refine .inl ⟨path, ?_, by rw [lifted, if_pos rfl]⟩
    simpa [paths] using walks

theorem prepended_pathLaw [Lawful P] [direction.DividesOut P] (closed : a.Closed) (all : a.All P)
    (members : ∀ v ∈ potentials, P v) (exist : start < a.states.size) :
    PathLaw potentials a start
      ((a.moveWeights direction potentials).prependStart
        (startFactor direction (Potential.get potentials start)) start) a.states.size := by
  have other : a.states.size ≠ start := Nat.ne_of_gt exist
  have movedClosed := moveWeights_closed direction potentials closed
  have movedExist : start < (a.moveWeights direction potentials).states.size := by
    simpa using exist
  have movedPaths := moveWeights_walk? direction potentials closed exist
  have paths : ∀ path, ((a.moveWeights direction potentials).prependStart
        (startFactor direction (Potential.get potentials start)) start).walk? start path =
      (a.walk? start path).map (relabel (movedWeight direction potentials) start) := by
    intro path
    rw [prependStart_walk? movedClosed movedExist, movedPaths]
  have entry : ∀ i, ((a.moveWeights direction potentials).prependStart
        (startFactor direction (Potential.get potentials start)) start).arc? a.states.size i =
      if i = 0 then some ⟨epsilon, epsilon,
        startFactor direction (Potential.get potentials start), start⟩ else none := by
    intro i
    rw [← moveWeights_size]
    exact prependStart_epsilon
  refine ⟨.inr rfl, ?_, ?_⟩
  · intro path arcs walked
    obtain ⟨x, y, weighs, movedWeighs, facts⟩ :=
      moveWeights_moved direction closed all members exist walked
    have movedWalk : (a.moveWeights direction potentials).walk? start path =
        some (relabel (movedWeight direction potentials) start arcs) := by
      rw [movedPaths, walked, Option.map_some]
    obtain ⟨kept, killed⟩ := facts.restored members
    refine ⟨⟨epsilon, epsilon, startFactor direction (Potential.get potentials start), start⟩ ::
      relabel (movedWeight direction potentials) start arcs, x, ?_, ?_, weighs, ?_, ?_⟩
    · rw [lifted, if_neg other, walk?_cons]
      exact ⟨_, _, by rw [entry, if_pos rfl], by rw [paths, walked, Option.map_some], rfl⟩
    · rw [List.map_cons, relabel_shape, if_neg other]
      rfl
    · intro nonzero
      rw [weigh, prependStart_weigh movedClosed movedExist movedWalk, movedWeighs,
        Option.map_some, kept nonzero]
    · intro zero
      rw [weigh, prependStart_weigh movedClosed movedExist movedWalk, movedWeighs,
        Option.map_some, killed zero]
  · intro path walks
    obtain ⟨moved, walked⟩ := Option.isSome_iff_exists.mp walks
    cases path with
    | nil =>
      refine .inr ⟨other, rfl, ?_⟩
      rw [weigh, ← moveWeights_size, prependStart_last, Option.map_some]
    | cons i path =>
      obtain ⟨arc, rest, found, onward, -⟩ := walk?_cons.mp walked
      rw [entry] at found
      split at found
      · rename_i first
        cases Option.some.inj found
        rw [paths] at onward
        obtain ⟨arcs, oldWalk, -⟩ := Option.map_eq_some_iff.mp onward
        refine .inl ⟨path, by rw [oldWalk]; rfl, ?_⟩
        rw [lifted, if_neg other, first]
      · cases found

theorem reweight_pathLaw [Lawful (Member (W := W))] [Tested (Member (W := W))]
    [direction.DividesOut (Member (W := W))]
    (reported : (properties W).contains direction.required = true) (closed : a.Closed)
    (begins : a.start = some start) (all : a.All Member) (members : ∀ v ∈ potentials, Member v) :
    ∃ b t, a.reweight direction potentials = .ok b ∧ b.start = some t ∧
      PathLaw potentials a start b t := by
  have exist : start < a.states.size := closed.start start begins
  obtain ⟨b, reweighted, outcome⟩ := reweight_outcome potentials reported closed begins
  cases outcome with
  | kept plain => exact ⟨_, start, reweighted, begins, kept_pathLaw closed all members exist plain⟩
  | folded zero one acyclic =>
    exact ⟨_, start, reweighted, begins, folded_pathLaw closed all members exist acyclic⟩
  | prepended zero one cyclic =>
    refine ⟨_, a.states.size, reweighted, ?_, prepended_pathLaw closed all members exist⟩
    simp [prependStart]

def looped : Automaton (Tropical Exact) where
  states := #[
    ⟨Tropical.cost none, #[⟨1, 1, Tropical.cost (some 1), 1⟩, ⟨2, 2, Tropical.cost (some 4), 2⟩]⟩,
    ⟨Tropical.cost none, #[⟨3, 3, Tropical.cost (some 2), 0⟩]⟩,
    ⟨Tropical.cost (some (1 / 2)), #[]⟩]
  start := some 0

theorem looped_pathLaw :
    (properties (Tropical Exact)).contains Direction.toFinal.required = true ∧ looped.Closed ∧
      looped.start = some 0 ∧ looped.All Member ∧
      (∀ v ∈ #[Tropical.cost (some 3), Tropical.cost none, Tropical.cost (some 5)], Member v) ∧
      ∃ b t, looped.reweight .toFinal
          #[Tropical.cost (some 3), Tropical.cost none, Tropical.cost (some 5)] = .ok b ∧
        b.start = some t ∧
        PathLaw #[Tropical.cost (some 3), Tropical.cost none, Tropical.cost (some 5)]
          looped 0 b t := by
  have reported : (properties (Tropical Exact)).contains Direction.toFinal.required = true := rfl
  have closed : looped.Closed := by decide
  have all : looped.All Member := by decide
  have members : ∀ v ∈ #[Tropical.cost (some 3), Tropical.cost none, Tropical.cost (some 5)],
      Member v := by decide
  exact ⟨reported, closed, rfl, all, members, reweight_pathLaw reported closed rfl all members⟩

end WeightedAutomata.Automaton
