import WeightedAutomata.Proofs.Reweight.Members

namespace WeightedAutomata.Automaton
open Weight
variable {W : Type} [Weight W] {P : W → Prop} {direction : Direction} {potentials : Array W}
  {a : Automaton W} {s : Nat} {path : Path} {arcs : List (Arc W)}

-- What moving does to one path, before the start's potential is put back: `x` is what
-- the path weighs and `y` what it weighs afterwards.
structure Moved (direction : Direction) (potentials : Array W) (P : W → Prop) (s : Nat)
    (arcs : List (Arc W)) (x y : W) : Prop where
  before : P x
  after : P y
  kept : (∀ q ∈ visited s arcs, Potential.get potentials q ≠ zero) →
    times (startFactor direction (Potential.get potentials s)) y = x
  killed : (∃ q ∈ visited s arcs, Potential.get potentials q = zero) → y = zero

section ToInitial
variable [Lawful P] [divides : Direction.toInitial.DividesOut P]

omit [Lawful P] in
theorem toInitial_final {v weight : W} (source : P v) (member : P weight) :
    (v ≠ zero → times v (reweightFinal .toInitial v weight) = weight) ∧
      (v = zero → reweightFinal .toInitial v weight = zero) := by
  refine ⟨Direction.rejoin_divideOrZero .toInitial member source, ?_⟩
  rintro rfl
  exact divides.divideOrZero_zero member

theorem toInitial_arc {v next weight x y : W} (source : P v) (target : P next) (member : P weight)
    (after : P y) (kept : times next y = x) (nonzero : v ≠ zero) :
    times v (times (reweightArc .toInitial v next weight) y) = times weight x := by
  have dividend : P (times weight next) := Lawful.times_mem member target
  have cancelled : times v (divideOrZero .left (times weight next) v) = times weight next :=
    Direction.rejoin_divideOrZero .toInitial dividend source nonzero
  calc times v (times (reweightArc .toInitial v next weight) y)
      = times (times v (divideOrZero .left (times weight next) v)) y :=
        (Lawful.times_assoc source (Direction.divideOrZero_mem .toInitial dividend source) after).symm
    _ = times (times weight next) y := by rw [cancelled]
    _ = times weight (times next y) := Lawful.times_assoc member target after
    _ = times weight x := by rw [kept]

theorem toInitial_moved (closed : a.Closed) (all : a.All P) (members : ∀ v ∈ potentials, P v)
    (exist : s < a.states.size) (walked : a.walk? s path = some arcs) :
    ∃ x y, a.weigh s arcs = some x ∧
      (a.moveWeights .toInitial potentials).weigh s
        (relabel (movedWeight .toInitial potentials) s arcs) = some y ∧
      Moved .toInitial potentials P s arcs x y := by
  induction path generalizing s arcs with
  | nil =>
    cases walked
    have found := Array.getElem?_eq_getElem exist
    have member := all.final _ (Array.getElem_mem exist)
    obtain ⟨kept, killed⟩ := toInitial_final (get_mem members s) member
    refine ⟨_, reweightFinal .toInitial (Potential.get potentials s) a.states[s].finalWeight,
      by simp only [weigh, found, Option.map_some], ?_, member, ?_, ?_, ?_⟩
    · simp only [relabel, weigh, moveWeights_state, found, Option.map_some, reweightState]
    · exact reweightFinal_mem (get_mem members s) member
    · intro nonzero
      exact kept (nonzero s (by simp [visited]))
    · rintro ⟨q, present, zero⟩
      cases List.mem_singleton.mp present
      exact killed zero
  | cons i path ih =>
    obtain ⟨arc, rest, found, onward, rfl⟩ := walk?_cons.mp walked
    obtain ⟨x, y, weighs, movedWeighs, facts⟩ := ih (arc?_target closed found) onward
    have member := all.weight found
    have movedMember : P (movedWeight .toInitial potentials s arc) :=
      movedWeight_mem members all found
    refine ⟨times arc.weight x, times (movedWeight .toInitial potentials s arc) y,
      by simp [weigh, weighs], by simp [relabel, weigh, movedWeighs],
      Lawful.times_mem member facts.before, Lawful.times_mem movedMember facts.after, ?_, ?_⟩
    · intro nonzero
      exact toInitial_arc (get_mem members s) (get_mem members arc.target) member facts.after
        (facts.kept fun q present => nonzero q (List.mem_cons_of_mem _ present))
        (nonzero s (by simp [visited]))
    · rintro ⟨q, present, zero⟩
      rcases List.mem_cons.mp present with rfl | later
      · have absorbed : movedWeight .toInitial potentials q arc = Weight.zero := by
          rw [movedWeight, zero]
          exact divides.divideOrZero_zero (Lawful.times_mem member (get_mem members arc.target))
        rw [absorbed, Lawful.zero_times facts.after]
      · rw [facts.killed ⟨q, later, zero⟩, Lawful.times_zero movedMember]

end ToInitial

section ToFinal
variable [Lawful P] [divides : Direction.toFinal.DividesOut P]

-- Toward the final states the potential of the first state is still in front.
structure Pushed (potentials : Array W) (P : W → Prop) (s : Nat) (arcs : List (Arc W))
    (x y : W) : Prop where
  before : P x
  after : P y
  kept : (∀ q ∈ arcs.map Arc.target, Potential.get potentials q ≠ zero) →
    y = times (Potential.get potentials s) x
  killed : (∃ q ∈ arcs.map Arc.target, Potential.get potentials q = zero) → y = zero

theorem toFinal_arc {v next weight x : W} (source : P v) (target : P next) (member : P weight)
    (before : P x) (nonzero : next ≠ zero) :
    times (reweightArc .toFinal v next weight) (times next x) = times v (times weight x) := by
  have dividend : P (times v weight) := Lawful.times_mem source member
  have cancelled : times (divideOrZero .right (times v weight) next) next = times v weight :=
    Direction.rejoin_divideOrZero .toFinal dividend target nonzero
  calc times (reweightArc .toFinal v next weight) (times next x)
      = times (times (divideOrZero .right (times v weight) next) next) x :=
        (Lawful.times_assoc (Direction.divideOrZero_mem .toFinal dividend target) target before).symm
    _ = times (times v weight) x := by rw [cancelled]
    _ = times v (times weight x) := Lawful.times_assoc source member before

theorem toFinal_pushed (closed : a.Closed) (all : a.All P) (members : ∀ v ∈ potentials, P v)
    (exist : s < a.states.size) (walked : a.walk? s path = some arcs) :
    ∃ x y, a.weigh s arcs = some x ∧
      (a.moveWeights .toFinal potentials).weigh s
        (relabel (movedWeight .toFinal potentials) s arcs) = some y ∧
      Pushed potentials P s arcs x y := by
  induction path generalizing s arcs with
  | nil =>
    cases walked
    have found := Array.getElem?_eq_getElem exist
    have member := all.final _ (Array.getElem_mem exist)
    refine ⟨_, reweightFinal .toFinal (Potential.get potentials s) a.states[s].finalWeight,
      by simp only [weigh, found, Option.map_some], ?_, member, ?_, fun _ => rfl, by simp⟩
    · simp only [relabel, weigh, moveWeights_state, found, Option.map_some, reweightState]
    · exact reweightFinal_mem (get_mem members s) member
  | cons i path ih =>
    obtain ⟨arc, rest, found, onward, rfl⟩ := walk?_cons.mp walked
    obtain ⟨x, y, weighs, movedWeighs, facts⟩ := ih (arc?_target closed found) onward
    have member := all.weight found
    have movedMember : P (movedWeight .toFinal potentials s arc) :=
      movedWeight_mem members all found
    refine ⟨times arc.weight x, times (movedWeight .toFinal potentials s arc) y,
      by simp [weigh, weighs], by simp [relabel, weigh, movedWeighs],
      Lawful.times_mem member facts.before, Lawful.times_mem movedMember facts.after, ?_, ?_⟩
    · intro nonzero
      rw [facts.kept fun q present => nonzero q (List.mem_cons_of_mem _ present)]
      exact toFinal_arc (get_mem members s) (get_mem members arc.target) member facts.before
        (nonzero arc.target (by simp))
    · rintro ⟨q, present, zero⟩
      rcases List.mem_cons.mp present with rfl | later
      · have absorbed : movedWeight .toFinal potentials s arc = Weight.zero := by
          rw [movedWeight, zero]
          exact divides.divideOrZero_zero (Lawful.times_mem (get_mem members s) member)
        rw [absorbed, Lawful.zero_times facts.after]
      · rw [facts.killed ⟨q, later, zero⟩, Lawful.times_zero movedMember]

theorem Pushed.moved {x y : W} (members : ∀ v ∈ potentials, P v)
    (facts : Pushed potentials P s arcs x y) : Moved .toFinal potentials P s arcs x y := by
  have source : P (Potential.get potentials s) := get_mem members s
  refine ⟨facts.before, facts.after, ?_, ?_⟩
  · intro nonzero
    rw [facts.kept fun q present => nonzero q (List.mem_cons_of_mem _ present)]
    have inverse : P (divideOrZero .right one (Potential.get potentials s)) :=
      Direction.divideOrZero_mem .toFinal Lawful.one_mem source
    have cancelled : times (divideOrZero .right one (Potential.get potentials s))
        (Potential.get potentials s) = one :=
      Direction.rejoin_divideOrZero .toFinal Lawful.one_mem source (nonzero s (by simp [visited]))
    change times (divideOrZero .right one (Potential.get potentials s)) _ = x
    rw [← Lawful.times_assoc inverse source facts.before, cancelled, Lawful.one_times facts.before]
  · rintro ⟨q, present, zero⟩
    by_cases later : ∃ q ∈ arcs.map Arc.target, Potential.get potentials q = Weight.zero
    · exact facts.killed later
    · have nonzero : ∀ q ∈ arcs.map Arc.target, Potential.get potentials q ≠ Weight.zero :=
        fun q present zero => later ⟨q, present, zero⟩
      rcases List.mem_cons.mp present with rfl | target
      · rw [facts.kept nonzero, zero, Lawful.zero_times facts.before]
      · exact absurd zero (nonzero q target)

end ToFinal

theorem moveWeights_moved (direction : Direction) [Lawful P] [divides : direction.DividesOut P]
    (closed : a.Closed) (all : a.All P) (members : ∀ v ∈ potentials, P v) (exist : s < a.states.size)
    (walked : a.walk? s path = some arcs) :
    ∃ x y, a.weigh s arcs = some x ∧
      (a.moveWeights direction potentials).weigh s
        (relabel (movedWeight direction potentials) s arcs) = some y ∧
      Moved direction potentials P s arcs x y := by
  cases direction with
  | toInitial => exact toInitial_moved closed all members exist walked
  | toFinal =>
    obtain ⟨x, y, weighs, movedWeighs, facts⟩ := toFinal_pushed closed all members exist walked
    exact ⟨x, y, weighs, movedWeighs, facts.moved members⟩

end WeightedAutomata.Automaton
