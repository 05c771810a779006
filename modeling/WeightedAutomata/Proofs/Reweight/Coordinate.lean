import WeightedAutomata.Proofs.Automaton.Map
import WeightedAutomata.Proofs.Reweight.Members
import WeightedAutomata.Proofs.Tuple.Laws
import WeightedAutomata.Proofs.Weight.Tropical

namespace WeightedAutomata.Automaton
open Weight SparseTuple
variable {W : Type} [Weight W] {P : W → Prop} {width : Width}
  {c : Coordinate width} {direction : Direction} {potentials : Array (SparseTuple W width)}
  {a b : Automaton (SparseTuple W width)} {d : Automaton W} {start s : Nat}
  {v next weight factor : SparseTuple W width}

theorem get_part (c : Coordinate width) (potentials : Array (SparseTuple W width)) (s : Nat) :
    Potential.get (potentials.map (part c)) s = part c (Potential.get potentials s) := by
  unfold Potential.get
  cases found : potentials[s]? with
  | none => simp [found, part_zero]
  | some v => simp [found]

theorem parts_mem (members : ∀ v ∈ potentials, v.Over P) (c : Coordinate width) :
    ∀ v ∈ potentials.map (part c), P v := by
  intro v present
  obtain ⟨tuple, stored, rfl⟩ := Array.mem_map.mp present
  exact (members tuple stored).part c

theorem prependStart_part : (a.prependStart factor start).mapWeights (part c) =
    (a.mapWeights (part c)).prependStart (factor.part c) start := by
  simp [prependStart, mapWeights, State.mapWeights, Arc.mapWeight, part_zero]

variable [LawfulBEq W]

section Weights
variable [absorbs : direction.Absorbs P]

theorem reweightFinal_part (source : v.Over P) (member : weight.Over P) (c : Coordinate width) :
    (reweightFinal direction v weight).part c =
      reweightFinal direction (v.part c) (weight.part c) := by
  cases direction with
  | toInitial =>
    unfold reweightFinal
    rw [member.part_divideOrZero _ source]
  | toFinal =>
    unfold reweightFinal
    rw [source.part_times member]

variable [Lawful P]

theorem reweightArc_part (source : v.Over P) (target : next.Over P) (member : weight.Over P)
    (c : Coordinate width) : (reweightArc direction v next weight).part c =
      reweightArc direction (v.part c) (next.part c) (weight.part c) := by
  cases direction with
  | toInitial =>
    unfold reweightArc
    rw [(member.times target).part_divideOrZero _ source, member.part_times target]
  | toFinal =>
    unfold reweightArc
    rw [(source.times member).part_divideOrZero _ target, source.part_times member]

theorem startFactor_part (member : v.Over P) (c : Coordinate width) :
    (startFactor direction v).part c = startFactor direction (v.part c) := by
  have unit : (one : SparseTuple W width).Over P := one_over
  cases direction with
  | toInitial => rfl
  | toFinal =>
    unfold startFactor
    rw [unit.part_divideOrZero _ member, part_one]

theorem reweightState_part {state : State (SparseTuple W width)}
    (members : ∀ v ∈ potentials, v.Over P) (final : state.finalWeight.Over P)
    (arcs : ∀ arc ∈ state.arcs, arc.weight.Over P) (c : Coordinate width) :
    (reweightState direction potentials s state).mapWeights (part c) =
      reweightState direction (potentials.map (part c)) s (state.mapWeights (part c)) := by
  simp only [reweightState, State.mapWeights, get_part, Array.map_map, State.mk.injEq]
  refine ⟨reweightFinal_part (get_mem members s) final c, Array.map_congr_left ?_⟩
  intro arc leaves
  simp only [Function.comp_apply, Arc.mapWeight, Arc.mk.injEq, true_and, and_true]
  exact reweightArc_part (get_mem members s) (get_mem members arc.target) (arcs arc leaves) c

theorem moveWeights_part (all : a.All (Over P)) (members : ∀ v ∈ potentials, v.Over P)
    (c : Coordinate width) : (a.moveWeights direction potentials).mapWeights (part c) =
      (a.mapWeights (part c)).moveWeights direction (potentials.map (part c)) := by
  refine ext_states rfl fun s => ?_
  rw [mapWeights_state, moveWeights_state, moveWeights_state, mapWeights_state]
  cases found : a.states[s]? with
  | none => rfl
  | some state =>
    have present := Array.mem_of_getElem? found
    simp only [Option.map_some, Option.some.injEq]
    exact reweightState_part members (all.final state present) (all.arcs state present) c

end Weights

theorem scaleState_part {state : State (SparseTuple W width)} (member : factor.Over P)
    (final : state.finalWeight.Over P) (arcs : ∀ arc ∈ state.arcs, arc.weight.Over P)
    (c : Coordinate width) : (scaleState factor state).mapWeights (part c) =
      scaleState (factor.part c) (state.mapWeights (part c)) := by
  simp only [scaleState, State.mapWeights, Array.map_map, State.mk.injEq]
  refine ⟨member.part_times final c, Array.map_congr_left ?_⟩
  intro arc leaves
  simp only [Function.comp_apply, Arc.mapWeight, Arc.mk.injEq, true_and, and_true]
  exact member.part_times (arcs arc leaves) c

theorem foldStart_part (start : Nat) (all : a.All (Over P)) (member : factor.Over P)
    (c : Coordinate width) :
    (a.foldStart factor start).mapWeights (part c) =
      (a.mapWeights (part c)).foldStart (factor.part c) start := by
  refine ext_states rfl fun s => ?_
  rw [mapWeights_state, foldStart_state, foldStart_state, mapWeights_state]
  by_cases here : start = s
  · rw [if_pos here, if_pos here]
    cases found : a.states[s]? with
    | none => rfl
    | some state =>
      have present := Array.mem_of_getElem? found
      simp only [Option.map_some, Option.some.injEq]
      exact scaleState_part member (all.final state present) (all.arcs state present) c
  · rw [if_neg here, if_neg here]

-- How coordinate `c` of a power's result `b` goes with the result `d` of reweighting
-- that coordinate by itself. The power adds a start wherever the coordinate does. It
-- may add one alone, where the coordinate's start potential is zero or one, and the
-- added arc then changes the weight of no path.
structure CoordinateLaw (c : Coordinate width) (potentials : Array (SparseTuple W width))
    (a : Automaton (SparseTuple W width)) (start : Nat) (b : Automaton (SparseTuple W width))
    (d : Automaton W) : Prop where
  power : b.states.size = a.states.size ∨ b.states.size = a.states.size + 1
  scalar : d.states.size = a.states.size ∨ d.states.size = a.states.size + 1
  acyclic : ¬ a.OnCycle start → b.mapWeights (part c) = d
  original : ∀ s < a.states.size, (b.mapWeights (part c)).states[s]? = d.states[s]?
  kept : b.states.size = a.states.size → b.mapWeights (part c) = d
  added : d.states.size = a.states.size + 1 →
    b.states.size = a.states.size + 1 ∧ b.mapWeights (part c) = d
  alone : b.states.size = a.states.size + 1 → d.states.size = a.states.size →
    d.start = some start ∧
      ((Potential.get potentials start).part c = zero ∨
        (Potential.get potentials start).part c = one) ∧
      b.mapWeights (part c) = d.prependStart ((Potential.get potentials start).part c) start ∧
      ∀ path, (b.mapWeights (part c)).pathWeight? a.states.size (0 :: path) =
        d.pathWeight? start path

omit [LawfulBEq W] in
theorem CoordinateLaw.of_eq (same : b.mapWeights (part c) = d)
    (sizes : b.states.size = a.states.size ∨ b.states.size = a.states.size + 1) :
    CoordinateLaw c potentials a start b d := by
  have size : d.states.size = b.states.size := by
    rw [← same, mapWeights_size]
  refine ⟨sizes, by rw [size]; exact sizes, fun _ => same, fun s _ => by rw [same], fun _ => same,
    fun grown => ⟨by rw [← size]; exact grown, same⟩, ?_⟩
  intro grown ungrown
  omega

theorem prepended_coordinate [Lawful P] [direction.Absorbs P] (closed : a.Closed)
    (all : a.All (Over P)) (members : ∀ v ∈ potentials, v.Over P) (exist : start < a.states.size)
    (begins : a.start = some start) (cyclic : a.OnCycle start) (c : Coordinate width)
    (plain : (Potential.get potentials start).part c = zero ∨
      (Potential.get potentials start).part c = one) :
    CoordinateLaw c potentials a start
      ((a.moveWeights direction potentials).prependStart
        (startFactor direction (Potential.get potentials start)) start)
      ((a.mapWeights (part c)).moveWeights direction (potentials.map (part c))) := by
  have member : (Potential.get potentials start).Over P := get_mem members start
  have scalars := parts_mem members c
  have scalarAll : (a.mapWeights (part c)).All P := mapWeights_all (fun inside => inside.part c) all
  have factor : startFactor direction ((Potential.get potentials start).part c) =
      (Potential.get potentials start).part c := by
    rcases plain with none | unit
    · rw [none, startFactor_zero P]
    · rw [unit, startFactor_one P]
  have result : ((a.moveWeights direction potentials).prependStart
        (startFactor direction (Potential.get potentials start)) start).mapWeights (part c) =
      ((a.mapWeights (part c)).moveWeights direction (potentials.map (part c))).prependStart
        ((Potential.get potentials start).part c) start := by
    rw [prependStart_part, moveWeights_part all members, startFactor_part member, factor]
  have scaled := foldStart_plain direction scalarAll scalars (by
      rw [get_part]
      exact plain.imp_left fun none => ⟨none, member.part c⟩)
  refine ⟨.inr (by simp), .inl (by simp), fun acyclic => absurd cyclic acyclic, ?_, ?_, ?_, ?_⟩
  · intro s inside
    rw [result, prependStart_state (by simpa using inside)]
  · intro same
    simp at same
  · intro grown
    simp at grown
  · intro _ _
    refine ⟨begins, plain, result, fun path => ?_⟩
    have first := prependStart_first ((Potential.get potentials start).part c)
      (moveWeights_closed direction (potentials.map (part c)) (mapWeights_closed (part c) closed))
      (by simpa using exist) path
    rw [moveWeights_size, mapWeights_size] at first
    rw [result, first]
    have moved := moveWeights_all direction scalars scalarAll
    exact pathWeight?_of_foldStart moved (member.part c) scaled path

theorem Outcome.coordinate [Lawful P] [Tested P] [direction.Absorbs P] (closed : a.Closed)
    (all : a.All (Over P)) (members : ∀ v ∈ potentials, v.Over P) (exist : start < a.states.size)
    (begins : a.start = some start) (power : Outcome direction potentials start a b)
    (scalar : Outcome direction (potentials.map (part c)) start (a.mapWeights (part c)) d) :
    CoordinateLaw c potentials a start b d := by
  have member : (Potential.get potentials start).Over P := get_mem members start
  have scalars := parts_mem members c
  have scalarAll : (a.mapWeights (part c)).All P := mapWeights_all (fun inside => inside.part c) all
  have mixed : ∀ {x : W}, P x → isZero x = false → isOne x = false → ¬ (x = zero ∨ x = one) := by
    intro x xMember none unit plain
    rcases (Tested.plain_iff xMember).mpr plain with isZero | isOne
    · simp [none] at isZero
    · simp [unit] at isOne
  cases power with
  | kept plain =>
    have coordinatePlain : (Potential.get potentials start).part c = zero ∨
        (Potential.get potentials start).part c = one := by
      rcases (Tested.plain_iff member).mp plain with none | unit
      · exact .inl (by rw [none, part_zero])
      · exact .inr (by rw [unit, part_one])
    cases scalar with
    | kept _ => exact .of_eq (moveWeights_part all members c) (.inl (by simp))
    | folded none unit _ =>
      rw [get_part] at none unit
      exact absurd coordinatePlain (mixed (member.part c) none unit)
    | prepended none unit _ =>
      rw [get_part] at none unit
      exact absurd coordinatePlain (mixed (member.part c) none unit)
  | folded none unit acyclic =>
    have result := foldStart_part start (moveWeights_all direction members all)
      (startFactor_mem direction member) c
    rw [moveWeights_part all members, startFactor_part member, ← get_part] at result
    cases scalar with
    | kept plain =>
      refine .of_eq (result.trans (foldStart_plain direction scalarAll scalars ?_)) (.inl (by simp))
      rcases (Tested.plain_iff (get_mem scalars start)).mp plain with none | unit
      · exact .inl ⟨none, startFactor_mem direction (get_mem scalars start)⟩
      · exact .inr (by rw [unit, startFactor_one P])
    | folded _ _ _ => exact .of_eq result (.inl (by simp))
    | prepended _ _ cyclic => exact absurd (mapWeights_onCycle.mp cyclic) acyclic
  | prepended none unit cyclic =>
    cases scalar with
    | kept plain =>
      have coordinatePlain := (Tested.plain_iff (get_mem scalars start)).mp plain
      rw [get_part] at coordinatePlain
      exact prepended_coordinate closed all members exist begins cyclic c coordinatePlain
    | folded _ _ acyclic => exact absurd (mapWeights_onCycle.mpr cyclic) acyclic
    | prepended _ _ _ =>
      refine .of_eq ?_ (.inr (by simp))
      rw [prependStart_part, moveWeights_part all members, startFactor_part member, get_part]

theorem reweight_coordinate [Lawful P] [Tested P] [direction.Absorbs P]
    (reported : (properties W).contains direction.required = true) (closed : a.Closed)
    (begins : a.start = some start) (all : a.All (Over P))
    (members : ∀ v ∈ potentials, v.Over P) :
    ∃ b, a.reweight direction potentials = .ok b ∧ ∀ c : Coordinate width, ∃ d,
      (a.mapWeights (part c)).reweight direction (potentials.map (part c)) = .ok d ∧
        CoordinateLaw c potentials a start b d := by
  obtain ⟨b, reweighted, power⟩ :=
    reweight_outcome potentials (contains_required direction reported) closed begins
  refine ⟨b, reweighted, fun c => ?_⟩
  obtain ⟨d, scalarReweighted, scalar⟩ := reweight_outcome (potentials.map (part c)) reported
    (mapWeights_closed (part c) closed) begins
  exact ⟨d, scalarReweighted,
    power.coordinate closed all members (closed.start start begins) begins scalar⟩

-- Two states on a loop over tuples that differ at the key 7 alone.
def turning : Automaton (SparseTuple (Tropical Exact) .bits8) where
  states := #[
    ⟨⟨Tropical.cost none, []⟩,
      #[⟨1, 1, ⟨Tropical.cost (some 1), [(⟨7, by decide, by decide⟩, Tropical.cost (some 2))]⟩, 1⟩]⟩,
    ⟨⟨Tropical.cost (some 0), []⟩, #[⟨2, 2, ⟨Tropical.cost none, []⟩, 0⟩]⟩]
  start := some 0

-- The start's potential is zero at every other key.
def turningPotentials : Array (SparseTuple (Tropical Exact) .bits8) :=
  #[⟨Tropical.cost none, [(⟨7, by decide, by decide⟩, Tropical.cost (some 3))]⟩,
    ⟨Tropical.cost (some 0), []⟩]

theorem turning_coordinate :
    (properties (Tropical Exact)).contains Direction.toInitial.required = true ∧ turning.Closed ∧
      turning.start = some 0 ∧ turning.All (Over Member) ∧
      (∀ v ∈ turningPotentials, v.Over Member) ∧
      ∃ b, turning.reweight .toInitial turningPotentials = .ok b ∧
        ∀ c : Coordinate .bits8, ∃ d,
          (turning.mapWeights (part c)).reweight .toInitial (turningPotentials.map (part c)) = .ok d ∧
            CoordinateLaw c turningPotentials turning 0 b d := by
  have reported : (properties (Tropical Exact)).contains Direction.toInitial.required = true := rfl
  have closed : turning.Closed := by decide
  have all : turning.All (Over Member) := by decide
  have members : ∀ v ∈ turningPotentials, v.Over Member := by decide
  exact ⟨reported, closed, rfl, all, members, reweight_coordinate reported closed rfl all members⟩

end WeightedAutomata.Automaton
