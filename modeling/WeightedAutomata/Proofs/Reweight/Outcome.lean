import WeightedAutomata.Reweight
import WeightedAutomata.Proofs.Automaton.Cycle
import WeightedAutomata.Proofs.Automaton.Shape

namespace WeightedAutomata.Automaton
open Weight
variable {W : Type} [Weight W] {direction : Direction} {potentials : Array W}
  {a b : Automaton W} {start s i : Nat} {factor : W}

def moveWeights (direction : Direction) (potentials : Array W) (a : Automaton W) : Automaton W :=
  { a with states := a.states.mapIdx (reweightState direction potentials) }

def foldStart (factor : W) (start : Nat) (a : Automaton W) : Automaton W :=
  { a with states := a.states.modify start (scaleState factor) }

-- The weight that moving gives an arc of `s`.
def movedWeight (direction : Direction) (potentials : Array W) (s : Nat) (arc : Arc W) : W :=
  reweightArc direction (Potential.get potentials s) (Potential.get potentials arc.target)
    arc.weight

@[simp] theorem moveWeights_start : (a.moveWeights direction potentials).start = a.start := rfl

@[simp] theorem moveWeights_size :
    (a.moveWeights direction potentials).states.size = a.states.size := by
  simp [moveWeights]

theorem moveWeights_state :
    (a.moveWeights direction potentials).states[s]? =
      (a.states[s]?).map (reweightState direction potentials s) := by
  simp [moveWeights]

theorem moveWeights_arc? :
    (a.moveWeights direction potentials).arc? s i =
      (a.arc? s i).map fun arc => { arc with weight := movedWeight direction potentials s arc } := by
  cases found : a.states[s]? with
  | none => simp [arc?, moveWeights_state, found]
  | some state => simp [arc?, moveWeights_state, found, reweightState, movedWeight]

@[simp] theorem foldStart_size : (a.foldStart factor start).states.size = a.states.size := by
  simp [foldStart]

theorem foldStart_state :
    (a.foldStart factor start).states[s]? =
      if start = s then (a.states[s]?).map (scaleState factor) else a.states[s]? := by
  simp [foldStart, Array.getElem?_modify]

theorem foldStart_arc? :
    (a.foldStart factor start).arc? s i =
      (a.arc? s i).map fun arc =>
        { arc with weight := if start = s then times factor arc.weight else arc.weight } := by
  by_cases same : start = s
  · cases found : a.states[s]? with
    | none => simp [arc?, foldStart_state, found]
    | some state => simp [arc?, foldStart_state, same, found, scaleState]
  · simp [arc?, foldStart_state, same]

@[simp] theorem prependStart_size :
    (a.prependStart factor start).states.size = a.states.size + 1 := by
  simp [prependStart]

theorem prependStart_state (old : s < a.states.size) :
    (a.prependStart factor start).states[s]? = a.states[s]? := by
  simp [prependStart, Array.getElem?_push_lt old, Array.getElem?_eq_getElem old]

theorem prependStart_last :
    (a.prependStart factor start).states[a.states.size]? =
      some ⟨zero, #[⟨epsilon, epsilon, factor, start⟩]⟩ := by
  simp [prependStart]

theorem prependStart_arc? (old : s < a.states.size) :
    (a.prependStart factor start).arc? s i = a.arc? s i := by
  simp [arc?, prependStart_state old]

theorem prependStart_epsilon :
    (a.prependStart factor start).arc? a.states.size i =
      if i = 0 then some ⟨epsilon, epsilon, factor, start⟩ else none := by
  simp only [arc?, prependStart_last, Option.bind_eq_bind, Option.bind_some]
  cases i with
  | zero => rfl
  | succ i => simp

theorem prependStart_prepended (factor : W) (closed : a.Closed) (exist : start < a.states.size) :
    a.Prepended start (a.prependStart factor start) where
  size := prependStart_size
  begins := rfl
  old s inside := by rw [shapes, shapes, prependStart_state inside]
  fresh := by
    rw [shapes, prependStart_last]
    simp [Arc.shape]
  unentered s step := by
    obtain ⟨i, arc, found, entered⟩ := step
    have bound := arc?_source found
    rw [prependStart_size] at bound
    rcases Nat.lt_succ_iff_lt_or_eq.mp bound with old | rfl
    · rw [prependStart_arc? old] at found
      exact absurd entered (Nat.ne_of_lt (arc?_target closed found))
    · rw [prependStart_epsilon] at found
      split at found
      · cases found
        exact absurd entered (Nat.ne_of_lt exist)
      · cases found

theorem prependStart_walk? (closed : a.Closed) (exist : s < a.states.size) (path : Path) :
    (a.prependStart factor start).walk? s path = a.walk? s path := by
  induction path generalizing s with
  | nil => rfl
  | cons i path ih =>
    rw [walk?, walk?, prependStart_arc? exist]
    cases found : a.arc? s i with
    | none => rfl
    | some arc => simp [ih (arc?_target closed found)]

theorem prependStart_weigh {arcs : List (Arc W)} {path : Path} (closed : a.Closed)
    (exist : s < a.states.size) (walked : a.walk? s path = some arcs) :
    (a.prependStart factor start).weigh s arcs = a.weigh s arcs := by
  apply weigh_congr
  intro q present
  rw [prependStart_state (visited_lt closed exist walked q present)]

theorem prependStart_old (closed : a.Closed) (exist : s < a.states.size) (path : Path) :
    (a.prependStart factor start).pathWeight? s path = a.pathWeight? s path := by
  unfold pathWeight?
  rw [prependStart_walk? closed exist]
  cases walked : a.walk? s path with
  | none => rfl
  | some arcs => exact prependStart_weigh closed exist walked

theorem prependStart_first (factor : W) (closed : a.Closed) (exist : start < a.states.size)
    (path : Path) :
    (a.prependStart factor start).pathWeight? a.states.size (0 :: path) =
      (a.pathWeight? start path).map (times factor) := by
  rw [pathWeight?_cons, prependStart_epsilon, if_pos rfl, Option.bind_some,
    prependStart_old closed exist]

theorem moveWeights_alike (direction : Direction) (potentials : Array W) (a : Automaton W) :
    a.Alike (a.moveWeights direction potentials) := by
  refine ⟨rfl, fun s => ?_⟩
  rw [shapes, shapes, moveWeights_state, Option.map_map]
  congr 1
  funext state
  simp [reweightState, Arc.shape, Function.comp_def]

theorem moveWeights_closed (direction : Direction) (potentials : Array W) (closed : a.Closed) :
    (a.moveWeights direction potentials).Closed :=
  (moveWeights_alike direction potentials a).closed closed

theorem moveWeights_step : (a.moveWeights direction potentials).Step = a.Step :=
  (moveWeights_alike direction potentials a).step

theorem moveWeights_onCycle : (a.moveWeights direction potentials).OnCycle s ↔ a.OnCycle s :=
  (moveWeights_alike direction potentials a).onCycle

theorem foldStart_alike (factor : W) (start : Nat) (a : Automaton W) :
    a.Alike (a.foldStart factor start) := by
  refine ⟨rfl, fun s => ?_⟩
  rw [shapes, shapes, foldStart_state]
  split
  · rw [Option.map_map]
    congr 1
    funext state
    simp [scaleState, Arc.shape, Function.comp_def]
  · rfl

theorem foldStart_step : (a.foldStart factor start).Step = a.Step :=
  (foldStart_alike factor start a).step

theorem foldStart_closed (factor : W) (start : Nat) (closed : a.Closed) :
    (a.foldStart factor start).Closed :=
  (foldStart_alike factor start a).closed closed

-- The ways in which reweighting ends, by the start's potential and the cycles through
-- the start.
inductive Outcome (direction : Direction) (potentials : Array W) (start : Nat)
    (a : Automaton W) : Automaton W → Prop where
  | kept (plain : isZero (Potential.get potentials start) = true ∨
        isOne (Potential.get potentials start) = true) :
      Outcome direction potentials start a (a.moveWeights direction potentials)
  | folded (zero : isZero (Potential.get potentials start) = false)
      (one : isOne (Potential.get potentials start) = false) (acyclic : ¬ a.OnCycle start) :
      Outcome direction potentials start a
        ((a.moveWeights direction potentials).foldStart
          (startFactor direction (Potential.get potentials start)) start)
  | prepended (zero : isZero (Potential.get potentials start) = false)
      (one : isOne (Potential.get potentials start) = false) (cyclic : a.OnCycle start) :
      Outcome direction potentials start a
        ((a.moveWeights direction potentials).prependStart
          (startFactor direction (Potential.get potentials start)) start)

theorem restoreStart_outcome (direction : Direction) (potentials : Array W) (closed : a.Closed)
    (begins : a.start = some start) :
    ∃ b, restoreStart direction (Potential.get potentials start)
        (a.moveWeights direction potentials) = .ok b ∧
      Outcome direction potentials start a b := by
  have movedBegins : (a.moveWeights direction potentials).start = some start := begins
  unfold restoreStart
  simp only [movedBegins]
  cases zero : isZero (Potential.get potentials start) with
  | true => exact ⟨_, by simp, .kept (.inl zero)⟩
  | false =>
    cases one : isOne (Potential.get potentials start) with
    | true => exact ⟨_, by simp, .kept (.inr one)⟩
    | false =>
      rcases initialAcyclic_cases (moveWeights_closed direction potentials closed) movedBegins with
        ⟨search, acyclic⟩ | ⟨search, cyclic⟩
      · rw [moveWeights_onCycle] at acyclic
        have inside : start < a.states.size := closed.start start begins
        refine ⟨_, ?_, .folded zero one acyclic⟩
        simp [search, bind, Except.bind, modifyState, inside, foldStart]
      · rw [moveWeights_onCycle] at cyclic
        refine ⟨_, ?_, .prepended zero one cyclic⟩
        simp [search, bind, Except.bind]

theorem reweight_started (reported : (properties W).contains direction.required = true)
    (begins : a.start = some start) (exist : start < a.states.size) :
    a.reweight direction potentials =
      (restoreStart direction (Potential.get potentials start)
        (a.moveWeights direction potentials)).mapError .missingState := by
  have inhabited : a.states.isEmpty = false := by
    simp only [Array.isEmpty_eq_false_iff]
    intro none
    simp [none] at exist
  simp only [reweight, reported, inhabited, begins, moveWeights, Bool.not_true, Bool.false_eq_true,
    if_false]

theorem reweight_outcome (potentials : Array W)
    (reported : (properties W).contains direction.required = true) (closed : a.Closed)
    (begins : a.start = some start) :
    ∃ b, a.reweight direction potentials = .ok b ∧ Outcome direction potentials start a b := by
  obtain ⟨b, restored, outcome⟩ := restoreStart_outcome direction potentials closed begins
  refine ⟨b, ?_, outcome⟩
  rw [reweight_started reported begins (closed.start start begins), restored]
  rfl

theorem reweight_unstarted (reported : (properties W).contains direction.required = true)
    (unstarted : a.start = none) :
    a.reweight direction potentials = .ok (a.moveWeights direction potentials) := by
  by_cases empty : a.states.isEmpty = true
  · have none : a.states = #[] := Array.isEmpty_iff.mp empty
    cases a
    cases none
    simp [reweight, reported, moveWeights]
  · simp only [reweight, reported, empty, unstarted, restoreStart, moveWeights, Bool.not_true,
      Bool.false_eq_true, if_false]
    rfl

theorem reported_of_reweight (reweighted : a.reweight direction potentials = .ok b) :
    (properties W).contains direction.required = true := by
  cases reported : (properties W).contains direction.required with
  | true => rfl
  | false => simp [reweight, reported] at reweighted

theorem reweight_defined (potentials : Array W)
    (reported : (properties W).contains direction.required = true) (closed : a.Closed) :
    ∃ b, a.reweight direction potentials = .ok b := by
  cases begins : a.start with
  | none => exact ⟨_, reweight_unstarted reported begins⟩
  | some start =>
    obtain ⟨b, reweighted, _⟩ := reweight_outcome potentials reported closed begins
    exact ⟨b, reweighted⟩

end WeightedAutomata.Automaton
