import WeightedAutomata.Proofs.Automaton.Shape

namespace WeightedAutomata
variable {W V : Type}

def Arc.mapWeight (f : W → V) (arc : Arc W) : Arc V where
  input := arc.input
  output := arc.output
  weight := f arc.weight
  target := arc.target

def State.mapWeights (f : W → V) (state : State W) : State V where
  finalWeight := f state.finalWeight
  arcs := state.arcs.map (Arc.mapWeight f)

namespace Automaton
variable {f : W → V} {a : Automaton W} {s : Nat}

def mapWeights (f : W → V) (a : Automaton W) : Automaton V where
  states := a.states.map (State.mapWeights f)
  start := a.start

@[simp] theorem mapWeights_start : (a.mapWeights f).start = a.start := rfl

@[simp] theorem mapWeights_size : (a.mapWeights f).states.size = a.states.size := by
  simp [mapWeights]

theorem mapWeights_state :
    (a.mapWeights f).states[s]? = (a.states[s]?).map (State.mapWeights f) := by
  simp [mapWeights]

theorem mapWeights_alike (f : W → V) (a : Automaton W) : a.Alike (a.mapWeights f) := by
  refine ⟨rfl, fun s => ?_⟩
  rw [shapes, shapes, mapWeights_state, Option.map_map]
  congr 1
  funext state
  simp [State.mapWeights, Arc.mapWeight, Arc.shape, Function.comp_def]

theorem mapWeights_closed (f : W → V) (closed : a.Closed) : (a.mapWeights f).Closed :=
  (mapWeights_alike f a).closed closed

theorem mapWeights_onCycle : (a.mapWeights f).OnCycle s ↔ a.OnCycle s :=
  (mapWeights_alike f a).onCycle

theorem mapWeights_all {P : W → Prop} {Q : V → Prop} (holds : ∀ {w}, P w → Q (f w))
    (all : a.All P) : (a.mapWeights f).All Q := by
  constructor
  · intro state present
    obtain ⟨old, oldPresent, rfl⟩ := Array.mem_map.mp present
    exact holds (all.final old oldPresent)
  · intro state present arc leaves
    obtain ⟨old, oldPresent, rfl⟩ := Array.mem_map.mp present
    obtain ⟨oldArc, oldLeaves, rfl⟩ := Array.mem_map.mp leaves
    exact holds (all.arcs old oldPresent oldArc oldLeaves)

end Automaton
end WeightedAutomata
