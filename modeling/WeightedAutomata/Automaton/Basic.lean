import WeightedAutomata.Weight.Basic

namespace WeightedAutomata

structure Arc (W : Type) where
  input : Nat
  output : Nat
  weight : W
  target : Nat
deriving BEq, DecidableEq

structure State (W : Type) where
  finalWeight : W
  arcs : Array (Arc W)
deriving BEq, DecidableEq

-- Nothing forces the start or a target to exist. Whoever follows them must say what
-- happens where there is no state.
structure Automaton (W : Type) where
  states : Array (State W) := #[]
  start : Option Nat := none
deriving BEq, DecidableEq

def epsilon : Nat := 0

structure MissingState where
  state : Nat
deriving DecidableEq

def MissingState.message (missing : MissingState) : String :=
  "no state " ++ toString missing.state

namespace State
variable {W : Type} [Weight W]

def blank : State W :=
  ⟨Weight.zero, #[]⟩

def isFinal (state : State W) : Bool :=
  !Weight.isZero state.finalWeight

end State

namespace Automaton
variable {W : Type}

def state (a : Automaton W) (s : Nat) : Except MissingState (State W) :=
  match a.states[s]? with
  | some state => .ok state
  | none => .error ⟨s⟩

def modifyState (a : Automaton W) (s : Nat) (f : State W → State W) :
    Except MissingState (Automaton W) :=
  if s < a.states.size then .ok { a with states := a.states.modify s f } else .error ⟨s⟩

def setFinal (a : Automaton W) (s : Nat) (weight : W) : Except MissingState (Automaton W) :=
  a.modifyState s fun state => { state with finalWeight := weight }

def addArc (a : Automaton W) (source : Nat) (arc : Arc W) : Except MissingState (Automaton W) :=
  a.modifyState source fun state => { state with arcs := state.arcs.push arc }

def setWeights (a : Automaton W) (s : Nat) (weight : W) : Except MissingState (Automaton W) :=
  a.modifyState s fun state =>
    { state with arcs := state.arcs.map fun arc => { arc with weight := weight } }

def arcCount (a : Automaton W) : Nat :=
  a.states.foldl (fun count state => count + state.arcs.size) 0

variable [Weight W]

def addState (a : Automaton W) : Automaton W :=
  { a with states := a.states.push State.blank }

def ensureState (a : Automaton W) (s : Nat) : Automaton W :=
  { a with states := a.states ++ Array.replicate (s + 1 - a.states.size) State.blank }

end Automaton
end WeightedAutomata
