import WeightedAutomata.Automaton.Cycle
import WeightedAutomata.Potential

namespace WeightedAutomata

inductive Direction where
  | toInitial
  | toFinal
deriving DecidableEq

namespace Direction

def ofFlag (toFinal : Bool) : Direction :=
  if toFinal then .toFinal else .toInitial

def required : Direction → Properties
  | toInitial => .leftSemiring
  | toFinal => .rightSemiring

def name : Direction → String
  | toInitial => "ToInitial"
  | toFinal => "ToFinal"

def requiredSide : Direction → String
  | toInitial => "left"
  | toFinal => "right"

end Direction

inductive ReweightError where
  | notDistributive (direction : Direction) (typeName : String)
  | missingState (missing : MissingState)
deriving DecidableEq

def ReweightError.message : ReweightError → String
  | .notDistributive direction typeName =>
    "reweighting " ++ direction.name ++ " requires a " ++ direction.requiredSide ++
      "-distributive weight, got " ++ typeName
  | .missingState missing => missing.message

namespace Automaton
open Weight
variable {W : Type} [Weight W]

-- Between two states all but the first and the last potential of a path cancel.
def reweightArc (direction : Direction) (v next weight : W) : W :=
  match direction with
  | .toInitial => divideOrZero .left (times weight next) v
  | .toFinal => divideOrZero .right (times v weight) next

def reweightFinal (direction : Direction) (v weight : W) : W :=
  match direction with
  | .toInitial => divideOrZero .left weight v
  | .toFinal => times v weight

def reweightState (direction : Direction) (potentials : Array W) (s : Nat) (state : State W) :
    State W :=
  let v := Potential.get potentials s
  { finalWeight := reweightFinal direction v state.finalWeight
    arcs := state.arcs.map fun arc =>
      let next := Potential.get potentials arc.target
      { arc with weight := reweightArc direction v next arc.weight } }

def startFactor (direction : Direction) (v : W) : W :=
  match direction with
  | .toInitial => v
  | .toFinal => divideOrZero .right one v

def scaleState (factor : W) (state : State W) : State W where
  finalWeight := times factor state.finalWeight
  arcs := state.arcs.map fun arc => { arc with weight := times factor arc.weight }

def prependStart (a : Automaton W) (factor : W) (start : Nat) : Automaton W where
  states := a.states.push ⟨zero, #[⟨epsilon, epsilon, factor, start⟩]⟩
  start := some a.states.size

-- A start that no cycle passes takes its potential into its own weights. Otherwise it would
-- count once for every time round, and a new start takes it.
def restoreStart (direction : Direction) (v : W) (a : Automaton W) :
    Except MissingState (Automaton W) :=
  match a.start with
  | none => .ok a
  | some start =>
    if isZero v || isOne v then .ok a
    else do
      let factor := startFactor direction v
      if ← a.initialAcyclic then a.modifyState start (scaleState factor)
      else .ok (a.prependStart factor start)

def reweight (direction : Direction) (potentials : Array W) (a : Automaton W) :
    Except ReweightError (Automaton W) :=
  if !(properties W).contains direction.required then
    .error (.notDistributive direction (typeName W))
  else if a.states.isEmpty then .ok a
  else
    let moved := { a with states := a.states.mapIdx (reweightState direction potentials) }
    let v := match a.start with
      | some start => Potential.get potentials start
      | none => zero
    (restoreStart direction v moved).mapError .missingState

end Automaton
end WeightedAutomata
