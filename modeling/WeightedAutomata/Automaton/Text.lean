import WeightedAutomata.Automaton.Basic
import WeightedAutomata.LineFile

namespace WeightedAutomata

inductive Statement (W : Type) where
  | arc (source : Nat) (arc : Arc W)
  | final (state : Nat) (weight : W)

namespace Statement
variable {W : Type}

def source : Statement W → Nat
  | arc source _ => source
  | final state _ => state

def lastState : Statement W → Nat
  | arc source a => max source a.target
  | final state _ => state

variable [Weight W] [WeightText W]

def ofRest (source : Nat) : List String → Except LineFault (Statement W)
  | [] => .ok (.final source Weight.one)
  | [weight] => do
    let weight ← LineFile.weight weight
    .ok (.final source weight)
  | [target, input, output] => do
    let target ← LineFile.state target
    let input ← LineFile.label input
    let output ← LineFile.label output
    .ok (.arc source ⟨input, output, Weight.one, target⟩)
  | [target, input, output, weight] => do
    let target ← LineFile.state target
    let input ← LineFile.label input
    let output ← LineFile.label output
    let weight ← LineFile.weight weight
    .ok (.arc source ⟨input, output, weight, target⟩)
  | rest => .error (.badColumns (rest.length + 1))

-- The source is looked at before the columns are counted.
def ofColumns : List String → Except LineFault (Statement W)
  | [] => .error (.badColumns 0)
  | source :: rest => do
    let source ← LineFile.state source
    ofRest source rest

end Statement

namespace Automaton
variable {W : Type} [Weight W]

def extend (a : Automaton W) (statement : Statement W) : Automaton W :=
  let grown := a.ensureState statement.lastState
  let states := match statement with
    | .arc source arc =>
      grown.states.modify source fun state => { state with arcs := state.arcs.push arc }
    | .final s weight => grown.states.modify s fun state => { state with finalWeight := weight }
  ⟨states, some (a.start.getD statement.source)⟩

def ofStatements (statements : Array (Statement W)) : Automaton W :=
  statements.foldl extend {}

def read [WeightText W] (name : String) (content : ByteArray) : Except ReadError (Automaton W) :=
  (LineFile.read name Statement.ofColumns content).map ofStatements

variable [WeightText W]

def weightColumn (weight : W) : List String :=
  if Weight.isOne weight then [] else [WeightText.print weight]

def arcColumns (source : Nat) (arc : Arc W) : List String :=
  [source, arc.target, arc.input, arc.output].map toString ++ weightColumn arc.weight

def stateLines (s : Nat) (state : State W) : List (List String) :=
  let final :=
    if Weight.isOne state.finalWeight || state.isFinal then
      [toString s :: weightColumn state.finalWeight]
    else []
  state.arcs.toList.map (arcColumns s) ++ final

-- The start comes first, so that it is read back as the start.
def writeOrder (a : Automaton W) (start : Nat) : List Nat :=
  start :: (List.range a.states.size).filter (· ≠ start)

def lines (a : Automaton W) : Except MissingState (List (List String)) :=
  match a.start with
  | none => .ok []
  | some start => do
    let states ← (a.writeOrder start).mapM fun s => do
      let state ← a.state s
      return stateLines s state
    return states.flatten

def write (a : Automaton W) : Except MissingState String := do
  let lines ← a.lines
  return String.join (lines.map fun columns => "\t".intercalate columns ++ "\n")

end Automaton
end WeightedAutomata
