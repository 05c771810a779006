import WeightedAutomata.Automaton.Text
import WeightedAutomata.Command.Arguments
import WeightedAutomata.Command.Files
import WeightedAutomata.Command.Path
import WeightedAutomata.Number.Exponential
import WeightedAutomata.Reweight
import WeightedAutomata.Tuple.Power
import WeightedAutomata.Tuple.Text
import WeightedAutomata.Weight.Log
import WeightedAutomata.Weight.Tropical

namespace WeightedAutomata.Command

inductive WeightKind where
  | tropical
  | log
  | tropicalPower
  | logPower
deriving DecidableEq

namespace WeightKind

def all : List WeightKind :=
  [tropical, log, tropicalPower, logPower]

def name : WeightKind → String
  | tropical => "tropical"
  | log => "log"
  | tropicalPower => "tropical_^n"
  | logPower => "log_^n"

def ofName? (name : String) : Option WeightKind :=
  all.find? fun kind => kind.name == name

end WeightKind

inductive CommandError where
  | unsupportedWeightType (name : String)
  | automaton (path : String) (error : ReadError)
  | potentials (path : String) (error : ReadError)
  | reweighting (error : ReweightError)
  | rendering (missing : MissingState)
  | printing (fault : FileFault)
  | drafting (directory : String) (fault : DraftFault)
  | filling (fault : DraftFault)
  | publishing (path : String) (fault : FileFault)
deriving DecidableEq

def CommandError.chain : CommandError → List String
  | unsupportedWeightType name =>
    ["unsupported weight type " ++ Text.quote name ++ " (expected one of " ++
      ", ".intercalate (WeightKind.all.map WeightKind.name) ++ ")"]
  | automaton path error =>
    ["failed to read automaton " ++ path, error.message] ++ error.cause?.toList
  | potentials path error =>
    ["failed to read potentials " ++ path, error.message] ++ error.cause?.toList
  | reweighting error => ["failed to reweight automaton", error.message]
  | rendering missing => ["failed to render automaton", missing.message]
  | printing fault => ["failed to write to stdout", fault.message]
  | drafting directory fault =>
    ["failed to create temporary file in " ++ directory, fault.message]
  | filling fault => ["failed to write " ++ fault.path, fault.message]
  | publishing path fault =>
    ["failed to write " ++ path, "failed to persist temporary file: " ++ fault.message,
      fault.message]

-- A draft that could not be published is still there, and belongs to the failure.
structure Failure (Draft : Type) where
  error : CommandError
  draft? : Option Draft
deriving DecidableEq

def reweightedText {W : Type} [Weight W] [WeightText W] (direction : Direction)
    (automaton : Automaton W) (potentials : Array W) : Except CommandError String := do
  let reweighted ← (automaton.reweight direction potentials).mapError CommandError.reweighting
  reweighted.write.mapError CommandError.rendering

section
variable {m : Type → Type} [Monad m] {Draft : Type} [Files m Draft]

def readWith {α : Type} (parse : ByteArray → Except ReadError α) (path : String) :
    ExceptT ReadError m α := do
  match ← (Files.read path : m (Except FileFault ByteArray)) with
  | .error fault => throw (.unreadable path fault)
  | .ok content => parse content

def reweightFiles (W : Type) [Weight W] [WeightText W] (arguments : Arguments) :
    ExceptT CommandError m String := do
  let automaton : Automaton W ← (readWith (Automaton.read arguments.input) arguments.input).adapt
    (.automaton arguments.input)
  let potentials : Array W ←
    (readWith (Potential.read arguments.weightType arguments.potentials)
      arguments.potentials).adapt (.potentials arguments.potentials)
  reweightedText (Direction.ofFlag arguments.toFinal) automaton potentials

def Failure.drop (failure : Failure Draft) : m Unit :=
  match failure.draft? with
  | none => return ()
  | some draft => Files.discard draft

def writeFile (path text : String) : ExceptT (Failure Draft) m Unit := do
  let directory := Path.parent path
  match ← (Files.openDraft directory : m (Except DraftFault Draft)) with
  | .error fault => throw ⟨.drafting directory fault, none⟩
  | .ok draft =>
    match ← (Files.fill draft text : m (Except FileFault Unit)) with
    | .error fault =>
      (Files.discard draft : m Unit)
      throw ⟨.filling ⟨Files.draftName m draft, fault⟩, none⟩
    | .ok () =>
      match ← (Files.publish draft path : m (Except FileFault Unit)) with
      | .error fault => throw ⟨.publishing path fault, some draft⟩
      | .ok () => return ()

def writeOutput (output : Option String) (text : String) : ExceptT (Failure Draft) m Unit := do
  match output.filter fun path => !Path.isDash path with
  | some path => writeFile path text
  | none =>
    match ← (Files.print text : m (Except FileFault Unit)) with
    | .error fault => throw ⟨.printing fault, none⟩
    | .ok () => return ()

def render (arguments : Arguments) : ExceptT CommandError m String :=
  match WeightKind.ofName? arguments.weightType with
  | none => throw (.unsupportedWeightType arguments.weightType)
  | some .tropical => reweightFiles (Tropical Binary64) arguments
  | some .log => reweightFiles (Log Binary64) arguments
  | some .tropicalPower => reweightFiles (SparseTuple (Tropical Binary64) .bits32) arguments
  | some .logPower => reweightFiles (SparseTuple (Log Binary64) .bits32) arguments

-- Nothing is written before the whole output is known.
def carryOut (arguments : Arguments) : ExceptT (Failure Draft) m Unit := do
  let text ← (render arguments).adapt fun error => ⟨error, none⟩
  writeOutput arguments.output text

-- Carries the command out to its end, where a failure is reported and dropped.
def run (arguments : Arguments) : ExceptT CommandError m Unit := do
  match ← (carryOut arguments : ExceptT (Failure Draft) m Unit).run with
  | .ok () => return ()
  | .error failure =>
    (failure.drop : m Unit)
    throw failure.error

end
end WeightedAutomata.Command
