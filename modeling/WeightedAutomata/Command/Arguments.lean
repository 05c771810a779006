namespace WeightedAutomata.Command

structure Arguments where
  toFinal : Bool
  weightType : String
  input : String
  potentials : String
  output : Option String
deriving DecidableEq

inductive Request where
  | run (arguments : Arguments)
  | help
  | usage
deriving DecidableEq

structure Taken where
  toFinal : Bool := false
  weightType : Option String := none
  positional : List String := []

namespace Taken

def path? (taken : Taken) (word : String) : Option Taken :=
  if word.isEmpty || 3 ≤ taken.positional.length then none
  else some { taken with positional := taken.positional ++ [word] }

def weightType? (taken : Taken) (name : String) : Option Taken :=
  if taken.weightType.isSome then none else some { taken with weightType := some name }

def toFinal? (taken : Taken) : Option Taken :=
  if taken.toFinal then none else some { taken with toFinal := true }

def paths? (taken : Taken) (words : List String) : Option Taken :=
  words.foldlM path? taken

def request (taken : Taken) : Request :=
  let weightType := taken.weightType.getD "tropical"
  match taken.positional with
  | [input, potentials] => .run ⟨taken.toFinal, weightType, input, potentials, none⟩
  | [input, potentials, output] => .run ⟨taken.toFinal, weightType, input, potentials, some output⟩
  | _ => .usage

end Taken

def isOption (word : String) : Bool :=
  match word.toList with
  | '-' :: _ :: _ => true
  | _ => false

def attachedWeightType? (word : String) : Option String :=
  let mark := "--weight-type=".toList
  if mark.isPrefixOf word.toList then some (String.ofList (word.toList.drop mark.length)) else none

-- Words are taken from left to right, and the first that cannot stand where it does ends
-- the reading. Two dashes make paths of all that follow.
def takeWords (taken : Taken) : List String → Request
  | [] => taken.request
  | "--" :: rest => ((taken.paths? rest).map Taken.request).getD .usage
  | "--help" :: _ => .help
  | "--to-final" :: rest => match taken.toFinal? with
    | some next => takeWords next rest
    | none => .usage
  | ["--weight-type"] => .usage
  | "--weight-type" :: name :: rest =>
    if isOption name then .usage else match taken.weightType? name with
    | some next => takeWords next rest
    | none => .usage
  | word :: rest =>
    if let some name := attachedWeightType? word then match taken.weightType? name with
      | some next => takeWords next rest
      | none => .usage
    else if ['-', 'h'].isPrefixOf word.toList then .help
    else if isOption word then .usage
    else match taken.path? word with
      | some next => takeWords next rest
      | none => .usage

def request (words : List String) : Request :=
  takeWords {} words

end WeightedAutomata.Command
