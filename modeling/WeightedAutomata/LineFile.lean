import WeightedAutomata.Text.Integer
import WeightedAutomata.Text.Lines
import WeightedAutomata.Weight.Basic

namespace WeightedAutomata

inductive FileFault where
  | notUtf8
  | missing
  | notDirectory
  | isDirectory
  | nameTooLong
  | nulInName
  | other (text : String)
deriving DecidableEq

def FileFault.message : FileFault → String
  | .notUtf8 => "stream did not contain valid UTF-8"
  | .missing => "No such file or directory (os error 2)"
  | .notDirectory => "Not a directory (os error 20)"
  | .isDirectory => "Is a directory (os error 21)"
  | .nameTooLong => "File name too long (os error 36)"
  | .nulInName => "file name contained an unexpected NUL byte"
  | .other text => text

-- No line can ask for more memory than this many states take.
def stateLimit : Nat := Nat.pow 2 26

def numberLimit : Nat := Nat.pow 2 32

inductive LineFault where
  | badColumns (columns : Nat)
  | badState (text : String)
  | stateOutOfRange (state : Nat)
  | badLabel (text : String)
  | badWeight (fault : ParseError)
deriving DecidableEq

def LineFault.message : LineFault → String
  | .badColumns columns => "bad number of columns (" ++ toString columns ++ ")"
  | .badState text => "bad state id " ++ Text.quote text
  | .stateOutOfRange state =>
    "state id " ++ toString state ++ " exceeds the limit of " ++ toString stateLimit ++ " states"
  | .badLabel text => "bad label " ++ Text.quote text
  | .badWeight fault => fault.message

inductive ReadError where
  | unreadable (name : String) (fault : FileFault)
  | weightTypeMismatch (name requested actual : String)
  | badLine (name : String) (line : Nat) (fault : LineFault)
deriving DecidableEq

namespace ReadError

def message : ReadError → String
  | unreadable name fault => name ++ ": " ++ fault.message
  | weightTypeMismatch name requested actual =>
    name ++ ": potentials requested as " ++ requested ++ " weights but read as " ++ actual
  | badLine name line fault => name ++ ":" ++ toString line ++ ": " ++ fault.message

def cause? : ReadError → Option String
  | unreadable _ fault => some fault.message
  | badLine _ _ (.badWeight fault) => some fault.message
  | _ => none

end ReadError

namespace LineFile
variable {W S : Type}

def state (text : String) : Except LineFault Nat :=
  match Text.natural? numberLimit text.toList with
  | none => .error (.badState text)
  | some state => if state < stateLimit then .ok state else .error (.stateOutOfRange state)

def label (text : String) : Except LineFault Nat :=
  match Text.natural? numberLimit text.toList with
  | none => .error (.badLabel text)
  | some label => .ok label

def weight [WeightText W] (text : String) : Except LineFault W :=
  (WeightText.parse text).mapError .badWeight

def judgeLine (judge : List String → Except LineFault S) (text : String) :
    Except LineFault (Option S) :=
  match Text.columns text.toList with
  | [] => .ok none
  | columns => (judge (columns.map String.ofList)).map some

def readFrom (name : String) (judge : List String → Except LineFault S) :
    Nat → Array S → List Text.Line → Except ReadError (Array S)
  | _, found, [] => .ok found
  | _, _, none :: _ => .error (.unreadable name .notUtf8)
  | number, found, some text :: rest =>
    match judgeLine judge text with
    | .error fault => .error (.badLine name number fault)
    | .ok none => readFrom name judge (number + 1) found rest
    | .ok (some statement) => readFrom name judge (number + 1) (found.push statement) rest

def read (name : String) (judge : List String → Except LineFault S) (content : ByteArray) :
    Except ReadError (Array S) :=
  readFrom name judge 1 #[] (Text.lines content)

end LineFile
end WeightedAutomata
