import WeightedAutomata.Command.Run

namespace WeightedAutomata.Command

def faultOf : IO.Error → FileFault
  | .noFileOrDirectory _ code text | .interrupted _ code text
  | .alreadyExists _ code text | .invalidArgument _ code text | .permissionDenied _ code text
  | .resourceExhausted _ code text | .inappropriateType _ code text | .noSuchThing _ code text
  | .otherError code text | .resourceBusy code text | .resourceVanished code text
  | .unsupportedOperation code text | .hardwareFault code text
  | .unsatisfiedConstraints code text | .illegalOperation code text | .protocolError code text
  | .timeExpired code text => .other (text ++ " (os error " ++ toString code ++ ")")
  | .unexpectedEof => .other "unexpected end of file"
  | .userError text => .other text

def attempt {α : Type} (action : IO α) : IO (Except FileFault α) := do
  try return .ok (← action) catch error => return .error (faultOf error)

def createDraft (directory : String) : Nat → IO (Except DraftFault String)
  | 0 => return .error ⟨directory, .other "too many temporary files exist"⟩
  | tries + 1 => do
    let path := directory ++ "/.tmp" ++ toString (← IO.monoNanosNow)
    try
      let _ ← IO.FS.Handle.mk path .writeNew
      return .ok path
    catch
      | .alreadyExists _ _ _ => createDraft directory tries
      | error => return .error ⟨path, faultOf error⟩

instance : Files IO String where
  read path := attempt do
    let file ← IO.FS.Handle.mk path .read
    file.readBinToEnd
  openDraft directory := createDraft directory 1000
  draftName draft := draft
  fill draft text := attempt (IO.FS.writeFile draft text)
  publish draft path := attempt (IO.FS.rename draft path)
  discard draft := do
    let _ ← attempt (IO.FS.removeFile draft)
  print text := attempt do
    let output ← IO.getStdout
    output.putStr text
    output.flush

def usageText : String := "Reweight a weighted automaton according to per-state potentials

Usage: reweight [OPTIONS] <IN> <POTENTIALS> [OUT]

Arguments:
  <IN>          Automaton in text form
  <POTENTIALS>  Potential file (`state weight` per line)
  [OUT]         Output file (`-` or omitted for stdout)

Options:
      --to-final            Push weight toward the final states instead of the initial state
      --weight-type <TYPE>  Weight type of the automaton and the potentials [default: tropical]
  -h, --help                Print help
"

def causesText : List String → String
  | [] => ""
  | [cause] => "\n\nCaused by:\n    " ++ cause
  | causes => "\n\nCaused by:" ++ String.join (causes.zipIdx.map fun (cause, n) =>
      "\n    " ++ toString n ++ ": " ++ cause)

def CommandError.report (error : CommandError) : String :=
  match error.chain with
  | [] => ""
  | first :: causes => "Error: " ++ first ++ causesText causes ++ "\n"

-- The exit code is 2 where the words ask for nothing that can be done, 1 where that fails.
def perform (words : List String) : IO UInt32 := do
  match request words with
  | .help =>
    (← IO.getStdout).putStr usageText
    return 0
  | .usage =>
    (← IO.getStderr).putStr usageText
    return 2
  | .run arguments =>
    match ← (run arguments : ExceptT CommandError IO Unit) with
    | .ok () => return 0
    | .error error =>
      (← IO.getStderr).putStr error.report
      return 1

end WeightedAutomata.Command

def main (words : List String) : IO UInt32 :=
  WeightedAutomata.Command.perform words
