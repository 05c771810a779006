import WeightedAutomata.LineFile

namespace WeightedAutomata.Command

structure DraftFault where
  path : String
  fault : FileFault
deriving DecidableEq

def DraftFault.message (fault : DraftFault) : String :=
  fault.fault.message ++ " at path " ++ Text.quote fault.path

-- A draft is a file under a fresh name. Publishing puts it in the place of a path in one
-- step, or fails and leaves it where it is.
class Files (m : Type → Type) (Draft : outParam Type) where
  read : String → m (Except FileFault ByteArray)
  openDraft : String → m (Except DraftFault Draft)
  draftName : Draft → String
  fill : Draft → String → m (Except FileFault Unit)
  publish : Draft → String → m (Except FileFault Unit)
  discard : Draft → m Unit
  print : String → m (Except FileFault Unit)

end WeightedAutomata.Command
