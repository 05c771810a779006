import WeightedAutomata.Command.Files
import WeightedAutomata.Command.Path

namespace WeightedAutomata.Command

abbrev Location := List String

-- The working directory and those above it exist without being listed.
structure Store where
  home : Location := []
  directories : List Location := []
  files : List (Location × ByteArray) := []
  printed : String := ""

namespace Store

def nameLimit : Nat := 255

def pathLimit : Nat := 4095

inductive Found where
  | directory (location : Location)
  | file (location : Location) (content : ByteArray)
  | absent (location : Location)

def look (store : Store) (location : Location) : Found :=
  match store.files.find? fun file => file.1 == location with
  | some file => .file location file.2
  | none =>
    if location.isPrefixOf store.home || store.directories.contains location then
      .directory location
    else .absent location

def follow (store : Store) (place : Found) (part : String) : Except FileFault Found :=
  match place with
  | .file _ _ => .error .notDirectory
  | .absent _ => .error .missing
  | .directory location =>
    if Path.isIdle part then .ok place
    else if part == ".." then .ok (.directory location.dropLast)
    else if nameLimit < part.utf8ByteSize then .error .nameTooLong
    else .ok (store.look (location ++ [part]))

def resolve (store : Store) (path : String) : Except FileFault Found :=
  if path.toList.contains '\x00' then .error .nulInName
  else if pathLimit < path.utf8ByteSize then .error .nameTooLong
  else match Path.parts path with
    | [""] => .error .missing
    | "" :: rest => rest.foldlM store.follow (.directory [])
    | names => names.foldlM store.follow (.directory store.home)

def content (store : Store) (path : String) : Except FileFault ByteArray := do
  match ← store.resolve path with
  | .file _ content => .ok content
  | .directory _ => .error .isDirectory
  | .absent _ => .error .missing

def put (store : Store) (location : Location) (content : ByteArray) : Store :=
  { store with
    files := (store.files.filter fun file => file.1 != location) ++ [(location, content)] }

def remove (store : Store) (location : Location) : Store :=
  { store with files := store.files.filter fun file => file.1 != location }

def draftName (n : Nat) : String :=
  let digits := toString n
  ".tmp" ++ String.ofList (List.replicate (6 - digits.length) '0') ++ digits

def isFree (store : Store) (location : Location) : Bool :=
  match store.look location with
  | .absent _ => true
  | _ => false

-- More names are tried than can be taken.
def freshName (store : Store) (directory : Location) : String :=
  let names :=
    (List.range (store.files.length + store.directories.length + 2)).map draftName
  (names.find? fun name => store.isFree (directory ++ [name])).getD (draftName 0)

def absolute (store : Store) (path : String) : String :=
  if (Path.parts path).head? == some "" then path
  else "/" ++ "/".intercalate (store.home ++ [path])

def directory (store : Store) (path : String) : Except FileFault Location := do
  match ← store.resolve path with
  | .directory location => .ok location
  | .file _ _ => .error .notDirectory
  | .absent _ => .error .missing

def openDraft (store : Store) (path : String) : Except DraftFault (Location × Store) :=
  let within name := store.absolute path ++ "/" ++ name
  match store.directory path with
  | .error fault => .error ⟨within (draftName 0), fault⟩
  | .ok location =>
    let name := store.freshName location
    if pathLimit < (within name).utf8ByteSize then .error ⟨within name, .nameTooLong⟩
    else .ok (location ++ [name], store.put (location ++ [name]) ByteArray.empty)

def publish (store : Store) (draft : Location) (path : String) : Except FileFault Store := do
  let content ← match store.look draft with
    | .file _ content => .ok content
    | _ => .error .missing
  match ← store.resolve path with
  | .directory _ => .error .isDirectory
  | .file target _ | .absent target => .ok ((store.remove draft).put target content)

end Store

def onStore {ε α : Type} (action : Store → Except ε (α × Store)) :
    StateM Store (Except ε α) := fun store =>
  match action store with
  | .error fault => (.error fault, store)
  | .ok (result, next) => (.ok result, next)

instance : Files (StateM Store) Location where
  read path := onStore fun store => return (← store.content path, store)
  openDraft path := onStore fun store => store.openDraft path
  draftName draft := "/" ++ "/".intercalate draft
  fill draft text := onStore fun store => return ((), store.put draft text.toUTF8)
  publish draft path := onStore fun store => return ((), ← store.publish draft path)
  discard draft := modify fun store => store.remove draft
  print text := onStore fun store => return ((), { store with printed := store.printed ++ text })

end WeightedAutomata.Command
