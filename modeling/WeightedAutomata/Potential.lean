import WeightedAutomata.LineFile

namespace WeightedAutomata.Potential
variable {W : Type}

structure Entry (W : Type) where
  state : Nat
  weight : W

def Entry.ofColumns [WeightText W] : List String → Except LineFault (Entry W)
  | [state, weight] => do
    let state ← LineFile.state state
    let weight ← LineFile.weight weight
    .ok ⟨state, weight⟩
  | columns => .error (.badColumns columns.length)

variable [Weight W]

def get (potentials : Array W) (s : Nat) : W :=
  potentials[s]?.getD Weight.zero

def extend (potentials : Array W) (entry : Entry W) : Array W :=
  let missing := entry.state + 1 - potentials.size
  (potentials ++ Array.replicate missing Weight.zero).setIfInBounds entry.state entry.weight

def ofEntries (entries : Array (Entry W)) : Array W :=
  entries.foldl extend #[]

variable [WeightText W]

def read (requested name : String) (content : ByteArray) : Except ReadError (Array W) :=
  if requested ≠ Weight.typeName W then
    .error (.weightTypeMismatch name requested (Weight.typeName W))
  else (LineFile.read name Entry.ofColumns content).map ofEntries

def write (potentials : Array W) : String :=
  String.join (potentials.toList.zipIdx.map fun (weight, s) =>
    toString s ++ "\t" ++ WeightText.print weight ++ "\n")

end WeightedAutomata.Potential
