import WeightedAutomata.Tuple.Key
import WeightedAutomata.Weight.Basic

namespace WeightedAutomata

structure SparseTuple (W : Type) (width : Width) where
  background : W
  entries : List (Key width × W)

namespace SparseTuple
variable {W V U : Type} {width : Width}

instance [BEq W] : BEq (SparseTuple W width) where
  beq s t := s.background == t.background && s.entries == t.entries

theorem beq_def [BEq W] (s t : SparseTuple W width) :
    (s == t) = (s.background == t.background && s.entries == t.entries) :=
  rfl

instance [BEq W] [LawfulBEq W] : LawfulBEq (SparseTuple W width) where
  rfl := by simp [beq_def]
  eq_of_beq := by
    intro s t same
    cases s
    cases t
    simpa [beq_def] using same

-- No entry is the background and the keys ascend, so that tuples with the same values are
-- the same tuple.
structure Canonical [BEq W] (t : SparseTuple W width) : Prop where
  ascending : t.entries.Pairwise fun e f => e.1.value < f.1.value
  sparse : ∀ e ∈ t.entries, (e.2 == t.background) = false

def uniform (background : W) : SparseTuple W width :=
  ⟨background, []⟩

def ofAscending [BEq W] (background : W) (entries : List (Key width × W)) : SparseTuple W width :=
  ⟨background, entries.filter fun e => !(e.2 == background)⟩

def get (t : SparseTuple W width) (key : Key width) : W :=
  match t.entries.find? fun e => e.1 = key with
  | some e => e.2
  | none => t.background

def keys (t : SparseTuple W width) : List (Key width) :=
  t.entries.map Prod.fst

def putEntry (key : Key width) (value : W) : List (Key width × W) → List (Key width × W)
  | [] => [(key, value)]
  | e :: rest =>
    if key.value < e.1.value then (key, value) :: e :: rest
    else if e.1 = key then (key, value) :: rest
    else e :: putEntry key value rest

def insert [BEq W] (t : SparseTuple W width) (key : Key width) (value : W) : SparseTuple W width :=
  if value == t.background then { t with entries := t.entries.filter fun e => e.1 ≠ key }
  else { t with entries := putEntry key value t.entries }

def lastOfEach : List (Key width × W) → List (Key width × W)
  | [] => []
  | [e] => [e]
  | e :: f :: rest => if e.1 = f.1 then lastOfEach (f :: rest) else e :: lastOfEach (f :: rest)

def ofPairs [Weight W] (pairs : List (Key width × W)) : SparseTuple W width :=
  ofAscending Weight.zero (lastOfEach (pairs.mergeSort fun e f => e.1.value ≤ f.1.value))

def ofPair [Weight W] (key : Key width) (value : W) : SparseTuple W width :=
  ofAscending Weight.zero [(key, value)]

inductive Kind where
  | zero
  | one
  | sparse
deriving DecidableEq

-- A tuple that is both zero and one counts as zero.
def kind [Weight W] (t : SparseTuple W width) : Kind :=
  if !t.entries.isEmpty then .sparse
  else if Weight.isZero t.background then .zero
  else if Weight.isOne t.background then .one
  else .sparse

def mapValues [BEq V] (f : W → V) (t : SparseTuple W width) : SparseTuple V width :=
  ofAscending (f t.background) (t.entries.map fun e => (e.1, f e.2))

end SparseTuple
end WeightedAutomata
