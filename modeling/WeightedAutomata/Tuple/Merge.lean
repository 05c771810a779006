import WeightedAutomata.Tuple.Basic

namespace WeightedAutomata.SparseTuple
variable {W V U : Type} {width : Width}

def align (backgroundA : W) (backgroundB : V) :
    List (Key width × W) → List (Key width × V) → List (Key width × W × V)
  | [], bs => bs.map fun (key, b) => (key, backgroundA, b)
  | as, [] => as.map fun (key, a) => (key, a, backgroundB)
  | (j, a) :: as, (k, b) :: bs =>
    if j = k then (j, a, b) :: align backgroundA backgroundB as bs
    else if j.value < k.value then
      (j, a, backgroundB) :: align backgroundA backgroundB as ((k, b) :: bs)
    else (k, backgroundA, b) :: align backgroundA backgroundB ((j, a) :: as) bs
termination_by as bs => as.length + bs.length

-- A key that only one of the tuples stores meets the other's background. The function is
-- told the key, or none for the backgrounds, which it combines first.
def combineM {m : Type → Type} [Monad m] [BEq U] (f : Option (Key width) → W → V → m U)
    (s : SparseTuple W width) (t : SparseTuple V width) : m (SparseTuple U width) := do
  let background ← f none s.background t.background
  let entries ← (align s.background t.background s.entries t.entries).mapM fun (key, a, b) => do
    let value ← f (some key) a b
    return (key, value)
  return ofAscending background entries

def combine [BEq U] (f : Option (Key width) → W → V → U) (s : SparseTuple W width)
    (t : SparseTuple V width) : SparseTuple U width :=
  ofAscending (f none s.background t.background)
    ((align s.background t.background s.entries t.entries).map fun (key, a, b) =>
      (key, f (some key) a b))

theorem combineM_pure [BEq U] (f : Option (Key width) → W → V → U) (s : SparseTuple W width)
    (t : SparseTuple V width) :
    (combineM (fun key a b => pure (f key a b)) s t : Id _) = pure (combine f s t) := by
  simp [combineM, combine]

end WeightedAutomata.SparseTuple
