import WeightedAutomata.Proofs.Tuple.Laws
import WeightedAutomata.Proofs.Weight.Tropical

namespace WeightedAutomata
open Weight

def Nested (W : Type) : List Width → Type
  | [] => W
  | width :: widths => SparseTuple (Nested W widths) width

namespace Nested
variable {W : Type} [Weight W] {P : W → Prop} {width : Width}

instance weight : (widths : List Width) → Weight (Nested W widths)
  | [] => inferInstanceAs (Weight W)
  | width :: widths =>
    haveI := weight widths
    inferInstanceAs (Weight (SparseTuple (Nested W widths) width))

instance lawfulBEq [LawfulBEq W] : (widths : List Width) → LawfulBEq (Nested W widths)
  | [] => inferInstanceAs (LawfulBEq W)
  | width :: widths =>
    have := lawfulBEq widths
    inferInstanceAs (LawfulBEq (SparseTuple (Nested W widths) width))

-- Canonical at every depth, with values in `P` at the innermost.
def Over (P : W → Prop) : (widths : List Width) → Nested W widths → Prop
  | [] => P
  | _ :: widths => SparseTuple.Over (Over P widths)

instance decidableOver [DecidablePred P] : (widths : List Width) → DecidablePred (Over P widths)
  | [] => inferInstanceAs (DecidablePred P)
  | width :: widths =>
    haveI := decidableOver widths
    inferInstanceAs (DecidablePred (SparseTuple.Over (Over P widths) :
      SparseTuple (Nested W widths) width → Prop))

instance lawful [LawfulBEq W] [Lawful P] : (widths : List Width) → Lawful (Over P widths)
  | [] => inferInstanceAs (Lawful P)
  | width :: widths =>
    have := lawful widths
    inferInstanceAs (Lawful (SparseTuple.Over (Over P widths) :
      SparseTuple (Nested W widths) width → Prop))

instance truthful [LawfulBEq W] [Lawful P] [Truthful P] :
    (widths : List Width) → Truthful (Over P widths)
  | [] => inferInstanceAs (Truthful P)
  | width :: widths =>
    have := truthful widths
    inferInstanceAs (Truthful (SparseTuple.Over (Over P widths) :
      SparseTuple (Nested W widths) width → Prop))

theorem properties_nested (width : Width) (widths : List Width) :
    properties (Nested W (width :: widths)) = { properties W with path := false } := by
  change properties (SparseTuple (Nested W widths) width) = _
  rw [SparseTuple.properties_power]
  cases widths with
  | nil => rfl
  | cons inner rest => rw [properties_nested inner rest]

-- A power obeys the laws of a semiring, and what it reports beyond them holds and is
-- what its weights report, whatever the tuples store and at whatever depth.
theorem inherited_laws [LawfulBEq W] [Lawful P] [Truthful P] (width : Width)
    (widths : List Width) :
    Lawful (Over P (width :: widths)) ∧ Truthful (Over P (width :: widths)) ∧
      properties (Nested W (width :: widths)) = { properties W with path := false } :=
  ⟨inferInstance, inferInstance, properties_nested width widths⟩

theorem tropical_inherited_laws :
    LawfulBEq (Tropical Exact) ∧ Lawful (Member (W := Tropical Exact)) ∧
      Truthful (Member (W := Tropical Exact)) ∧
      Lawful (Over (Member (W := Tropical Exact)) [.bits8, .bits64]) ∧
      Truthful (Over (Member (W := Tropical Exact)) [.bits8, .bits64]) ∧
      properties (Nested (Tropical Exact) [.bits8, .bits64]) =
        { Properties.semiring with commutative := true, idempotent := true } :=
  ⟨inferInstance, inferInstance, inferInstance,
    inherited_laws (P := Member (W := Tropical Exact)) .bits8 [.bits64]⟩

end Nested
end WeightedAutomata
