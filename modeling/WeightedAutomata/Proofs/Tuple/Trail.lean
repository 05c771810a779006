import WeightedAutomata.Proofs.Tuple.Nested

namespace WeightedAutomata
open Weight

def Trail : List Width → Type
  | [] => Unit
  | width :: widths => Coordinate width × Trail widths

namespace Nested
variable {W : Type}

def scalar : {widths : List Width} → Trail widths → Nested W widths → W
  | [], _, t => t
  | _ :: _, (c, trail), t => scalar trail (SparseTuple.part c t)

variable [Weight W] {P : W → Prop} {f : W → W → W}

abbrev Canonical (widths : List Width) : Nested W widths → Prop :=
  Over (fun _ => True) widths

theorem canonical_of_over {widths : List Width} {t : Nested W widths} (member : Over P widths t) :
    Canonical widths t := by
  induction widths with
  | nil => trivial
  | cons width widths ih =>
    obtain ⟨canonical, background, entries⟩ := member
    exact ⟨canonical, ih background, fun e stored => ih (entries e stored)⟩

theorem scalar_of_over {widths : List Width} {t : Nested W widths} (member : Over P widths t)
    (trail : Trail widths) : P (scalar trail t) := by
  induction widths with
  | nil => exact member
  | cons width widths ih => exact ih (SparseTuple.Over.part member trail.1) trail.2

-- Two nested tuples that read the same along every trail are the same.
theorem ext [LawfulBEq W] {widths : List Width} {s t : Nested W widths}
    (left : Canonical widths s) (right : Canonical widths t)
    (same : ∀ trail, scalar trail s = scalar trail t) : s = t := by
  induction widths with
  | nil => exact same ()
  | cons width widths ih =>
    apply SparseTuple.Over.ext left right
    intro c
    exact ih (SparseTuple.Over.part left c) (SparseTuple.Over.part right c)
      fun trail => same (c, trail)

theorem zero_canonical (widths : List Width) : Canonical widths (zero : Nested W widths) := by
  induction widths with
  | nil => trivial
  | cons width widths ih => exact SparseTuple.uniform_over ih

theorem scalar_zero {widths : List Width} (trail : Trail widths) :
    scalar trail (zero : Nested W widths) = zero := by
  induction widths with
  | nil => rfl
  | cons width widths ih =>
    change scalar trail.2
      (SparseTuple.part trail.1 (zero : SparseTuple (Nested W widths) width)) = _
    rw [SparseTuple.part_zero]
    exact ih trail.2

def merge (f : W → W → W) : (widths : List Width) → Nested W widths → Nested W widths →
    Nested W widths
  | [] => f
  | width :: widths => fun s t =>
    (SparseTuple.combine (fun _ => merge f widths) s t : SparseTuple (Nested W widths) width)

theorem merge_canonical {widths : List Width} {s t : Nested W widths} (left : Canonical widths s)
    (right : Canonical widths t) : Canonical widths (merge f widths s t) := by
  induction widths with
  | nil => trivial
  | cons width widths ih => exact SparseTuple.combine_over ih left right

theorem scalar_merge [LawfulBEq W] {widths : List Width} {s t : Nested W widths}
    (left : Canonical widths s) (right : Canonical widths t) (trail : Trail widths) :
    scalar trail (merge f widths s t) = f (scalar trail s) (scalar trail t) := by
  induction widths with
  | nil => rfl
  | cons width widths ih =>
    have read := SparseTuple.part_combine (f := merge f widths)
      (SparseTuple.Over.canonical left) (SparseTuple.Over.canonical right) trail.1
    change scalar trail.2 (SparseTuple.part trail.1 (SparseTuple.combine _ s t)) = _
    rw [read]
    exact ih (SparseTuple.Over.part left trail.1) (SparseTuple.Over.part right trail.1) trail.2

end Nested
end WeightedAutomata
