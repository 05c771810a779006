import WeightedAutomata.Proofs.Tuple.Reread

namespace WeightedAutomata
open Weight Reversible
variable {W R : Type} [Weight W] [Weight R] [Reversible W R] {P : W → Prop}

-- What reading against the direction makes of sums and products of the weights in `P`.
-- Products need not commute, and different weights may read the same.
class Reversal (P : W → Prop) : Prop where
  reverse_plus : ∀ {a b : W}, P a → P b → reverse (plus a b) = plus (reverse a) (reverse b)
  reverse_times : ∀ {a b : W}, P a → P b → reverse (times a b) = times (reverse b) (reverse a)
  reverse_zero : reverse (zero : W) = zero
  reverse_one : reverse (one : W) = one

namespace SparseTuple
variable {width : Width} {s t : SparseTuple W width} {u v : SparseTuple R width}

theorem reverse_canonical (canonical : t.Canonical) : (reverse t).Canonical :=
  mapValues_canonical reverse canonical

variable [LawfulBEq R]

theorem part_reverse (canonical : t.Canonical) (c : Coordinate width) :
    (reverse t).part c = reverse (t.part c) :=
  part_mapValues canonical c

-- A merge drops entries against its background before reversal, and one of reversed tuples
-- against another background after it. Both end up canonical, so only what they read counts.
theorem reverse_combine [LawfulBEq W] {f : W → W → W} {g : R → R → R} (left : s.Canonical)
    (right : t.Canonical) (first : u.Canonical) (second : v.Canonical)
    (parts : ∀ c, reverse (f (s.part c) (t.part c)) = g (u.part c) (v.part c)) :
    reverse (combine (fun _ => f) s t) = combine (fun _ => g) u v := by
  have before : (combine (fun _ => f) s t).Canonical := combine_canonical _ left right
  apply (reverse_canonical before).eq_of_part (combine_canonical _ first second)
  intro c
  rw [part_reverse before, part_combine left right, part_combine first second, parts]

instance [LawfulBEq W] [reversal : Reversal P] :
    Reversal (Over P : SparseTuple W width → Prop) where
  reverse_plus := by
    intro s t sOver tOver
    have left := sOver.canonical
    have right := tOver.canonical
    apply reverse_combine left right (reverse_canonical left) (reverse_canonical right)
    intro c
    rw [part_reverse left, part_reverse right]
    exact reversal.reverse_plus (sOver.part c) (tOver.part c)
  reverse_times := by
    intro s t sOver tOver
    have left := sOver.canonical
    have right := tOver.canonical
    apply reverse_combine left right (reverse_canonical right) (reverse_canonical left)
    intro c
    rw [part_reverse left, part_reverse right]
    exact reversal.reverse_times (sOver.part c) (tOver.part c)
  reverse_zero := congrArg uniform reversal.reverse_zero
  reverse_one := congrArg uniform reversal.reverse_one

end SparseTuple

namespace Nested
variable {widths : List Width} {t : Nested W widths}

instance reversible : (widths : List Width) → Reversible (Nested W widths) (Nested R widths)
  | [] => inferInstanceAs (Reversible W R)
  | width :: widths =>
    haveI : Reversible (Nested W widths) (Nested R widths) := reversible widths
    inferInstanceAs (Reversible (SparseTuple (Nested W widths) width)
      (SparseTuple (Nested R widths) width))

instance reversal [LawfulBEq W] [LawfulBEq R] [Reversal P] :
    (widths : List Width) → Reversal (Over P widths)
  | [] => inferInstanceAs (Reversal P)
  | width :: widths =>
    have := reversal widths
    inferInstanceAs (Reversal (SparseTuple.Over (Over P widths) :
      SparseTuple (Nested W widths) width → Prop))

theorem reverse_canonical (canonical : Canonical widths t) : Canonical widths (reverse t) := by
  induction widths with
  | nil => trivial
  | cons width widths ih => exact SparseTuple.mapValues_over ih canonical

theorem scalar_reverse [LawfulBEq R] (canonical : Canonical widths t) (trail : Trail widths) :
    scalar trail (reverse t) = reverse (scalar trail t) := by
  induction widths with
  | nil => rfl
  | cons width widths ih =>
    have read := SparseTuple.part_reverse (R := Nested R widths)
      (SparseTuple.Over.canonical canonical) trail.1
    exact (congrArg (scalar trail.2) read).trans
      (ih (SparseTuple.Over.part canonical trail.1) trail.2)

theorem reverse_reverse [LawfulBEq W] [LawfulBEq R] [Reversible R W]
    (involutive : ∀ a : W, P a → reverse (reverse a) = a) (member : Over P widths t) :
    reverse (reverse t) = t := by
  have canonical := canonical_of_over member
  have once := reverse_canonical (R := R) canonical
  apply ext (reverse_canonical once) canonical
  intro trail
  rw [scalar_reverse once, scalar_reverse canonical]
  exact involutive _ (scalar_of_over member trail)

theorem reverse_inherited [LawfulBEq W] [LawfulBEq R] [Reversal P] (width : Width)
    (widths : List Width) :
    Reversal (Over P (width :: widths)) ∧
      ∀ t : SparseTuple (Nested W widths) width, Over P (width :: widths) t →
        (reverse t).Canonical ∧ (reverse t).background = reverse t.background ∧
          (∀ k, (reverse t).get k = reverse (t.get k)) ∧
          (∀ trail : Trail (width :: widths), scalar trail (reverse t) = reverse (scalar trail t)) ∧
          ∀ [Reversible R W], (∀ a : W, P a → reverse (reverse a) = a) → reverse (reverse t) = t := by
  refine ⟨inferInstance, ?_⟩
  intro t member
  have canonical := SparseTuple.Over.canonical member
  refine ⟨SparseTuple.reverse_canonical canonical, rfl, ?_, ?_, ?_⟩
  · intro k
    exact SparseTuple.part_reverse canonical (.key k)
  · exact scalar_reverse (canonical_of_over member)
  · intro _ involutive
    exact reverse_reverse involutive member

end Nested

structure Ways where
  stay : Nat
  leave : Nat
  enter : Nat
  remain : Nat
deriving DecidableEq

namespace Ways

instance : Weight Ways where
  zero := ⟨0, 0, 0, 0⟩
  one := ⟨1, 0, 0, 1⟩
  noWeight := ⟨0, 0, 0, 0⟩
  plus a b := ⟨a.stay + b.stay, a.leave + b.leave, a.enter + b.enter, a.remain + b.remain⟩
  times a b := ⟨a.stay * b.stay + a.leave * b.enter, a.stay * b.leave + a.leave * b.remain,
    a.enter * b.stay + a.remain * b.enter, a.enter * b.leave + a.remain * b.remain⟩
  divide _ a _ := a
  isMember _ := true
  properties := Properties.semiring
  typeName := "ways"

instance : @LawfulBEq Ways Weight.toBEq :=
  inferInstanceAs (@LawfulBEq Ways instBEqOfDecidableEq)

instance : Reversible Ways Ways where
  reverse a := ⟨a.stay, a.enter, a.leave, a.remain⟩

instance : Reversal (fun _ : Ways => True) where
  reverse_plus _ _ := rfl
  reverse_times _ _ := by simp [reverse, times, Nat.mul_comm]
  reverse_zero := rfl
  reverse_one := rfl

end Ways

namespace Nested

def outward : Nested Ways [.bits8, .bits16] :=
  let row : SparseTuple Ways .bits16 :=
    ⟨⟨1, 2, 0, 1⟩, [(⟨91, by decide, by decide⟩, ⟨0, 1, 1, 0⟩)]⟩
  (⟨.uniform ⟨1, 0, 0, 2⟩, [(⟨92, by decide, by decide⟩, row)]⟩ :
    SparseTuple (SparseTuple Ways .bits16) .bits8)

def homeward : Nested Ways [.bits8, .bits16] :=
  (⟨.uniform ⟨1, 0, 1, 3⟩, [(⟨93, by decide, by decide⟩, .uniform ⟨0, 1, 0, 1⟩)]⟩ :
    SparseTuple (SparseTuple Ways .bits16) .bits8)

theorem outward_reverse_inherited :
    Reversal (fun _ : Ways => True) ∧ Canonical _ outward ∧ Canonical _ homeward ∧
      times outward homeward ≠ times homeward outward ∧
      reverse (times outward homeward) = times (reverse homeward) (reverse outward) ∧
      reverse (reverse outward) = outward := by
  have base : Reversal (fun _ : Ways => True) := inferInstance
  have left : Canonical _ outward := by decide
  have right : Canonical _ homeward := by decide
  have apart : (times outward homeward == times homeward outward) = false := by decide +kernel
  obtain ⟨reversal, reads⟩ := reverse_inherited (P := fun _ : Ways => True) .bits8 [.bits16]
  obtain ⟨-, -, -, -, twice⟩ := reads outward left
  exact ⟨base, left, right, ne_of_beq_false apart, reversal.reverse_times left right,
    twice fun _ _ => rfl⟩

end Nested
end WeightedAutomata
