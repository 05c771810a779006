import WeightedAutomata.Proofs.Reweight.Members
import WeightedAutomata.Proofs.Tuple.Nested

namespace WeightedAutomata
open Weight
variable {W : Type} [Weight W] {P : W → Prop} {direction : Direction} {width : Width}

-- What a weight type keeps to itself. Absorbing division may give zero more often than
-- it has to, but it never divides by zero.
class Direction.Retains (direction : Direction) (P : W → Prop) : Prop where
  zero_mem : P zero
  one_mem : P one
  times_mem : ∀ {a b : W}, P a → P b → P (times a b)
  divide_mem : ∀ {a c : W}, P c → P a → a ≠ zero → P (divide direction.side c a)
  divideOrZero_cases : ∀ {a c : W}, P c → P a → divideOrZero direction.side c a = zero ∨
    a ≠ zero ∧ divideOrZero direction.side c a = divide direction.side c a

namespace Direction.Retains

theorem multiplicative (direction : Direction) [retains : direction.Retains P] :
    Multiplicative P where
  zero_mem := retains.zero_mem
  one_mem := retains.one_mem
  times_mem := retains.times_mem

theorem dividing (direction : Direction) [retains : direction.Retains P] :
    direction.Dividing P where
  divideOrZero_mem := by
    intro a c dividend divisor
    rcases retains.divideOrZero_cases dividend divisor with none | ⟨nonzero, quotient⟩
    · rw [none]
      exact retains.zero_mem
    · rw [quotient]
      exact retains.divide_mem dividend divisor nonzero

instance [Lawful P] [divides : direction.DividesOut P] : direction.Retains P where
  zero_mem := Lawful.zero_mem
  one_mem := Lawful.one_mem
  times_mem := Lawful.times_mem
  divide_mem := divides.divide_mem
  divideOrZero_cases := by
    intro a c dividend divisor
    by_cases none : a = zero
    · rw [none]
      exact .inl (divides.divideOrZero_zero dividend)
    · exact .inr ⟨none, divides.divideOrZero_eq dividend divisor none⟩

end Direction.Retains

namespace SparseTuple

theorem member_iff {t : SparseTuple W width} : Member t ↔ t.Throughout Member := by
  change (isMember t.background && t.entries.all fun e => isMember e.2) = true ↔ _
  rw [Bool.and_eq_true, List.all_eq_true]
  exact ⟨fun ⟨background, entries⟩ => ⟨background, entries⟩,
    fun ⟨background, entries⟩ => ⟨background, entries⟩⟩

instance [Multiplicative (Member (W := W))] :
    Multiplicative (Member (W := SparseTuple W width)) where
  zero_mem := member_iff.mpr (uniform_throughout Multiplicative.zero_mem)
  one_mem := member_iff.mpr (uniform_throughout Multiplicative.one_mem)
  times_mem left right := member_iff.mpr
    (combine_throughout Multiplicative.times_mem (member_iff.mp left) (member_iff.mp right))

-- Each coordinate is divided by itself, so that one where the divisor is zero gives zero.
instance [dividing : direction.Dividing (Member (W := W))] :
    direction.Dividing (Member (W := SparseTuple W width)) where
  divideOrZero_mem dividend divisor := member_iff.mpr
    (combine_throughout dividing.divideOrZero_mem (member_iff.mp dividend) (member_iff.mp divisor))

end SparseTuple

namespace Nested

instance multiplicative [Multiplicative (Member (W := W))] :
    (widths : List Width) → Multiplicative (Member (W := Nested W widths))
  | [] => inferInstanceAs (Multiplicative (Member (W := W)))
  | width :: widths =>
    have := multiplicative widths
    inferInstanceAs (Multiplicative (Member (W := SparseTuple (Nested W widths) width)))

instance dividing [direction.Dividing (Member (W := W))] :
    (widths : List Width) → direction.Dividing (Member (W := Nested W widths))
  | [] => inferInstanceAs (direction.Dividing (Member (W := W)))
  | width :: widths =>
    have := dividing widths
    inferInstanceAs (direction.Dividing (Member (W := SparseTuple (Nested W widths) width)))

theorem contains_required_nested (direction : Direction)
    (reported : (properties W).contains direction.required = true) (widths : List Width) :
    (properties (Nested W widths)).contains direction.required = true := by
  induction widths with
  | nil => exact reported
  | cons width widths ih => exact SparseTuple.contains_required direction ih

end Nested

namespace Automaton

-- Members in, members out, over the weights themselves and over tuples of tuples of them
-- to any depth. Whether a potential is zero anywhere does not matter.
theorem reweight_member (direction : Direction) [direction.Retains (Member (W := W))]
    (widths : List Width) {a : Automaton (Nested W widths)} {potentials : Array (Nested W widths)}
    (closed : a.Closed) (all : a.All Member) (members : ∀ v ∈ potentials, Member v) :
    ((properties W).contains direction.required = true →
        ∃ b, a.reweight direction potentials = .ok b) ∧
      ∀ b, a.reweight direction potentials = .ok b → b.All Member := by
  have := Direction.Retains.multiplicative (P := Member (W := W)) direction
  have := Direction.Retains.dividing (P := Member (W := W)) direction
  constructor
  · intro reported
    exact reweight_defined potentials (Nested.contains_required_nested direction reported widths)
      closed
  · intro b reweighted
    exact reweight_all closed members all reweighted

def patch (c d : Option Rat) : Nested (Tropical Exact) [.bits8, .bits16] :=
  let inner : SparseTuple (Tropical Exact) .bits16 :=
    ⟨Tropical.cost c, [(⟨4, by decide, by decide⟩, Tropical.cost d)]⟩
  (⟨.uniform (Tropical.cost c), [(⟨6, by decide, by decide⟩, inner)]⟩ :
    SparseTuple (SparseTuple (Tropical Exact) .bits16) .bits8)

def patched : Automaton (Nested (Tropical Exact) [.bits8, .bits16]) where
  states := #[
    ⟨patch none (some 1), #[⟨1, 1, patch (some 2) none, 1⟩]⟩,
    ⟨patch (some 3) (some 4), #[⟨2, 2, patch none (some 5), 0⟩]⟩]
  start := some 0

def patchedPotentials : Array (Nested (Tropical Exact) [.bits8, .bits16]) :=
  #[patch (some 7) none, patch none (some 8)]

theorem patched_member :
    Direction.toInitial.Retains (Member (W := Tropical Exact)) ∧ patched.Closed ∧
      patched.All Member ∧ (∀ v ∈ patchedPotentials, Member v) ∧
      (∀ v ∈ patchedPotentials, ¬ Member (divide .left (patch (some 3) (some 4)) v)) ∧
      ∃ b, patched.reweight .toInitial patchedPotentials = .ok b ∧ b.All Member := by
  have retains : Direction.toInitial.Retains (Member (W := Tropical Exact)) := inferInstance
  have closed : patched.Closed := by decide
  have all : patched.All Member := by decide
  have members : ∀ v ∈ patchedPotentials, Member v := by decide
  have outside : ∀ v ∈ patchedPotentials,
      ¬ Member (divide .left (patch (some 3) (some 4)) v) := by
    decide +kernel
  obtain ⟨defined, kept⟩ :=
    reweight_member (W := Tropical Exact) .toInitial [.bits8, .bits16] closed all members
  obtain ⟨b, reweighted⟩ := defined (Tropical.contains_required .toInitial)
  exact ⟨retains, closed, all, members, outside, b, reweighted, kept b reweighted⟩

end Automaton
end WeightedAutomata
