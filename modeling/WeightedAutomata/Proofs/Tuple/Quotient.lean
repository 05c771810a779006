import WeightedAutomata.Proofs.Tuple.Trail
import WeightedAutomata.Proofs.Weight.Tropical

namespace WeightedAutomata
open Weight
variable {W : Type} [Weight W]

-- Division undoes multiplication by everything but zero. Absorbing division is told from
-- it by what it makes of a divisor that is zero.
class Weight.Undoing (P : W → Prop) : Prop where
  zero_times : ∀ {a : W}, P a → times zero a = zero
  times_zero : ∀ {a : W}, P a → times a zero = zero
  divide_times_left : ∀ {a b : W}, P a → P b → a ≠ zero → divide .left (times a b) a = b
  divide_times_right : ∀ {a b : W}, P a → P b → a ≠ zero → divide .right (times b a) a = b
  divideOrZero_zero : ∀ (side : Side) (c : W), divideOrZero side c zero = zero
  divideOrZero_eq : ∀ (side : Side) (c : W) {a : W}, P a → a ≠ zero →
    divideOrZero side c a = divide side c a

namespace Nested
variable {P : W → Prop} {widths : List Width} {a b : Nested W widths}

theorem times_eq_merge (widths : List Width) :
    (times : Nested W widths → Nested W widths → Nested W widths) = merge times widths := by
  induction widths with
  | nil => rfl
  | cons width widths ih => exact congrArg (fun f => SparseTuple.combine fun _ => f) ih

theorem divide_eq_merge (side : Side) (widths : List Width) :
    (divide side : Nested W widths → Nested W widths → Nested W widths) =
      merge (divide side) widths := by
  induction widths with
  | nil => rfl
  | cons width widths ih => exact congrArg (fun f => SparseTuple.combine fun _ => f) ih

theorem divideOrZero_eq_merge (side : Side) (widths : List Width) :
    (divideOrZero side : Nested W widths → Nested W widths → Nested W widths) =
      merge (divideOrZero side) widths := by
  induction widths with
  | nil => rfl
  | cons width widths ih => exact congrArg (fun f => SparseTuple.combine fun _ => f) ih

section Scalars
variable (left : Canonical widths a) (right : Canonical widths b) (side : Side)
include left right

theorem times_canonical : Canonical widths (times a b) := by
  rw [times_eq_merge]
  exact merge_canonical left right

theorem divide_canonical : Canonical widths (divide side a b) := by
  rw [divide_eq_merge]
  exact merge_canonical left right

theorem divideOrZero_canonical : Canonical widths (divideOrZero side a b) := by
  rw [divideOrZero_eq_merge]
  exact merge_canonical left right

variable [LawfulBEq W] (trail : Trail widths)

theorem scalar_times : scalar trail (times a b) = times (scalar trail a) (scalar trail b) := by
  rw [times_eq_merge]
  exact scalar_merge left right trail

theorem scalar_divide :
    scalar trail (divide side a b) = divide side (scalar trail a) (scalar trail b) := by
  rw [divide_eq_merge]
  exact scalar_merge left right trail

theorem scalar_divideOrZero :
    scalar trail (divideOrZero side a b) = divideOrZero side (scalar trail a) (scalar trail b) := by
  rw [divideOrZero_eq_merge]
  exact scalar_merge left right trail

end Scalars

-- A quotient of a product by one of its factors: the other factor's scalar where the
-- divisor's is not zero, and zero where it is.
def Undone (divisor other quotient : Nested W widths) : Prop :=
  ∀ trail, (scalar trail divisor ≠ zero → scalar trail quotient = scalar trail other) ∧
    (scalar trail divisor = zero → scalar trail quotient = zero)

theorem Undone.times_scalar [undoing : Undoing P] {quotient : Nested W widths}
    (undone : Undone a b quotient) (aMember : Over P widths a) (bMember : Over P widths b)
    (trail : Trail widths) :
    times (scalar trail a) (scalar trail quotient) = times (scalar trail a) (scalar trail b) ∧
      times (scalar trail quotient) (scalar trail a) =
        times (scalar trail b) (scalar trail a) := by
  by_cases none : scalar trail a = zero
  · have zeroMember : P zero := none ▸ scalar_of_over aMember trail
    have other : P (scalar trail b) := scalar_of_over bMember trail
    rw [(undone trail).2 none, none, undoing.zero_times other, undoing.times_zero other]
    exact ⟨undoing.times_zero zeroMember, undoing.times_zero zeroMember⟩
  · rw [(undone trail).1 none]
    exact ⟨rfl, rfl⟩

section Laws
variable [LawfulBEq W] [undoing : Undoing P] {side : Side} {product : Nested W widths}

theorem divideOrZero_undone (canonical : Canonical widths product) (aMember : Over P widths a)
    (undoes : ∀ trail, scalar trail a ≠ zero →
      divide side (scalar trail product) (scalar trail a) = scalar trail b) :
    Undone a b (divideOrZero side product a) := by
  intro trail
  rw [scalar_divideOrZero canonical (canonical_of_over aMember)]
  constructor
  · intro nonzero
    rw [undoing.divideOrZero_eq side _ (scalar_of_over aMember trail) nonzero]
    exact undoes trail nonzero
  · intro none
    rw [none]
    exact undoing.divideOrZero_zero side _

theorem Undone.times_eq {quotient : Nested W widths} (undone : Undone a b quotient)
    (canonical : Canonical widths quotient) (aMember : Over P widths a)
    (bMember : Over P widths b) :
    times a quotient = times a b ∧ times quotient a = times b a := by
  have left := canonical_of_over aMember
  have right := canonical_of_over bMember
  constructor
  · apply ext (times_canonical left canonical) (times_canonical left right)
    intro trail
    rw [scalar_times left canonical, scalar_times left right]
    exact (undone.times_scalar aMember bMember trail).1
  · apply ext (times_canonical canonical left) (times_canonical right left)
    intro trail
    rw [scalar_times canonical left, scalar_times right left]
    exact (undone.times_scalar aMember bMember trail).2

theorem divide_eq_divideOrZero (aMember : Over P widths a) (canonical : Canonical widths b)
    (nonzero : ∀ trail, scalar trail a ≠ zero) (side : Side) :
    divide side b a = divideOrZero side b a := by
  have divisor := canonical_of_over aMember
  apply ext (divide_canonical canonical divisor side)
    (divideOrZero_canonical canonical divisor side)
  intro trail
  rw [scalar_divide canonical divisor, scalar_divideOrZero canonical divisor,
    undoing.divideOrZero_eq side _ (scalar_of_over aMember trail) (nonzero trail)]

theorem Undone.eq {quotient : Nested W widths} (undone : Undone a b quotient)
    (canonical : Canonical widths quotient) (right : Canonical widths b)
    (nonzero : ∀ trail, scalar trail a ≠ zero) : quotient = b :=
  ext canonical right fun trail => (undone trail).1 (nonzero trail)

theorem divideOrZero_zero (P : W → Prop) [undoing : Undoing P] (canonical : Canonical widths b)
    (side : Side) : divideOrZero side b zero = zero := by
  apply ext (divideOrZero_canonical canonical (zero_canonical widths) side) (zero_canonical widths)
  intro trail
  rw [scalar_divideOrZero canonical (zero_canonical widths), scalar_zero]
  exact undoing.divideOrZero_zero side _

-- A scalar of the factor that is zero loses the other factor's scalar, and nothing else
-- is lost, whichever keys the two tuples store and whatever their backgrounds are.
theorem divideOrZero_undoes_times (widths : List Width) {a b : Nested W widths}
    (aMember : Over P widths a) (bMember : Over P widths b) :
    Undone a b (divideOrZero .left (times a b) a) ∧
      Undone a b (divideOrZero .right (times b a) a) ∧
      times a (divideOrZero .left (times a b) a) = times a b ∧
      times (divideOrZero .right (times b a) a) a = times b a ∧
      (∀ side, divideOrZero side b zero = zero) ∧
      ((∀ trail, scalar trail a ≠ zero) →
        (∀ side, divide side b a = divideOrZero side b a) ∧
          divide .left (times a b) a = b ∧ divide .right (times b a) a = b) := by
  have left := canonical_of_over aMember
  have right := canonical_of_over bMember
  have before := times_canonical left right
  have after := times_canonical right left
  have undoneLeft : Undone a b (divideOrZero .left (times a b) a) := by
    apply divideOrZero_undone before aMember
    intro trail nonzero
    rw [scalar_times left right]
    exact undoing.divide_times_left (scalar_of_over aMember trail) (scalar_of_over bMember trail)
      nonzero
  have undoneRight : Undone a b (divideOrZero .right (times b a) a) := by
    apply divideOrZero_undone after aMember
    intro trail nonzero
    rw [scalar_times right left]
    exact undoing.divide_times_right (scalar_of_over aMember trail) (scalar_of_over bMember trail)
      nonzero
  have quotientLeft := divideOrZero_canonical before left .left
  have quotientRight := divideOrZero_canonical after left .right
  refine ⟨undoneLeft, undoneRight, (undoneLeft.times_eq quotientLeft aMember bMember).1,
    (undoneRight.times_eq quotientRight aMember bMember).2, divideOrZero_zero P right, ?_⟩
  intro nonzero
  have plain := fun product canonical side =>
    divide_eq_divideOrZero (b := product) aMember canonical nonzero side
  refine ⟨plain b right, ?_, ?_⟩
  · rw [plain _ before]
    exact undoneLeft.eq quotientLeft right nonzero
  · rw [plain _ after]
    exact undoneRight.eq quotientRight right nonzero

end Laws

instance : Undoing (Member (W := Tropical Exact)) where
  zero_times := Lawful.zero_times
  times_zero := Lawful.times_zero
  divide_times_left := by
    intro a b aMember bMember nonzero
    obtain ⟨c, rfl⟩ := Tropical.cost_of_nonzero aMember nonzero
    obtain ⟨d, rfl⟩ := Tropical.member_iff.mp bMember
    rw [Tropical.times_cost, Tropical.divide_cost]
    cases d <;> simp [Tropical.joined]
  divide_times_right := by
    intro a b aMember bMember nonzero
    obtain ⟨c, rfl⟩ := Tropical.cost_of_nonzero aMember nonzero
    obtain ⟨d, rfl⟩ := Tropical.member_iff.mp bMember
    rw [Tropical.times_cost, Tropical.divide_cost]
    cases d <;> simp [Tropical.joined]
  divideOrZero_zero _ _ := rfl
  divideOrZero_eq := by
    intro side c a member nonzero
    obtain ⟨d, rfl⟩ := Tropical.cost_of_nonzero member nonzero
    rfl

def dotted (c d : Option Rat) : Nested (Tropical Exact) [.bits8, .bits32] :=
  let inner : SparseTuple (Tropical Exact) .bits32 :=
    ⟨Tropical.cost c, [(⟨31, by decide, by decide⟩, Tropical.cost d)]⟩
  (⟨.uniform (Tropical.cost c), [(⟨-33, by decide, by decide⟩, inner)]⟩ :
    SparseTuple (SparseTuple (Tropical Exact) .bits32) .bits8)

theorem dotted_undoes_times :
    Undoing (Member (W := Tropical Exact)) ∧
      Over Member [.bits8, .bits32] (dotted none (some 1)) ∧
      Over Member [.bits8, .bits32] (dotted (some 3) (some 4)) ∧
      Over Member [.bits8, .bits32] (dotted (some 2) none) ∧
      (∃ trail, scalar trail (dotted none (some 1)) = zero) ∧
      (∀ trail, scalar trail (dotted (some 3) (some 4)) ≠ zero) ∧
      times (dotted none (some 1)) (divideOrZero .left
          (times (dotted none (some 1)) (dotted (some 2) none)) (dotted none (some 1))) =
        times (dotted none (some 1)) (dotted (some 2) none) ∧
      divide .left (times (dotted (some 3) (some 4)) (dotted (some 2) none))
          (dotted (some 3) (some 4)) = dotted (some 2) none := by
  have undoing : Undoing (Member (W := Tropical Exact)) := inferInstance
  have hollow : Over Member [.bits8, .bits32] (dotted none (some 1)) := by decide
  have solid : Over Member [.bits8, .bits32] (dotted (some 3) (some 4)) := by decide
  have other : Over Member [.bits8, .bits32] (dotted (some 2) none) := by decide
  have proper : Over (fun w : Tropical Exact => w ≠ zero) [.bits8, .bits32]
      (dotted (some 3) (some 4)) := by decide
  have nonzero := fun trail => scalar_of_over proper trail
  obtain ⟨-, -, rejoined, -⟩ := divideOrZero_undoes_times _ hollow other
  obtain ⟨-, -, -, -, -, exact⟩ := divideOrZero_undoes_times _ solid other
  exact ⟨undoing, hollow, solid, other, ⟨⟨.background, .background, ()⟩, rfl⟩, nonzero, rejoined,
    (exact nonzero).2.1⟩

end Nested
end WeightedAutomata
