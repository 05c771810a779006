import Mathlib.Algebra.BigOperators.Group.List.Basic
import Mathlib.Algebra.Ring.Defs
import WeightedAutomata.Proofs.Weight.Laws

namespace WeightedAutomata.Weight
variable {W : Type} [Weight W] {P : W → Prop} {a b c : W} {xs ys : List W}

def sum (xs : List W) : W :=
  xs.foldr plus zero

@[simp] theorem sum_nil : sum ([] : List W) = zero := rfl

@[simp] theorem sum_cons (x : W) (xs : List W) : sum (x :: xs) = plus x (sum xs) := rfl

theorem sum_map_congr {X : Type} {f g : X → W} {l : List X} (same : ∀ x ∈ l, f x = g x) :
    sum (l.map f) = sum (l.map g) :=
  congrArg sum (List.map_congr_left same)

section Lawful
variable [Lawful P]

theorem sum_mem (members : ∀ x ∈ xs, P x) : P (sum xs) := by
  induction xs with
  | nil => exact Lawful.zero_mem
  | cons x xs ih =>
    exact Lawful.plus_mem (members x (by simp)) (ih fun y later => members y (by simp [later]))

theorem plus_zero (member : P a) : plus a zero = a := by
  rw [Lawful.plus_comm member Lawful.zero_mem, Lawful.zero_plus member]

theorem sum_append (xMembers : ∀ x ∈ xs, P x) (yMembers : ∀ y ∈ ys, P y) :
    sum (xs ++ ys) = plus (sum xs) (sum ys) := by
  induction xs with
  | nil => exact (Lawful.zero_plus (sum_mem yMembers)).symm
  | cons x xs ih =>
    have rest : ∀ y ∈ xs, P y := fun y later => xMembers y (by simp [later])
    rw [List.cons_append, sum_cons, sum_cons, ih rest,
      Lawful.plus_assoc (xMembers x (by simp)) (sum_mem rest) (sum_mem yMembers)]

theorem sum_eq_zero (P : W → Prop) [Lawful P] (nothing : ∀ x ∈ xs, x = zero) : sum xs = zero := by
  induction xs with
  | nil => rfl
  | cons x xs ih =>
    rw [sum_cons, nothing x (by simp), ih fun y later => nothing y (by simp [later]),
      Lawful.zero_plus (P := P) Lawful.zero_mem]

theorem times_sum [LeftDistributive P] (factor : P c) (members : ∀ x ∈ xs, P x) :
    times c (sum xs) = sum (xs.map (times c)) := by
  induction xs with
  | nil => exact Lawful.times_zero factor
  | cons x xs ih =>
    have rest : ∀ y ∈ xs, P y := fun y later => members y (by simp [later])
    rw [sum_cons, LeftDistributive.times_plus (members x (by simp)) (sum_mem rest) factor,
      ih rest, List.map_cons, sum_cons]

theorem sum_times [RightDistributive P] (factor : P c) (members : ∀ x ∈ xs, P x) :
    times (sum xs) c = sum (xs.map (times · c)) := by
  induction xs with
  | nil => exact Lawful.zero_times factor
  | cons x xs ih =>
    have rest : ∀ y ∈ xs, P y := fun y later => members y (by simp [later])
    rw [sum_cons, RightDistributive.plus_times (members x (by simp)) (sum_mem rest) factor,
      ih rest, List.map_cons, sum_cons]

theorem foldl_plus (start : P a) (members : ∀ x ∈ xs, P x) :
    xs.foldl plus a = plus a (sum xs) := by
  induction xs generalizing a with
  | nil => exact (plus_zero start).symm
  | cons x xs ih =>
    have first : P x := members x (by simp)
    have rest : ∀ y ∈ xs, P y := fun y later => members y (by simp [later])
    rw [List.foldl_cons, ih (Lawful.plus_mem start first) rest, sum_cons,
      Lawful.plus_assoc start first (sum_mem rest)]

theorem sum_map_plus {X : Type} {f g : X → W} {l : List X} (left : ∀ x ∈ l, P (f x))
    (right : ∀ x ∈ l, P (g x)) :
    sum (l.map fun x => plus (f x) (g x)) = plus (sum (l.map f)) (sum (l.map g)) := by
  induction l with
  | nil => exact (Lawful.zero_plus (P := P) Lawful.zero_mem).symm
  | cons x l ih =>
    have fRest : ∀ y ∈ l, P (f y) := fun y later => left y (by simp [later])
    have gRest : ∀ y ∈ l, P (g y) := fun y later => right y (by simp [later])
    have fx : P (f x) := left x (by simp)
    have gx : P (g x) := right x (by simp)
    have fSum : P (sum (l.map f)) := sum_mem (List.forall_mem_map.mpr fRest)
    have gSum : P (sum (l.map g)) := sum_mem (List.forall_mem_map.mpr gRest)
    simp only [List.map_cons, sum_cons]
    rw [ih fRest gRest, Lawful.plus_assoc fx gx (Lawful.plus_mem fSum gSum),
      ← Lawful.plus_assoc gx fSum gSum, Lawful.plus_comm gx fSum,
      Lawful.plus_assoc fSum gx gSum, ← Lawful.plus_assoc fx fSum (Lawful.plus_mem gx gSum)]

theorem divideOrZero_sum (direction : Direction) [direction.DividesOut P] [direction.Distributes P]
    (members : ∀ x ∈ xs, P x) (divisor : P a) (nonzero : a ≠ zero) :
    divideOrZero direction.side (sum xs) a = sum (xs.map (divideOrZero direction.side · a)) := by
  induction xs with
  | nil => exact Direction.Absorbs.zero_divideOrZero divisor
  | cons x xs ih =>
    have rest : ∀ y ∈ xs, P y := fun y later => members y (by simp [later])
    rw [sum_cons, Direction.divideOrZero_plus direction (members x (by simp)) (sum_mem rest) divisor
      nonzero, ih rest, List.map_cons, sum_cons]

-- The order of the summands does not count.
theorem sum_perm (perm : xs.Perm ys) (members : ∀ x ∈ xs, P x) : sum xs = sum ys := by
  induction perm with
  | nil => rfl
  | cons x perm ih =>
    rw [sum_cons, sum_cons, ih fun y later => members y (by simp [later])]
  | swap x y rest =>
    have restMember : P (sum rest) := sum_mem fun z later => members z (by simp [later])
    have xMember : P x := members x (by simp)
    have yMember : P y := members y (by simp)
    simp only [sum_cons]
    rw [← Lawful.plus_assoc yMember xMember restMember, Lawful.plus_comm yMember xMember,
      Lawful.plus_assoc xMember yMember restMember]
  | trans first _ ihFirst ihSecond =>
    exact (ihFirst members).trans (ihSecond fun x present => members x (first.mem_iff.mpr present))

end Lawful

-- The weights in `P` as a semiring of the library.
def Among (P : W → Prop) : Type :=
  {w : W // P w}

section Semiring
variable [Lawful P]

instance : Zero (Among P) where
  zero := ⟨zero, Lawful.zero_mem⟩

instance : One (Among P) where
  one := ⟨one, Lawful.one_mem⟩

instance : Add (Among P) where
  add x y := ⟨plus x.1 y.1, Lawful.plus_mem x.2 y.2⟩

instance : Mul (Among P) where
  mul x y := ⟨times x.1 y.1, Lawful.times_mem x.2 y.2⟩

open Classical in
noncomputable def lift (P : W → Prop) [Lawful P] (w : W) : Among P :=
  if member : P w then ⟨w, member⟩ else 0

theorem lift_eq (member : P a) : lift P a = ⟨a, member⟩ :=
  dif_pos member

theorem lift_injective (aMember : P a) (bMember : P b) (same : lift P a = lift P b) : a = b := by
  rw [lift_eq aMember, lift_eq bMember] at same
  exact congrArg Subtype.val same

theorem lift_zero : lift P zero = 0 :=
  lift_eq Lawful.zero_mem

theorem lift_one : lift P one = 1 :=
  lift_eq Lawful.one_mem

theorem lift_plus (aMember : P a) (bMember : P b) : lift P (plus a b) = lift P a + lift P b := by
  rw [lift_eq aMember, lift_eq bMember, lift_eq (Lawful.plus_mem aMember bMember)]
  rfl

theorem lift_times (aMember : P a) (bMember : P b) : lift P (times a b) = lift P a * lift P b := by
  rw [lift_eq aMember, lift_eq bMember, lift_eq (Lawful.times_mem aMember bMember)]
  rfl

theorem lift_sum (members : ∀ x ∈ xs, P x) : lift P (sum xs) = (xs.map (lift P)).sum := by
  induction xs with
  | nil => exact lift_zero
  | cons x xs ih =>
    have rest : ∀ y ∈ xs, P y := fun y later => members y (by simp [later])
    rw [sum_cons, lift_plus (members x (by simp)) (sum_mem rest), ih rest, List.map_cons,
      List.sum_cons]

variable [LeftDistributive P] [RightDistributive P]

instance : Semiring (Among P) where
  add_assoc x y z := Subtype.ext (Lawful.plus_assoc x.2 y.2 z.2)
  add_comm x y := Subtype.ext (Lawful.plus_comm x.2 y.2)
  zero_add x := Subtype.ext (Lawful.zero_plus x.2)
  add_zero x := Subtype.ext (plus_zero x.2)
  mul_assoc x y z := Subtype.ext (Lawful.times_assoc x.2 y.2 z.2)
  one_mul x := Subtype.ext (Lawful.one_times x.2)
  mul_one x := Subtype.ext (Lawful.times_one x.2)
  zero_mul x := Subtype.ext (Lawful.zero_times x.2)
  mul_zero x := Subtype.ext (Lawful.times_zero x.2)
  left_distrib x y z := Subtype.ext (LeftDistributive.times_plus y.2 z.2 x.2)
  right_distrib x y z := Subtype.ext (RightDistributive.plus_times x.2 y.2 z.2)
  nsmul := nsmulRec

end Semiring
end WeightedAutomata.Weight
