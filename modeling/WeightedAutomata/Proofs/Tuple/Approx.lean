import WeightedAutomata.Proofs.Reweight.Membership
import WeightedAutomata.Proofs.Tuple.Merge
import WeightedAutomata.Proofs.Tuple.Trail

namespace WeightedAutomata
open Weight
variable {W Δ : Type}

-- The tests and the equality of a weight type tell zero and one apart.
class Weight.Apart (W : Type) [Weight W] : Prop where
  one_beq_one : ((one : W) == one) = true
  zero_beq_one : ((zero : W) == one) = false
  one_beq_zero : ((one : W) == zero) = false
  isZero_one : isZero (one : W) = false
  isOne_one : isOne (one : W) = true
  isOne_zero : isOne (zero : W) = false

theorem Weight.Apart.of_ne [Weight W] [LawfulBEq W] (P : W → Prop) [tested : Tested P]
    (zero_mem : P zero) (one_mem : P one) (differ : (zero : W) ≠ one) : Apart W where
  one_beq_one := beq_self_eq_true _
  zero_beq_one := beq_false_of_ne differ
  one_beq_zero := beq_false_of_ne differ.symm
  isZero_one := Bool.eq_false_iff.mpr fun same => differ ((tested.isZero_iff one_mem).mp same).symm
  isOne_one := (tested.isOne_iff one_mem).mpr rfl
  isOne_zero := Bool.eq_false_iff.mpr fun same => differ ((tested.isOne_iff zero_mem).mp same)

namespace SparseTuple
variable {width : Width} {s t : SparseTuple W width}

def padded (t : SparseTuple W width) (k : Key width) : SparseTuple W width :=
  ⟨t.background, t.entries ++ [(k, t.background)]⟩

theorem part_padded (t : SparseTuple W width) (k : Key width) (c : Coordinate width) :
    (t.padded k).part c = t.part c := by
  cases c with
  | background => rfl
  | key j =>
    change (t.padded k).get j = t.get j
    unfold get padded
    rw [List.find?_append]
    cases t.entries.find? fun e => e.1 = j with
    | some e => rfl
    | none => by_cases own : k = j <;> simp [own]

variable [Weight W]

theorem uniform_beq (a b : W) :
    ((uniform a : SparseTuple W width) == uniform b) = (a == b) := by
  rw [beq_def]
  exact Bool.and_true _

instance [apart : Apart W] : Apart (SparseTuple W width) where
  one_beq_one := (uniform_beq _ _).trans apart.one_beq_one
  zero_beq_one := (uniform_beq _ _).trans apart.zero_beq_one
  one_beq_zero := (uniform_beq _ _).trans apart.one_beq_zero
  isZero_one := (uniform_beq _ _).trans apart.one_beq_zero
  isOne_one := (uniform_beq _ _).trans apart.one_beq_one
  isOne_zero := (uniform_beq _ _).trans apart.zero_beq_one

theorem kind_eq_one_iff : t.kind = .one ↔
    t.entries = [] ∧ isZero t.background = false ∧ isOne t.background = true := by
  unfold kind
  cases t.entries <;> cases isZero t.background <;> cases isOne t.background <;> simp

variable [Rounding W Δ] {delta : Δ}

def verdict (delta : Δ) (a b : W) : W :=
  if Rounding.approxEq delta a b then one else zero

theorem verdict_beq_one [apart : Apart W] (a b : W) :
    (verdict delta a b == one) = Rounding.approxEq delta a b := by
  unfold verdict
  cases Rounding.approxEq delta a b with
  | true => exact apart.one_beq_one
  | false => exact apart.zero_beq_one

theorem combine_entries_eq_nil {g : W → W → W} (left : Ascending s.entries)
    (right : Ascending t.entries) : (combine (fun _ => g) s t).entries = [] ↔
      ∀ k ∈ unionKeys s t, (g (s.get k) (t.get k) == g s.background t.background) = true := by
  rw [combine_eq _ left right, ofAscending, List.filter_eq_nil_iff, List.forall_mem_map]
  simp

-- Entries that are approximately equal are dropped if the backgrounds are. If those are not,
-- the background is zero, and the comparison is not one whatever it stores.
theorem approxEq_iff [apart : Apart W] (left : Ascending s.entries) (right : Ascending t.entries) :
    Rounding.approxEq delta s t = true ↔
      Rounding.approxEq delta s.background t.background = true ∧
        ∀ k, Rounding.approxEq delta (s.get k) (t.get k) = true := by
  have compared : Rounding.approxEq delta s t = true ↔
      (combine (fun _ => verdict delta) s t).kind = .one := decide_eq_true_iff
  have background : (combine (fun _ => verdict delta) s t).background =
      verdict delta s.background t.background := rfl
  rw [compared, kind_eq_one_iff, combine_entries_eq_nil left right, background]
  by_cases agree : Rounding.approxEq delta s.background t.background = true
  · have one_left : verdict delta s.background t.background = one := if_pos agree
    rw [one_left, apart.isZero_one, apart.isOne_one]
    simp only [verdict_beq_one, and_true]
    constructor
    · intro met
      refine ⟨agree, fun k => ?_⟩
      by_cases stored : k ∈ unionKeys s t
      · exact met k stored
      · have absent := fun key => stored ((mem_unionKeys left right).mpr key)
        rwa [get_of_not_mem_keys fun key => absent (.inl key),
          get_of_not_mem_keys fun key => absent (.inr key)]
    · rintro ⟨-, everywhere⟩
      exact fun k _ => everywhere k
  · have zero_left : verdict delta s.background t.background = zero := if_neg agree
    rw [zero_left, apart.isOne_zero]
    constructor
    · rintro ⟨-, -, impossible⟩
      cases impossible
    · rintro ⟨background, -⟩
      exact absurd background agree

end SparseTuple

namespace Nested
variable {widths : List Width}

def Ordered : (widths : List Width) → Nested W widths → Prop
  | [] => fun _ => True
  | _ :: widths => fun t =>
    SparseTuple.Ascending (SparseTuple.entries t) ∧ SparseTuple.Throughout (Ordered widths) t

variable [Weight W]

instance rounding [Rounding W Δ] : (widths : List Width) → Rounding (Nested W widths) Δ
  | [] => inferInstanceAs (Rounding W Δ)
  | width :: widths =>
    haveI := rounding widths
    inferInstanceAs (Rounding (SparseTuple (Nested W widths) width) Δ)

instance apart [Apart W] : (widths : List Width) → Apart (Nested W widths)
  | [] => inferInstanceAs (Apart W)
  | width :: widths =>
    have := apart widths
    inferInstanceAs (Apart (SparseTuple (Nested W widths) width))

theorem ordered_of_canonical {t : Nested W widths} (canonical : Canonical widths t) :
    Ordered widths t := by
  induction widths with
  | nil => trivial
  | cons width widths ih =>
    obtain ⟨stored, background, entries⟩ := canonical
    exact ⟨stored.ascending, ih background, fun e present => ih (entries e present)⟩

theorem scalar_member {t : Nested W widths} (member : Member t) (trail : Trail widths) :
    Member (scalar trail t) := by
  induction widths with
  | nil => exact member
  | cons width widths ih => exact ih ((SparseTuple.member_iff.mp member).part trail.1) trail.2

variable [Rounding W Δ] [Apart W] {delta : Δ}

theorem approxEq_nested {s t : Nested W widths} (left : Ordered widths s)
    (right : Ordered widths t) : Rounding.approxEq delta s t = true ↔
      ∀ trail, Rounding.approxEq delta (scalar trail s) (scalar trail t) = true := by
  induction widths with
  | nil => exact ⟨fun agree _ => agree, fun agree => agree ()⟩
  | cons width widths ih =>
    obtain ⟨leftAscending, leftValues⟩ := left
    obtain ⟨rightAscending, rightValues⟩ := right
    have inner := fun c => ih (SparseTuple.Throughout.part leftValues c)
      (SparseTuple.Throughout.part rightValues c)
    refine (SparseTuple.approxEq_iff leftAscending rightAscending).trans ⟨?_, ?_⟩
    · rintro ⟨background, keys⟩ ⟨c, trail⟩
      cases c with
      | background => exact (inner .background).mp background trail
      | key k => exact (inner (.key k)).mp (keys k) trail
    · intro agree
      exact ⟨(inner .background).mpr fun trail => agree (.background, trail),
        fun k => (inner (.key k)).mpr fun trail => agree (.key k, trail)⟩

-- A comparison of tuples asks for the backgrounds and for what is read at each key, and one
-- of nested tuples for the scalars along each trail. So it is as symmetric, as reflexive and as
-- monotone as that of scalars, and does not tell apart what stores other keys but reads the same.
theorem approxEq_pointwise (delta : Δ) :
    (∀ {width : Width} {s t : SparseTuple W width}, s.Canonical → t.Canonical →
      (Rounding.approxEq delta s t = true ↔
        Rounding.approxEq delta s.background t.background = true ∧
          ∀ k, Rounding.approxEq delta (s.get k) (t.get k) = true)) ∧
    ∀ {widths : List Width} {s t : Nested W widths}, Canonical widths s → Canonical widths t →
      (Rounding.approxEq delta s t = true ↔
        ∀ trail, Rounding.approxEq delta (scalar trail s) (scalar trail t) = true) ∧
      ((∀ a b : W, Rounding.approxEq delta a b = true → Rounding.approxEq delta b a = true) →
        Rounding.approxEq delta s t = true → Rounding.approxEq delta t s = true) ∧
      ((∀ a : W, Member a → Rounding.approxEq delta a a = true) → Member s →
        Rounding.approxEq delta s s = true) ∧
      (∀ wider, (∀ a b : W, Rounding.approxEq delta a b = true →
          Rounding.approxEq wider a b = true) →
        Rounding.approxEq delta s t = true → Rounding.approxEq wider s t = true) ∧
      ∀ {u v : Nested W widths}, Ordered widths u → Ordered widths v →
        (∀ trail, scalar trail u = scalar trail s) → (∀ trail, scalar trail v = scalar trail t) →
          Rounding.approxEq delta u v = Rounding.approxEq delta s t := by
  constructor
  · intro width s t left right
    exact SparseTuple.approxEq_iff left.ascending right.ascending
  · intro widths s t leftCanonical rightCanonical
    have left := ordered_of_canonical leftCanonical
    have right := ordered_of_canonical rightCanonical
    refine ⟨approxEq_nested left right, ?_, ?_, ?_, ?_⟩
    · intro symmetric agree
      refine (approxEq_nested right left).mpr fun trail => ?_
      exact symmetric _ _ ((approxEq_nested left right).mp agree trail)
    · intro reflexive member
      exact (approxEq_nested left left).mpr fun trail => reflexive _ (scalar_member member trail)
    · intro wider monotone agree
      refine (approxEq_nested left right).mpr fun trail => ?_
      exact monotone _ _ ((approxEq_nested left right).mp agree trail)
    · intro u v uOrdered vOrdered uReads vReads
      rw [Bool.eq_iff_iff, approxEq_nested uOrdered vOrdered, approxEq_nested left right]
      simp only [uReads, vReads]

def priced (c : Rat) : Nested (Tropical Exact) [.bits8, .bits16] :=
  let row : SparseTuple (Tropical Exact) .bits16 :=
    ⟨Tropical.cost (some 2), [(⟨82, by decide, by decide⟩, Tropical.cost (some c))]⟩
  (⟨.uniform (Tropical.cost (some 1)), [(⟨81, by decide, by decide⟩, row)]⟩ :
    SparseTuple (SparseTuple (Tropical Exact) .bits16) .bits8)

def padded : Nested (Tropical Exact) [.bits8, .bits16] :=
  SparseTuple.padded (priced 3) ⟨83, by decide, by decide⟩

theorem priced_approxEq_pointwise :
    Apart (Tropical Exact) ∧ Canonical _ (priced 3) ∧ Canonical _ (priced 4) ∧
      ¬ Canonical _ padded ∧
      (∀ trail, Rounding.approxEq (Exact.finite 1) (scalar trail (priced 3))
        (scalar trail (priced 4)) = true) ∧
      (∃ trail, Rounding.approxEq (Exact.finite (1 / 2)) (scalar trail (priced 3))
        (scalar trail (priced 4)) = false) ∧
      Rounding.approxEq (Exact.finite 1) padded (priced 4) = true := by
  have apart : Apart (Tropical Exact) := .of_ne Member rfl rfl (by decide)
  have left : Canonical _ (priced 3) := by decide
  have right : Canonical _ (priced 4) := by decide
  have near : Rounding.approxEq (Exact.finite 1) (priced 3) (priced 4) = true := by
    decide +kernel
  have far : Rounding.approxEq (Exact.finite (1 / 2)) (priced 3) (priced 4) = false := by
    decide +kernel
  have ordered : Ordered _ padded := by
    obtain ⟨-, background, entries⟩ := ordered_of_canonical left
    refine ⟨?_, background, ?_⟩
    · unfold SparseTuple.Ascending
      decide
    · exact List.forall_mem_append.mpr ⟨entries, List.forall_mem_singleton.mpr background⟩
  have same : ∀ trail, scalar trail padded = scalar trail (priced 3) := by
    intro trail
    exact congrArg (scalar trail.2) (SparseTuple.part_padded (priced 3) _ trail.1)
  obtain ⟨reads, -, -, -, unstored⟩ :=
    (approxEq_pointwise (W := Tropical Exact) (.finite 1)).2 left right
  obtain ⟨halfReads, -⟩ := (approxEq_pointwise (W := Tropical Exact) (.finite (1 / 2))).2 left right
  refine ⟨apart, left, right, by decide, reads.mp near, ?_, ?_⟩
  · refine Classical.byContradiction fun none => ?_
    have everywhere := halfReads.mpr fun trail =>
      Bool.of_not_eq_false fun differ => none ⟨trail, differ⟩
    cases far.symm.trans everywhere
  · exact (unstored ordered (ordered_of_canonical right) same fun _ => rfl).trans near

end Nested
end WeightedAutomata
