import Mathlib.Data.Rat.Floor
import WeightedAutomata.Proofs.Tuple.Approx
import WeightedAutomata.Proofs.Tuple.Reread
import WeightedAutomata.Weight.Log

namespace WeightedAutomata
open Weight

namespace Exact
variable {delta : Rat} {a : Exact}

def steps (delta v : Rat) : Int :=
  ⌊v / delta + 1 / 2⌋

theorem quantize_finite (positive : 0 < delta) (v : Rat) :
    Number.quantize (finite delta) (finite v) = finite (steps delta v * delta) := by
  have quotient : div (finite v) (finite delta) = finite (v / delta) := if_pos positive.ne'
  change mul (Number.floor (add (div (finite v) (finite delta)) (finite (1 / 2))))
    (finite delta) = _
  rw [quotient]
  rfl

theorem steps_near (positive : 0 < delta) (v : Rat) :
    |steps delta v * delta - v| ≤ delta / 2 := by
  have below : (steps delta v : Rat) ≤ v / delta + 1 / 2 := Int.floor_le _
  have above : v / delta + 1 / 2 < steps delta v + 1 := Int.lt_floor_add_one _
  have whole : v / delta * delta = v := div_mul_cancel₀ v positive.ne'
  have lower := mul_le_mul_of_nonneg_right below positive.le
  have upper := mul_lt_mul_of_pos_right above positive
  rw [abs_le]
  constructor <;> linarith

theorem steps_multiple (positive : 0 < delta) (n : Int) : steps delta (n * delta) = n := by
  rw [steps, mul_div_cancel_right₀ _ positive.ne', Int.floor_eq_iff]
  constructor <;> linarith

theorem quantize_quantize (positive : 0 < delta) (a : Exact) :
    Number.quantize (finite delta) (Number.quantize (finite delta) a) =
      Number.quantize (finite delta) a := by
  cases a with
  | finite v => rw [quantize_finite positive, quantize_finite positive, steps_multiple positive]
  | infinity negative => rfl
  | nan => rfl

theorem abs_finite (v : Rat) : Number.abs (finite v) = finite |v| := by
  change (if (decide (v < 0)) = true then finite (-v) else finite v) = _
  by_cases negative : v < 0
  · rw [if_pos (decide_eq_true negative), abs_of_neg negative]
  · rw [if_neg (by simpa using negative), abs_of_nonneg (not_lt.mp negative)]

theorem approxEq_finite_iff (u v : Rat) :
    Cost.approxEq (finite delta) (finite u) (finite v) = true ↔ |u - v| ≤ delta := by
  change Number.le (Number.abs (finite (u + -v))) (finite delta) = true ↔ _
  rw [abs_finite, ← sub_eq_add_neg]
  exact decide_eq_true_iff

theorem approxEq_quantize (positive : 0 < delta) (member : Cost.isMember a = true) :
    Cost.approxEq (finite delta) a (Number.quantize (finite delta) a) = true := by
  cases a with
  | finite v =>
    rw [quantize_finite positive, approxEq_finite_iff, abs_sub_comm]
    exact (steps_near positive v).trans (half_le_self positive.le)
  | infinity negative =>
    cases negative with
    | false => rfl
    | true => cases member
  | nan => cases member

-- Exact numbers have no exponential. Any functions may stand for it where it does not count.
@[reducible]
def exponential (exp log logOnePlus : Exact → Exact) : Exponential Exact where
  neg := neg
  exp := exp
  log := log
  logOnePlus := logOnePlus

end Exact

namespace Nested
variable {W Δ : Type} [Weight W] [Rounding W Δ] {widths : List Width} {delta : Δ}
  {t : Nested W widths}

theorem quantize_eq (delta : Δ) (t : Nested W widths) :
    Rounding.quantize delta t = mapScalars (Rounding.quantize delta) widths t := by
  induction widths with
  | nil => rfl
  | cons width widths ih =>
    exact congrArg (SparseTuple.mapValues · (t : SparseTuple (Nested W widths) width)) (funext ih)

structure Quantized (delta : Δ) (t : Nested W widths) : Prop where
  canonical : Canonical widths (Rounding.quantize delta t)
  scalars : ∀ trail, scalar trail (Rounding.quantize delta t) =
    Rounding.quantize delta (scalar trail t)
  near : Rounding.approxEq delta t (Rounding.quantize delta t) = true
  settled : Rounding.quantize delta (Rounding.quantize delta t) = Rounding.quantize delta t

-- An entry is dropped where it is quantized to the same as the background. This changes
-- nothing that is read, and so neither the comparison nor what is quantized again.
theorem quantized [LawfulBEq W] [Apart W]
    (near : ∀ a : W, Member a → Rounding.approxEq delta a (Rounding.quantize delta a) = true)
    (settled : ∀ a : W, Rounding.quantize delta (Rounding.quantize delta a) =
      Rounding.quantize delta a)
    (canonical : Canonical widths t) (member : Member t) : Quantized delta t := by
  have after : Canonical widths (Rounding.quantize delta t) := by
    rw [quantize_eq]
    exact mapScalars_over (fun _ => trivial) canonical
  have scalars : ∀ trail, scalar trail (Rounding.quantize delta t) =
      Rounding.quantize delta (scalar trail t) := by
    rw [quantize_eq]
    exact scalar_mapScalars canonical
  refine ⟨after, scalars, ?_, ?_⟩
  · rw [approxEq_nested (ordered_of_canonical canonical) (ordered_of_canonical after)]
    intro trail
    rw [scalars]
    exact near _ (scalar_member member trail)
  · rw [quantize_eq delta (Rounding.quantize delta t), mapScalars_eq_iff after]
    intro trail
    rw [scalars]
    exact settled _

end Nested

-- Weights that are exact costs, up to a constructor, and are compared and quantized as costs.
structure Priced {W : Type} [Weight W] [Rounding W Exact] (cost : W → Exact) : Prop where
  injective : ∀ {a b}, cost a = cost b → a = b
  isMember_eq : ∀ a, isMember a = Cost.isMember (cost a)
  approxEq_eq : ∀ delta a b, Rounding.approxEq delta a b = Cost.approxEq delta (cost a) (cost b)
  cost_quantize : ∀ delta a, cost (Rounding.quantize delta a) = Number.quantize delta (cost a)

theorem Priced.quantized {W : Type} [Weight W] [LawfulBEq W] [Apart W] [Rounding W Exact]
    {cost : W → Exact} (priced : Priced cost) {delta : Rat} (positive : 0 < delta)
    {widths : List Width} {t : Nested W widths} (canonical : Nested.Canonical widths t)
    (member : Member t) : Nested.Quantized (.finite delta) t := by
  refine Nested.quantized ?_ ?_ canonical member
  · intro a inside
    rw [priced.approxEq_eq, priced.cost_quantize]
    exact Exact.approxEq_quantize positive ((priced.isMember_eq a).symm.trans inside)
  · intro a
    apply priced.injective
    simp only [priced.cost_quantize, Exact.quantize_quantize positive]

namespace Tropical

instance : Apart (Tropical Exact) :=
  .of_ne Member rfl rfl (by decide)

theorem priced : Priced (Tropical.value : Tropical Exact → Exact) where
  injective := congrArg Tropical.mk
  isMember_eq _ := rfl
  approxEq_eq _ _ _ := rfl
  cost_quantize _ _ := rfl

end Tropical

namespace Log

instance {α : Type} [Exponential α] [DecidableEq α] : @LawfulBEq (Log α) Weight.toBEq :=
  inferInstanceAs (@LawfulBEq (Log α) instBEqOfDecidableEq)

variable (exp log logOnePlus : Exact → Exact)

theorem apart : let _ := Exact.exponential exp log logOnePlus
    Apart (Log Exact) := by
  intro _
  exact ⟨rfl, rfl, rfl, rfl, rfl, rfl⟩

theorem priced : let _ := Exact.exponential exp log logOnePlus
    Priced (Log.value : Log Exact → Exact) := by
  intro _
  exact ⟨congrArg Log.mk, fun _ => rfl, fun _ _ _ => rfl, fun _ _ => rfl⟩

end Log

structure Snaps (delta : Rat) (quantize : Exact → Exact) : Prop where
  finite : ∀ v : Rat, ∃ n : Int, quantize (.finite v) = .finite (n * delta) ∧
    |n * delta - v| ≤ delta / 2
  infinity : ∀ negative, quantize (.infinity negative) = .infinity negative
  nan : quantize .nan = .nan
  settled : ∀ a, quantize (quantize a) = quantize a

theorem Exact.snaps {delta : Rat} (positive : 0 < delta) :
    Snaps delta (Number.quantize (.finite delta)) where
  finite v := ⟨steps delta v, quantize_finite positive v, steps_near positive v⟩
  infinity _ := rfl
  nan := rfl
  settled := quantize_quantize positive

-- Tropical and log weights are quantized as costs, and tuples of them scalar by scalar to
-- whatever depth, which brings them no further than the step and is done for good.
theorem quantize_snaps {delta : Rat} (positive : 0 < delta) :
    Snaps delta (fun a => (Rounding.quantize (.finite delta) (Tropical.mk a)).value) ∧
    Snaps delta (fun a => (Rounding.quantize (.finite delta) (Log.mk a)).value) ∧
    ∀ widths, (∀ t : Nested (Tropical Exact) widths, Nested.Canonical widths t → Member t →
        Nested.Quantized (.finite delta) t) ∧
      ∀ exp log logOnePlus, let _ := Exact.exponential exp log logOnePlus
        ∀ t : Nested (Log Exact) widths, Nested.Canonical widths t → Member t →
          Nested.Quantized (.finite delta) t := by
  refine ⟨Exact.snaps positive, Exact.snaps positive, fun widths => ⟨?_, ?_⟩⟩
  · intro t
    exact Tropical.priced.quantized positive
  · intro exp log logOnePlus _ t
    have := Log.apart exp log logOnePlus
    exact (Log.priced exp log logOnePlus).quantized positive

namespace Nested

def charged : Nested (Tropical Exact) [.bits32, .bits64] :=
  let row (v : Rat) : SparseTuple (Tropical Exact) .bits64 :=
    ⟨Tropical.cost (some v), [(⟨102, by decide, by decide⟩, Tropical.cost none)]⟩
  (⟨row (-3 / 4), [(⟨101, by decide, by decide⟩, row (-2 / 5)),
    (⟨103, by decide, by decide⟩, .uniform (Tropical.cost (some (1 / 4))))]⟩ :
    SparseTuple (SparseTuple (Tropical Exact) .bits64) .bits32)

def halved : Nested (Tropical Exact) [.bits32, .bits64] :=
  let row : SparseTuple (Tropical Exact) .bits64 :=
    ⟨Tropical.cost (some (-1 / 2)), [(⟨102, by decide, by decide⟩, Tropical.cost none)]⟩
  (⟨row, [(⟨103, by decide, by decide⟩, .uniform (Tropical.cost (some (1 / 2))))]⟩ :
    SparseTuple (SparseTuple (Tropical Exact) .bits64) .bits32)

def metered : Nested (Log Exact) [.bits8] :=
  (⟨⟨.finite (1 / 3)⟩, [(⟨104, by decide, by decide⟩, ⟨.infinity false⟩)]⟩ :
    SparseTuple (Log Exact) .bits8)

theorem charged_quantized :
    (0 : Rat) < 1 / 2 ∧ Canonical _ charged ∧ Member charged ∧
      Rounding.quantize (Exact.finite (1 / 2)) charged = halved ∧
      Quantized (Exact.finite (1 / 2)) charged ∧
      ∀ exp log logOnePlus, let _ := Exact.exponential exp log logOnePlus
        Canonical _ metered ∧ Member metered ∧ Quantized (Exact.finite (1 / 2)) metered := by
  have positive : (0 : Rat) < 1 / 2 := by norm_num
  have canonical : Canonical _ charged := by decide +kernel
  have member : Member charged := by decide +kernel
  have reads : (Rounding.quantize (Exact.finite (1 / 2)) charged == halved) = true := by
    decide +kernel
  obtain ⟨-, -, tuples⟩ := quantize_snaps positive
  refine ⟨positive, canonical, member, eq_of_beq reads, (tuples _).1 charged canonical member, ?_⟩
  intro exp log logOnePlus _
  have canonical : Canonical _ metered :=
    ⟨⟨List.pairwise_singleton _ _, List.forall_mem_singleton.mpr rfl⟩, trivial, fun _ _ => trivial⟩
  exact ⟨canonical, rfl, (tuples _).2 exp log logOnePlus metered canonical rfl⟩

end Nested
end WeightedAutomata
