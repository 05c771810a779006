import Mathlib.Data.Int.Log
import Mathlib.Data.Rat.Floor
import Mathlib.Tactic.FieldSimp
import Mathlib.Tactic.Linarith
import Mathlib.Tactic.Positivity
import WeightedAutomata.Number.Binary64

-- Which ratios are rounded to a given double: those no farther from it than halfway to
-- the doubles beside it, a ratio halfway between two only if the significand is even.
namespace WeightedAutomata

theorem zpow_eq_div {b : ℚ} (nonzero : b ≠ 0) (e : ℤ) : b ^ e = b ^ e.toNat / b ^ (-e).toNat := by
  have split := zpow_sub₀ nonzero (e.toNat : ℤ) ((-e).toNat : ℤ)
  rwa [Int.toNat_sub_toNat_neg, zpow_natCast, zpow_natCast] at split

theorem two_zpow_pos (e : ℤ) : (0 : ℚ) < 2 ^ e :=
  zpow_pos two_pos e

theorem two_zpow_shift (j : Nat) (e : ℤ) : (2 : ℚ) ^ (j + e : ℤ) = 2 ^ j * 2 ^ e := by
  rw [zpow_add₀ two_ne_zero, zpow_natCast]

theorem two_zpow_le_iff {q : ℚ} (positive : 0 < q) {e : ℤ} : 2 ^ e ≤ q ↔ e ≤ Int.log 2 q := by
  exact_mod_cast Int.zpow_le_iff_le_log (b := 2) (by decide) positive

theorem lt_two_zpow_iff {q : ℚ} (positive : 0 < q) {e : ℤ} : q < 2 ^ e ↔ Int.log 2 q < e := by
  rw [← not_le, two_zpow_le_iff positive, not_le]

theorem two_zpow_log2_le {n : Nat} (positive : 0 < n) : (2 : ℚ) ^ (n.log2 : ℤ) ≤ n := by
  rw [zpow_natCast]
  exact_mod_cast Nat.log2_self_le positive.ne'

theorem lt_two_zpow_log2 (n : Nat) : (n : ℚ) < 2 ^ (n.log2 + 1 : ℤ) := by
  exact_mod_cast Nat.lt_log2_self

namespace Shortest.Size
variable {size : Size} {q : ℚ}

def reach (size : Size) : ℚ :=
  if size.narrow then 1 / 4 else 1 / 2

theorem reach_pos (size : Size) : 0 < size.reach := by
  unfold reach
  split <;> norm_num

theorem reach_le (size : Size) : size.reach ≤ 1 / 2 := by
  unfold reach
  split <;> norm_num

-- No other size is nearer, and an odd one is the nearest alone.
structure Near (size : Size) (q : ℚ) : Prop where
  low : (size.significand - size.reach) * 2 ^ size.exponent ≤ q
  high : q ≤ (size.significand + 1 / 2) * 2 ^ size.exponent
  odd : size.significand % 2 = 1 →
    (size.significand - size.reach) * 2 ^ size.exponent < q ∧
      q < (size.significand + 1 / 2) * 2 ^ size.exponent

theorem near_self (size : Size) : size.Near (size.significand * 2 ^ size.exponent) := by
  have step := two_zpow_pos size.exponent
  have reach := size.reach_pos
  have low : (size.significand - size.reach) * 2 ^ size.exponent <
      size.significand * 2 ^ size.exponent :=
    mul_lt_mul_of_pos_right (by linarith) step
  have high : (size.significand : ℚ) * 2 ^ size.exponent <
      (size.significand + 1 / 2) * 2 ^ size.exponent :=
    mul_lt_mul_of_pos_right (by linarith) step
  exact ⟨low.le, high.le, fun _ => ⟨low, high⟩⟩

theorem Near.pos (near : size.Near q) (positive : 0 < size.significand) : 0 < q := by
  have whole : (1 : ℚ) ≤ size.significand := by exact_mod_cast positive
  have reach := size.reach_le
  have step := two_zpow_pos size.exponent
  exact lt_of_lt_of_le (mul_pos (by linarith) step) near.low

theorem Near.le_log (near : size.Near q) (positive : 0 < q) {j : Nat}
    (bits : 2 ^ j ≤ size.significand - size.reach) : j + size.exponent ≤ Int.log 2 q := by
  rw [← two_zpow_le_iff positive, two_zpow_shift]
  exact le_trans (mul_le_mul_of_nonneg_right bits (two_zpow_pos _).le) near.low

end Shortest.Size

namespace Binary64
variable {x : Binary64} {n d m : Nat}

theorem roundHalfEven_eq (positive : 0 < d) (low : (m : ℚ) - 1 / 2 ≤ n / d)
    (high : (n : ℚ) / d ≤ m + 1 / 2)
    (odd : m % 2 = 1 → (m : ℚ) - 1 / 2 < n / d ∧ (n : ℚ) / d < m + 1 / 2) :
    roundHalfEven n d = m := by
  have positive' : (0 : ℚ) < d := by exact_mod_cast positive
  rw [le_div_iff₀ positive'] at low
  rw [div_le_iff₀ positive'] at high
  rw [lt_div_iff₀ positive', div_lt_iff₀ positive'] at odd
  have below : 2 * (m * d) ≤ 2 * n + d := by
    have doubled : 2 * ((m : ℚ) * d) ≤ 2 * n + d := by linarith
    exact_mod_cast doubled
  have above : 2 * n ≤ 2 * (m * d) + d := by
    have doubled : 2 * (n : ℚ) ≤ 2 * (m * d) + d := by linarith
    exact_mod_cast doubled
  have inner : m % 2 = 1 → 2 * (m * d) < 2 * n + d ∧ 2 * n < 2 * (m * d) + d := by
    intro isOdd
    obtain ⟨left, right⟩ := odd isOdd
    constructor
    · have doubled : 2 * ((m : ℚ) * d) < 2 * n + d := by linarith
      exact_mod_cast doubled
    · have doubled : 2 * (n : ℚ) < 2 * (m * d) + d := by linarith
      exact_mod_cast doubled
  have whole := Nat.div_add_mod n d
  have rest := Nat.mod_lt n positive
  unfold roundHalfEven
  generalize n / d = quotient at whole ⊢
  generalize n % d = remainder at whole rest ⊢
  rw [Nat.mul_comm d] at whole
  have least : quotient ≤ m := by
    by_contra less
    have step := Nat.mul_le_mul_right d (Nat.succ_le_of_lt (Nat.lt_of_not_le less))
    rw [Nat.succ_mul] at step
    omega
  have most : m ≤ quotient + 1 := by
    by_contra more
    have step := Nat.mul_le_mul_right d (Nat.succ_le_of_lt (Nat.lt_of_not_le more))
    rw [Nat.succ_mul, Nat.succ_mul] at step
    omega
  obtain rfl | rfl : m = quotient ∨ m = quotient + 1 := by omega
  · dsimp only
    split
    · rfl
    · split <;> omega
  · have grown := Nat.add_one_mul quotient d
    dsimp only
    split
    · omega
    · split <;> omega

theorem scaled_ratio (n d : Nat) (e : ℤ) :
    ((n * Nat.pow 2 (-e).toNat : Nat) : ℚ) / (d * Nat.pow 2 e.toNat : Nat) = n / d / 2 ^ e := by
  rw [zpow_eq_div (by norm_num)]
  push_cast [Nat.pow_eq]
  field_simp

theorem roundHalfEven_scaled {e : ℤ} (positive : 0 < d) (low : (m - 1 / 2) * (2 : ℚ) ^ e ≤ n / d)
    (high : (n : ℚ) / d ≤ (m + 1 / 2) * 2 ^ e)
    (odd : m % 2 = 1 →
      (m - 1 / 2) * (2 : ℚ) ^ e < n / d ∧ (n : ℚ) / d < (m + 1 / 2) * 2 ^ e) :
    roundHalfEven (n * Nat.pow 2 (-e).toNat) (d * Nat.pow 2 e.toNat) = m := by
  have step := two_zpow_pos e
  have scaled : 0 < d * Nat.pow 2 e.toNat := Nat.mul_pos positive (Nat.pow_pos (by decide))
  apply roundHalfEven_eq scaled
  · rwa [scaled_ratio, le_div_iff₀ step]
  · rwa [scaled_ratio, div_le_iff₀ step]
  · rwa [scaled_ratio, lt_div_iff₀ step, div_lt_iff₀ step]

theorem scaled_le_iff (positive : 0 < d) (e : ℤ) :
    d * Nat.pow 2 e.toNat ≤ n * Nat.pow 2 (-e).toNat ↔ (2 : ℚ) ^ e ≤ n / d := by
  have dRat : (0 : ℚ) < d := by exact_mod_cast positive
  have down : (0 : ℚ) < 2 ^ (-e).toNat := by positivity
  rw [zpow_eq_div (by norm_num), div_le_div_iff₀ down dRat, mul_comm d]
  exact_mod_cast Iff.rfl

theorem log_ratio (nPositive : 0 < n) (dPositive : 0 < d) :
    (n.log2 : ℤ) - d.log2 - 1 ≤ Int.log 2 ((n : ℚ) / d) ∧
      Int.log 2 ((n : ℚ) / d) ≤ (n.log2 : ℤ) - d.log2 := by
  have two : (2 : ℚ) ≠ 0 := by norm_num
  have nRat : (0 : ℚ) < n := by exact_mod_cast nPositive
  have dRat : (0 : ℚ) < d := by exact_mod_cast dPositive
  have ratio : (0 : ℚ) < n / d := by positivity
  constructor
  · rw [← two_zpow_le_iff ratio, le_div_iff₀ dRat]
    calc
      _ ≤ (2 : ℚ) ^ ((n.log2 : ℤ) - d.log2 - 1) * 2 ^ (d.log2 + 1 : ℤ) :=
        mul_le_mul_of_nonneg_left (lt_two_zpow_log2 d).le (two_zpow_pos _).le
      _ = 2 ^ (n.log2 : ℤ) := by
        rw [← zpow_add₀ two]
        congr 1
        omega
      _ ≤ n := two_zpow_log2_le nPositive
  · rw [← Int.lt_add_one_iff, ← lt_two_zpow_iff ratio, div_lt_iff₀ dRat]
    calc
      (n : ℚ) < 2 ^ (n.log2 + 1 : ℤ) := lt_two_zpow_log2 n
      _ = (2 : ℚ) ^ ((n.log2 : ℤ) - d.log2 + 1) * 2 ^ (d.log2 : ℤ) := by
        rw [← zpow_add₀ two]
        congr 1
        omega
      _ ≤ _ := mul_le_mul_of_nonneg_left (two_zpow_log2_le dPositive)
        (two_zpow_pos _).le

-- The exponent is the one whose significands begin with the leading bit of the ratio, as
-- long as sizes have such an exponent.
theorem ratioExponent_eq (nPositive : 0 < n) (dPositive : 0 < d) :
    ratioExponent n d = max leastExponent (Int.log 2 ((n : ℚ) / d) - 52) := by
  have nRat : (0 : ℚ) < n := by exact_mod_cast nPositive
  have dRat : (0 : ℚ) < d := by exact_mod_cast dPositive
  have ratio : (0 : ℚ) < n / d := by positivity
  obtain ⟨least, most⟩ := log_ratio nPositive dPositive
  unfold ratioExponent
  simp only [scaled_le_iff dPositive, two_zpow_le_iff ratio]
  congr 1
  split <;> omega

structure Parts (x : Binary64) : Prop where
  rank : (x.rank : Nat) = (x.exponent - leastExponent).toNat * Nat.pow 2 52 + x.significand
  significand_lt : x.significand < Nat.pow 2 53
  least : leastExponent ≤ x.exponent
  leading : leastExponent < x.exponent → Nat.pow 2 52 ≤ x.significand

theorem parts (x : Binary64) : Parts x := by
  by_cases small : (x.rank : Nat) < Nat.pow 2 52
  · have significand : x.significand = x.rank := if_pos small
    have exponent : x.exponent = leastExponent := if_pos small
    refine ⟨?_, ?_, exponent.ge, fun above => absurd exponent above.ne'⟩
    · rw [significand, exponent, sub_self, Int.toNat_zero, Nat.zero_mul, Nat.zero_add]
    · rw [significand]
      exact small.trans (by decide)
  · have significand : x.significand = Nat.pow 2 52 + x.rank % Nat.pow 2 52 := if_neg small
    have exponent : x.exponent = x.rank / Nat.pow 2 52 - 1 + leastExponent := if_neg small
    have rest := Nat.mod_lt (x.rank : Nat) (show 0 < Nat.pow 2 52 by decide)
    have whole := Nat.div_add_mod (x.rank : Nat) (Nat.pow 2 52)
    have binade : 1 ≤ (x.rank : Nat) / Nat.pow 2 52 :=
      (Nat.one_le_div_iff (by decide)).mpr (Nat.le_of_not_lt small)
    simp only [Nat.pow_eq, Nat.reducePow] at *
    refine ⟨?_, ?_, by omega, ?_⟩ <;> simp only [Nat.pow_eq, Nat.reducePow] <;> omega

-- How a ratio lies to the leading bits of a size that it is near to: either both have
-- their leading bits at the same place, or the ratio is just below a power of two.
theorem near_log {q : ℚ} (nonzero : 0 < x.significand) (near : x.size.Near q) :
    max leastExponent (Int.log 2 q - 52) = x.exponent ∨
      (leastExponent < x.exponent ∧ x.significand = Nat.pow 2 52 ∧
        Int.log 2 q = 51 + x.exponent) := by
  have positive := near.pos nonzero
  obtain ⟨-, below, least, leading⟩ := x.parts
  have reach := x.size.reach_le
  have lower : ∀ j : Nat, 2 ^ j ≤ (x.significand : ℚ) - 1 / 2 → j + x.exponent ≤ Int.log 2 q := by
    intro j bits
    apply near.le_log positive
    change _ ≤ (x.significand : ℚ) - x.size.reach
    linarith
  have most : Int.log 2 q < (53 : Nat) + x.exponent := by
    rw [← lt_two_zpow_iff positive, two_zpow_shift]
    have bound : (x.significand : ℚ) + 1 ≤ 2 ^ 53 := by exact_mod_cast below
    refine lt_of_le_of_lt near.high (mul_lt_mul_of_pos_right ?_ (two_zpow_pos _))
    change (x.significand : ℚ) + 1 / 2 < _
    linarith
  by_cases aligned : 52 + x.exponent ≤ Int.log 2 q
  · left
    omega
  by_cases above : leastExponent < x.exponent
  · right
    have bits := leading above
    have power : x.significand = Nat.pow 2 52 := by
      by_contra other
      have bound : (2 : ℚ) ^ 52 + 1 ≤ x.significand := by
        exact_mod_cast Nat.lt_of_le_of_ne bits (Ne.symm other)
      exact aligned (lower 52 (by linarith))
    have bound : (2 : ℚ) ^ 52 ≤ x.significand := by exact_mod_cast bits
    have atLeast := lower 51 (by linarith)
    exact ⟨above, power, by omega⟩
  · left
    omega

theorem roundHalfEven_near (dPositive : 0 < d) (near : x.size.Near ((n : ℚ) / d)) :
    roundHalfEven (n * Nat.pow 2 (-x.exponent).toNat) (d * Nat.pow 2 x.exponent.toNat) =
      x.significand := by
  have reach : (x.significand : ℚ) - 1 / 2 ≤ x.significand - x.size.reach := by
    have bound := x.size.reach_le
    linarith
  have spread := mul_le_mul_of_nonneg_right reach (two_zpow_pos x.exponent).le
  exact roundHalfEven_scaled dPositive (spread.trans near.low) near.high
    fun isOdd => ⟨spread.trans_lt (near.odd isOdd).1, (near.odd isOdd).2⟩

-- Just below a power of two the steps are half as long, and rounding goes up to the power.
theorem roundHalfEven_carry (dPositive : 0 < d) (near : x.size.Near ((n : ℚ) / d))
    (above : leastExponent < x.exponent) (power : x.significand = Nat.pow 2 52)
    (below : (n : ℚ) / d < 2 ^ ((53 : Nat) + (x.exponent - 1))) :
    roundHalfEven (n * Nat.pow 2 (-(x.exponent - 1)).toNat)
      (d * Nat.pow 2 (x.exponent - 1).toNat) = Nat.pow 2 53 := by
  have halved : (2 : ℚ) ^ x.exponent = 2 * 2 ^ (x.exponent - 1) := by
    rw [← zpow_one_add₀ two_ne_zero]
    congr 1
    omega
  have narrow : x.size.reach = 1 / 4 := by
    have ends : x.size.narrow = true := by simp [Binary64.size, power, above]
    exact if_pos ends
  have low : ((Nat.pow 2 53 : Nat) - 1 / 2) * (2 : ℚ) ^ (x.exponent - 1) ≤ n / d :=
    calc
      _ = (x.significand - x.size.reach) * 2 ^ x.exponent := by
        rw [halved, power, narrow]
        push_cast [Nat.pow_eq]
        ring
      _ ≤ n / d := near.low
  have high : (n : ℚ) / d ≤ ((Nat.pow 2 53 : Nat) + 1 / 2) * 2 ^ (x.exponent - 1) := by
    rw [two_zpow_shift] at below
    refine below.le.trans (mul_le_mul_of_nonneg_right ?_ (two_zpow_pos _).le)
    push_cast [Nat.pow_eq]
    linarith
  exact roundHalfEven_scaled dPositive low high fun isOdd => absurd isOdd (by decide)

theorem ratioRank_of_near (finite : (x.rank : Nat) < infinityRank) (nonzero : 0 < x.significand)
    (dPositive : 0 < d) (near : x.size.Near ((n : ℚ) / d)) : ratioRank n d = x.rank := by
  have positive := near.pos nonzero
  have nPositive : 0 < n := by
    rcases Nat.eq_zero_or_pos n with rfl | nPositive
    · simp at positive
    · exact nPositive
  obtain ⟨rank, -, -, -⟩ := x.parts
  unfold ratioRank
  rw [if_neg nPositive.ne', ratioExponent_eq nPositive dPositive]
  rcases near_log nonzero near with same | ⟨above, power, lower⟩
  · simp only [same, roundHalfEven_near dPositive near]
    rw [← rank]
    exact Nat.min_eq_right finite.le
  · have below : (n : ℚ) / d < 2 ^ ((53 : Nat) + (x.exponent - 1)) := by
      rw [lt_two_zpow_iff positive]
      omega
    have exponent : max leastExponent (Int.log 2 ((n : ℚ) / d) - 52) = x.exponent - 1 := by
      omega
    have carried : (x.exponent - 1 - leastExponent).toNat * Nat.pow 2 52 + Nat.pow 2 53 =
        x.rank := by
      rw [rank, power]
      simp only [Nat.pow_eq, Nat.reducePow]
      omega
    simp only [exponent, roundHalfEven_carry dPositive near above power below, carried]
    exact Nat.min_eq_right finite.le

end Binary64
end WeightedAutomata
