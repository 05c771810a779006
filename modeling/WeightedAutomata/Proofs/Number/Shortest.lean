import WeightedAutomata.Proofs.Number.Rounding

-- The shortest decimal of a size is near to it, so that it is rounded to that size again.
namespace WeightedAutomata.Shortest.Size
variable {size : Size} {grid : ℤ} {digits : Nat}

theorem quarterSteps_eq (size : Size) (grid : ℤ) : ∃ unit : ℚ, 0 < unit ∧
    ((size.quarterSteps grid).1 : ℚ) = unit * (2 ^ size.exponent / 4) ∧
    ((size.quarterSteps grid).2 : ℚ) = unit * 10 ^ grid := by
  have quarter : (2 : ℚ) ^ size.exponent / 4 = 2 ^ (size.exponent - 2) := by
    rw [zpow_sub₀ two_ne_zero]
    norm_num
  refine ⟨2 ^ (-(size.exponent - 2)).toNat * 10 ^ (-grid).toNat, by positivity, ?_, ?_⟩
  · rw [quarter, zpow_eq_div two_ne_zero]
    unfold quarterSteps
    push_cast [Nat.pow_eq]
    field_simp
  · rw [zpow_eq_div (by norm_num)]
    unfold quarterSteps
    push_cast [Nat.pow_eq]
    field_simp

section Counts
variable {a b : Nat} {unit A B : ℚ}

theorem counts_le_iff (positive : 0 < unit) (left : (a : ℚ) = unit * A)
    (right : (b : ℚ) = unit * B) : a ≤ b ↔ A ≤ B := by
  rw [← Nat.cast_le (α := ℚ), left, right, mul_le_mul_iff_right₀ positive]

theorem counts_lt_iff (positive : 0 < unit) (left : (a : ℚ) = unit * A)
    (right : (b : ℚ) = unit * B) : a < b ↔ A < B := by
  rw [← not_le, counts_le_iff positive right left, not_le]

end Counts

theorem contains_iff_near (positive : 0 < size.significand) :
    size.contains grid digits = true ↔ size.Near (digits * 10 ^ grid) := by
  obtain ⟨unit, unitPositive, quarter, step⟩ := size.quarterSteps_eq grid
  have low : (((4 * size.significand - if size.narrow then 1 else 2) *
      (size.quarterSteps grid).1 : Nat) : ℚ) =
        unit * ((size.significand - size.reach) * 2 ^ size.exponent) := by
    have within : (if size.narrow then 1 else 2) ≤ 4 * size.significand := by
      split <;> omega
    rw [Nat.cast_mul, quarter, Nat.cast_sub within]
    unfold reach
    split <;> push_cast <;> ring
  have high : (((4 * size.significand + 2) * (size.quarterSteps grid).1 : Nat) : ℚ) =
      unit * ((size.significand + 1 / 2) * 2 ^ size.exponent) := by
    rw [Nat.cast_mul, quarter]
    push_cast
    ring
  have point : ((digits * (size.quarterSteps grid).2 : Nat) : ℚ) = unit * (digits * 10 ^ grid) := by
    rw [Nat.cast_mul, step]
    ring
  unfold contains
  dsimp only
  by_cases even : size.significand % 2 = 0
  · rw [if_pos even, Bool.and_eq_true, decide_eq_true_eq, decide_eq_true_eq,
      counts_le_iff unitPositive low point, counts_le_iff unitPositive point high]
    exact ⟨fun ⟨below, above⟩ => ⟨below, above, fun odd => absurd odd (by omega)⟩,
      fun near => ⟨near.low, near.high⟩⟩
  · rw [if_neg even, Bool.and_eq_true, decide_eq_true_eq, decide_eq_true_eq,
      counts_lt_iff unitPositive low point, counts_lt_iff unitPositive point high]
    exact ⟨fun ⟨below, above⟩ => ⟨below.le, above.le, fun _ => ⟨below, above⟩⟩,
      fun near => near.odd (by omega)⟩

theorem contains_of_nearest? (found : size.nearest? grid = some digits) :
    size.contains grid digits = true := by
  unfold nearest? at found
  dsimp only at found
  split at found
  · rename_i left right
    split at found
    · cases found
      exact left
    · cases found
      exact right
  · rename_i left right
    cases found
    exact left
  · rename_i left right
    cases found
    exact right
  · cases found

theorem exact_eq (size : Size) :
    (size.exact.1 : ℚ) * 10 ^ size.exact.2 = size.significand * 2 ^ size.exponent := by
  unfold exact
  split
  · rename_i whole
    rw [zpow_eq_div two_ne_zero, Int.toNat_of_nonpos (Int.neg_nonpos_of_nonneg whole)]
    push_cast [Nat.pow_eq]
    simp
  · rename_i below
    have split : (2 : ℚ) ^ size.exponent = 5 ^ (-size.exponent).toNat * 10 ^ size.exponent := by
      rw [zpow_eq_div two_ne_zero, zpow_eq_div (by norm_num : (10 : ℚ) ≠ 0),
        Int.toNat_of_nonpos (by omega), show (10 : ℚ) = 5 * 2 by norm_num, mul_pow,
        mul_pow, pow_zero, pow_zero]
      field_simp
    rw [split]
    push_cast [Nat.pow_eq]
    ring

-- Either a grid has a point that is near, or the size is written digit for digit.
theorem decimal_cases (size : Size) :
    (∃ grid digits, size.nearest? grid = some digits ∧ size.decimal = (digits, grid)) ∨
      size.decimal = size.exact := by
  unfold decimal
  dsimp only
  generalize search : List.findSome? _ (List.range 20) = found
  cases found with
  | none => exact .inr rfl
  | some result =>
    obtain ⟨finer, -, best⟩ := List.exists_of_findSome?_eq_some search
    obtain ⟨digits, nearest, rfl⟩ := Option.map_eq_some_iff.mp best
    exact .inl ⟨_, digits, nearest, rfl⟩

theorem decimal_near (positive : 0 < size.significand) :
    size.Near (size.decimal.1 * 10 ^ size.decimal.2) := by
  rcases size.decimal_cases with ⟨grid, digits, nearest, written⟩ | written
  · rw [written]
    exact (contains_iff_near positive).mp (contains_of_nearest? nearest)
  · rw [written, exact_eq]
    exact size.near_self

end WeightedAutomata.Shortest.Size
