import WeightedAutomata.Proofs.Number.Positional

namespace WeightedAutomata

theorem ten_zpow_le {e : ℤ} (whole : e ≤ 0) : (10 : ℚ) ^ e ≤ 2 ^ (3 * e) := by
  have grown : (8 : ℚ) ^ (-e).toNat ≤ 10 ^ (-e).toNat :=
    pow_le_pow_left₀ (by norm_num) (by norm_num) _
  have eight : (2 : ℚ) ^ (3 * e) = 8 ^ e := by
    rw [zpow_mul]
    norm_num
  rw [eight, zpow_eq_div (by norm_num), zpow_eq_div (by norm_num : (8 : ℚ) ≠ 0),
    Int.toNat_of_nonpos whole, pow_zero, pow_zero]
  exact one_div_le_one_div_of_le (by positivity) grown

theorem log_decimal_lt {n : Nat} {e : ℤ} (positive : 0 < n) (whole : e ≤ 0) :
    Int.log 2 ((n : ℚ) * 10 ^ e) < n.log2 + 1 + 3 * e := by
  have nRat : (0 : ℚ) < n := by exact_mod_cast positive
  have ten : (0 : ℚ) < 10 ^ e := zpow_pos (by norm_num) e
  rw [← lt_two_zpow_iff (mul_pos nRat ten), zpow_add₀ two_ne_zero]
  calc
    (n : ℚ) * 10 ^ e < 2 ^ (n.log2 + 1 : ℤ) * 10 ^ e :=
      mul_lt_mul_of_pos_right (lt_two_zpow_log2 n) ten
    _ ≤ 2 ^ (n.log2 + 1 : ℤ) * 2 ^ (3 * e) :=
      mul_le_mul_of_nonneg_left (ten_zpow_le whole) (two_zpow_pos _).le

namespace Binary64
variable {x : Binary64} {n : Nat} {e : ℤ}

theorem eq_of_rank {y : Binary64} (negative : x.negative = y.negative)
    (rank : (x.rank : Nat) = y.rank) : x = y := by
  cases x
  cases y
  cases negative
  cases Fin.ext rank
  rfl

theorem log_of_near {q : ℚ} (positive : 0 < x.significand) (near : x.size.Near q) :
    -1075 ≤ Int.log 2 q := by
  have least : -1074 ≤ x.exponent := x.parts.least
  have whole : (1 : ℚ) ≤ x.significand := by exact_mod_cast positive
  have reach := x.size.reach_le
  have atLeast : x.exponent - 1 ≤ Int.log 2 q := by
    rw [← two_zpow_le_iff (near.pos positive), zpow_sub_one₀ two_ne_zero, mul_comm]
    refine le_trans (mul_le_mul_of_nonneg_right ?_ (two_zpow_pos _).le) near.low
    change _ ≤ (x.significand : ℚ) - x.size.reach
    linarith
  omega

-- A decimal that is near to a double is neither so large nor so small that its exponent
-- decides.
theorem ofNumeral_near (finite : (x.rank : Nat) < infinityRank) (positive : 0 < x.significand)
    (whole : e ≤ 0) (near : x.size.Near (n * 10 ^ e)) :
    ofNumeral (.finite x.negative n e) = x := by
  have nPositive : 0 < n := by
    rcases Nat.eq_zero_or_pos n with rfl | nPositive
    · have least := near.pos positive
      simp at least
    · exact nPositive
  have large : ¬ 400 < e := by omega
  have small : ¬ 3 * e + n.log2 < -1100 := by
    have below := log_decimal_lt nPositive whole
    have above := log_of_near positive near
    omega
  have ratio : ((n * Nat.pow 10 e.toNat : Nat) : ℚ) / (Nat.pow 10 (-e).toNat : Nat) =
      n * 10 ^ e := by
    rw [zpow_eq_div (by norm_num)]
    push_cast [Nat.pow_eq]
    ring
  rw [← ratio] at near
  have rank := ratioRank_of_near finite positive (Nat.pow_pos (by decide)) near
  simp only [ofNumeral, if_neg nPositive.ne', if_neg large, if_neg small]
  exact eq_of_rank rfl rank

theorem significand_pos (nonzero : (x.rank : Nat) ≠ 0) : 0 < x.significand := by
  unfold significand
  split
  · exact Nat.pos_of_ne_zero nonzero
  · exact Nat.add_pos_left (by decide) _

theorem isZero_iff : x.isZero = true ↔ (x.rank : Nat) = 0 :=
  ⟨fun zero => congrArg Fin.val (beq_iff_eq.mp zero), fun zero => beq_iff_eq.mpr (Fin.ext zero)⟩

-- The text of a finite double: a sign if it is negative, and a decimal that is near to it.
theorem decimalText_written (finite : (x.rank : Nat) < infinityRank) :
    ∃ text whole fraction, x.decimalText = (if x.negative then '-' :: text else text) ∧
      Shortest.Written text whole fraction ∧
      ofNumeral (.finite x.negative (Text.digitsValue (whole ++ fraction)) (-fraction.length)) =
        x := by
  unfold decimalText
  dsimp only
  by_cases zero : x.isZero = true
  · rw [if_pos zero]
    exact ⟨['0'], ['0'], [], rfl, .ofDigits (by simp) (List.forall_mem_singleton.mpr rfl),
      eq_of_rank rfl (isZero_iff.mp zero).symm⟩
  · rw [if_neg zero]
    have positive := significand_pos fun rank => zero (isZero_iff.mpr rank)
    have near := Shortest.Size.decimal_near (show 0 < x.size.significand from positive)
    obtain ⟨whole, fraction, written, value⟩ :=
      Shortest.positional_written x.size.decimal.1 x.size.decimal.2
    rw [← value] at near
    exact ⟨_, whole, fraction, rfl, written, ofNumeral_near finite positive (by omega) near⟩

theorem read_decimalText (finite : (x.rank : Nat) < infinityRank) :
    (Numeral.read? x.decimalText).map ofNumeral = some x := by
  obtain ⟨text, whole, fraction, sign, written, reads⟩ := decimalText_written finite
  obtain ⟨c, rest, begins, digit⟩ := written.first
  have unsigned : ∀ negative, Numeral.unsigned? negative text = some _ :=
    fun _ => Numeral.unsigned?_written written
  have plain : Numeral.read? text = Numeral.unsigned? false text := by
    subst begins
    unfold Numeral.read?
    split
    · rename_i same
      cases same
      exact absurd digit (by decide)
    · rename_i same
      cases same
      exact absurd digit (by decide)
    · rfl
  rw [sign]
  cases negative : x.negative with
  | true =>
    rw [negative] at reads
    change (Numeral.unsigned? true text).map ofNumeral = _
    rw [unsigned, Option.map_some, reads]
  | false =>
    rw [negative] at reads
    simp only [Bool.false_eq_true, if_false]
    rw [plain, unsigned, Option.map_some, reads]

theorem decimalText_chars (finite : (x.rank : Nat) < infinityRank) :
    ∀ c ∈ x.decimalText, c = '-' ∨ c = '.' ∨ c.isDigit = true := by
  obtain ⟨text, whole, fraction, sign, ⟨rfl, -, digits⟩, -⟩ := decimalText_written finite
  have inner : ∀ c ∈ whole ++ (if fraction = [] then [] else '.' :: fraction),
      c = '.' ∨ c.isDigit = true := by
    intro c present
    rcases List.mem_append.mp present with first | later
    · exact .inr (digits c (List.mem_append_left _ first))
    · split at later
      · cases later
      · rcases List.mem_cons.mp later with rfl | second
        · exact .inl rfl
        · exact .inr (digits c (List.mem_append_right _ second))
  intro c present
  rw [sign] at present
  split at present
  · exact (List.mem_cons.mp present).imp_right (inner c)
  · exact .inr (inner c present)

end Binary64
end WeightedAutomata
