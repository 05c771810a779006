import Mathlib.Data.List.TakeDrop
import WeightedAutomata.Proofs.Number.Shortest
import WeightedAutomata.Proofs.Text.Integer

namespace WeightedAutomata
open Text
variable {whole fraction : List Char} {negative : Bool}

namespace Text

theorem digitsValue_append_zeros (digits : List Char) (n : Nat) :
    digitsValue (digits ++ List.replicate n '0') = digitsValue digits * 10 ^ n := by
  induction n with
  | zero => simp
  | succ n ih =>
    rw [List.replicate_succ', ← List.append_assoc, digitsValue_append, ih, pow_succ]
    change 10 * _ + 0 = _
    ring

theorem toLower_of_isDigit {c : Char} (digit : c.isDigit = true) : c.toLower = c := by
  have bounds := bounds_of_isDigit digit
  refine dif_neg ?_
  rintro ⟨upper, -⟩
  have least : 65 ≤ c.toNat := UInt32.le_iff_toNat_le.mp upper
  omega

end Text

namespace Shortest

structure Written (text whole fraction : List Char) : Prop where
  text : text = whole ++ if fraction = [] then [] else '.' :: fraction
  begins : whole ≠ []
  digits : ∀ c ∈ whole ++ fraction, c.isDigit = true

theorem Written.ofDigits (begins : whole ≠ []) (digits : ∀ c ∈ whole, c.isDigit = true) :
    Written whole whole [] :=
  ⟨by simp, begins, by simpa using digits⟩

theorem Written.point (begins : whole ≠ []) (ends : fraction ≠ [])
    (digits : ∀ c ∈ whole ++ fraction, c.isDigit = true) :
    Written (whole ++ '.' :: fraction) whole fraction :=
  ⟨by rw [if_neg ends], begins, digits⟩

theorem positional_written (digits : Nat) (exponent : ℤ) : ∃ whole fraction,
    Written (positional digits exponent) whole fraction ∧
      (digitsValue (whole ++ fraction) : ℚ) * 10 ^ (-fraction.length : ℤ) =
        digits * 10 ^ exponent := by
  have natural := naturalText_digits digits
  have zeros : ∀ n : Nat, ∀ c ∈ List.replicate n '0', c.isDigit = true := by
    intro n c present
    rw [(List.mem_replicate.mp present).2]
    rfl
  unfold positional
  dsimp only
  by_cases integral : 0 ≤ exponent
  · rw [if_pos integral]
    refine ⟨_, [], .ofDigits (by simp [naturalText_ne_nil]) fun c present =>
      (List.mem_append.mp present).elim (natural c) (zeros _ c), ?_⟩
    rw [List.append_nil, digitsValue_append_zeros, digitsValue_naturalText,
      zpow_eq_div (by norm_num) exponent,
      Int.toNat_of_nonpos (Int.neg_nonpos_of_nonneg integral)]
    simp
  have places : 0 < (-exponent).toNat ∧ -((-exponent).toNat : ℤ) = exponent := by omega
  rw [if_neg integral]
  generalize (-exponent).toNat = n at places
  obtain ⟨positive, rfl⟩ := places
  by_cases inside : n < (naturalText digits).length
  · rw [if_pos inside]
    have count : ((naturalText digits).drop ((naturalText digits).length - n)).length = n := by
      rw [List.length_drop]
      omega
    refine ⟨_, _, .point ?_ ?_ (by rwa [List.take_append_drop]), ?_⟩
    · rw [← List.length_pos_iff, List.length_take]
      omega
    · rwa [← List.length_pos_iff, count]
    · rw [List.take_append_drop, digitsValue_naturalText, count]
  · rw [if_neg inside, List.append_assoc]
    have count : (List.replicate (n - (naturalText digits).length) '0' ++
        naturalText digits).length = n := by
      rw [List.length_append, List.length_replicate]
      omega
    have value := digitsValue_zeros (n - (naturalText digits).length + 1) (naturalText digits)
    rw [List.replicate_succ, List.cons_append, digitsValue_naturalText] at value
    have all : ∀ c ∈ '0' :: (List.replicate (n - (naturalText digits).length) '0' ++
        naturalText digits), c.isDigit = true := by
      intro c present
      rcases List.mem_cons.mp present with rfl | later
      · rfl
      · exact (List.mem_append.mp later).elim (zeros _ c) (natural c)
    generalize List.replicate _ '0' ++ naturalText digits = places at count value all
    refine ⟨['0'], places, ?_, ?_⟩
    · change Written (['0'] ++ '.' :: places) ['0'] places
      apply Written.point (List.cons_ne_nil _ _) _ all
      rwa [← List.length_pos_iff, count]
    · rw [count, List.singleton_append, value]

-- No word begins with a digit.
theorem Written.first {text : List Char} (written : Written text whole fraction) :
    ∃ c rest, text = c :: rest ∧ c.isDigit = true := by
  obtain ⟨rfl, begins, digits⟩ := written
  obtain ⟨c, rest, rfl⟩ := List.exists_cons_of_ne_nil begins
  exact ⟨c, _, rfl, digits c (by simp)⟩

end Shortest

namespace Numeral

theorem span_digits {digits rest : List Char} (all : ∀ c ∈ digits, c.isDigit = true)
    (ends : ∀ c ∈ rest.head?, c.isDigit = false) :
    (digits ++ rest).span Char.isDigit = (digits, rest) := by
  rw [List.span_eq_takeWhile_dropWhile, List.takeWhile_append_of_pos all,
    List.dropWhile_append_of_pos all]
  cases rest with
  | nil => simp
  | cons c rest =>
    have other : c.isDigit = false := ends c rfl
    simp [other]

open Shortest in
theorem decimal?_written {text : List Char} (written : Written text whole fraction) :
    decimal? negative text =
      some (.finite negative (digitsValue (whole ++ fraction)) (-fraction.length)) := by
  obtain ⟨rfl, begins, digits⟩ := written
  have first : ∀ c ∈ whole, c.isDigit = true := fun c present => digits c (by simp [present])
  have second : ∀ c ∈ fraction, c.isDigit = true := fun c present => digits c (by simp [present])
  unfold decimal?
  by_cases integral : fraction = []
  · subst fraction
    rw [if_pos rfl, span_digits first (by simp)]
    simp [splitFraction, exponent?, begins]
  · have rest := @span_digits fraction [] second (by simp)
    rw [List.append_nil] at rest
    rw [if_neg integral, span_digits first (by simp)]
    simp [-List.span_eq_takeWhile_dropWhile, splitFraction, rest, exponent?, begins]

open Shortest in
theorem unsigned?_written {text : List Char} (written : Written text whole fraction) :
    unsigned? negative text =
      some (.finite negative (digitsValue (whole ++ fraction)) (-fraction.length)) := by
  obtain ⟨c, rest, begins, digit⟩ := written.first
  have noWord : ∀ {d word}, text.map Char.toLower = d :: word → d.isDigit = true := by
    intro d word same
    rw [begins, List.map_cons, toLower_of_isDigit digit] at same
    obtain ⟨rfl, -⟩ := List.cons.inj same
    exact digit
  have infinite : ¬ (text.map Char.toLower = ['i', 'n', 'f'] ∨
      text.map Char.toLower = ['i', 'n', 'f', 'i', 'n', 'i', 't', 'y']) := by
    rintro (same | same) <;> exact absurd (noWord same) (by decide)
  have nan : text.map Char.toLower ≠ ['n', 'a', 'n'] :=
    fun same => absurd (noWord same) (by decide)
  unfold unsigned?
  simp only [if_neg infinite, if_neg nan, decimal?_written written]

end Numeral
end WeightedAutomata
