import WeightedAutomata.Text.Blank
import WeightedAutomata.Text.Integer

namespace WeightedAutomata.Text

theorem digitsValue_append (xs : List Char) (digit : Char) :
    digitsValue (xs ++ [digit]) = 10 * digitsValue xs + (digit.toNat - '0'.toNat) := by
  simp [digitsValue, List.foldl_append]

theorem digitsValue_zeros (n : Nat) (digits : List Char) :
    digitsValue (List.replicate n '0' ++ digits) = digitsValue digits := by
  unfold digitsValue
  rw [List.foldl_append]
  congr 1
  induction n with
  | zero => rfl
  | succ n ih =>
    rw [List.replicate_succ, List.foldl_cons]
    exact ih

theorem naturalText_digits (n : Nat) : ∀ c ∈ naturalText n, c.isDigit = true :=
  fun _ present => Nat.isDigit_of_mem_toDigits (by decide) (by decide) present

theorem naturalText_ne_nil (n : Nat) : naturalText n ≠ [] :=
  Nat.toDigits_ne_nil

theorem digitsValue_naturalText (n : Nat) : digitsValue (naturalText n) = n := by
  induction n using Nat.strongRecOn with
  | ind n ih =>
    by_cases small : n < 10
    · have value := Nat.toNat_digitChar_sub_48_of_lt_ten small
      unfold naturalText
      rw [Nat.toDigits_of_lt_base small]
      simpa [digitsValue] using value
    · have positive : 0 < n / 10 := Nat.div_pos (by omega) (by decide)
      have last : n % 10 < 10 := Nat.mod_lt n (by decide)
      have whole : 10 * (n / 10) + n % 10 = n := Nat.div_add_mod n 10
      have split := Nat.toDigits_append_toDigits (by decide) positive last
      rw [whole, Nat.toDigits_of_lt_base last] at split
      have value := Nat.toNat_digitChar_sub_48_of_lt_ten last
      have rest := ih (n / 10) (by omega)
      unfold naturalText at rest ⊢
      rw [← split, digitsValue_append, rest]
      change 10 * (n / 10) + ((n % 10).digitChar.toNat - 48) = n
      omega

theorem digits?_naturalText (n : Nat) : digits? (naturalText n) = some n := by
  have digits : (naturalText n).all Char.isDigit = true :=
    List.all_eq_true.mpr (naturalText_digits n)
  have inhabited : (naturalText n).isEmpty = false := by
    simpa using naturalText_ne_nil n
  simp [digits?, digits, inhabited, digitsValue_naturalText]

-- No digit is a sign, so that a printed number has none.
theorem naturalText_unsigned (n : Nat) :
    ∃ c rest, naturalText n = c :: rest ∧ c ≠ '+' ∧ c ≠ '-' := by
  cases text : naturalText n with
  | nil => exact absurd text (naturalText_ne_nil n)
  | cons c rest =>
    have digit : c.isDigit = true := naturalText_digits n c (by simp [text])
    refine ⟨c, rest, rfl, ?_, ?_⟩
    · rintro rfl
      simp at digit
    · rintro rfl
      simp at digit

theorem natural?_naturalText {limit n : Nat} (below : n < limit) :
    natural? limit (naturalText n) = some n := by
  have value := digits?_naturalText n
  obtain ⟨c, rest, text, positive, -⟩ := naturalText_unsigned n
  rw [text] at value ⊢
  simp [natural?, positive, value, below]

structure Numeral (limit : Nat) (text : List Char) (n : Nat) : Prop where
  below : n < limit
  spelled : ∃ digits, digits ≠ [] ∧ (∀ c ∈ digits, c.isDigit = true) ∧ digitsValue digits = n ∧
    (text = digits ∨ text = '+' :: digits)

theorem digits?_eq_some_iff {text : List Char} {n : Nat} : digits? text = some n ↔
    text ≠ [] ∧ (∀ c ∈ text, c.isDigit = true) ∧ digitsValue text = n := by
  simp [digits?, and_assoc]

theorem natural?_eq_some_iff {limit n : Nat} {text : List Char} :
    natural? limit text = some n ↔ Numeral limit text n := by
  have bounded : ∀ digits, ((digits? digits).bind fun m => if m < limit then some m else none) =
      some n ↔ digits? digits = some n ∧ n < limit := by
    intro digits
    rw [Option.bind_eq_some_iff]
    constructor
    · rintro ⟨m, value, kept⟩
      split at kept
      · rename_i below
        cases kept
        exact ⟨value, below⟩
      · cases kept
    · rintro ⟨value, below⟩
      exact ⟨n, value, if_pos below⟩
  unfold natural?
  split
  · rename_i digits
    refine (bounded digits).trans ?_
    rw [digits?_eq_some_iff]
    constructor
    · rintro ⟨⟨some, digit, value⟩, below⟩
      exact ⟨below, digits, some, digit, value, .inr rfl⟩
    · rintro ⟨below, others, some, digit, value, rfl | same⟩
      · have sign := digit '+' (by simp)
        simp at sign
      · cases same
        exact ⟨⟨some, digit, value⟩, below⟩
  · rename_i unsigned
    refine (bounded text).trans ?_
    rw [digits?_eq_some_iff]
    constructor
    · rintro ⟨⟨some, digit, value⟩, below⟩
      exact ⟨below, text, some, digit, value, .inl rfl⟩
    · rintro ⟨below, digits, some, digit, value, rfl | rfl⟩
      · exact ⟨⟨some, digit, value⟩, below⟩
      · exact absurd rfl (unsigned digits)

theorem integer?_naturalText (n : Nat) : integer? (naturalText n) = some (n : Int) := by
  have value := digits?_naturalText n
  obtain ⟨c, rest, text, positive, negative⟩ := naturalText_unsigned n
  rw [text] at value ⊢
  simp [integer?, positive, negative, value]

theorem integer?_integerText (n : Int) : integer? (integerText n) = some n := by
  cases n with
  | ofNat n => exact integer?_naturalText n
  | negSucc n => simp [integerText, integer?, digits?_naturalText, Int.negSucc_eq]

theorem integerText_chars (n : Int) : ∀ c ∈ integerText n, c = '-' ∨ c.isDigit = true := by
  intro c present
  cases n with
  | ofNat n => exact .inr (naturalText_digits n c present)
  | negSucc n =>
    rcases List.mem_cons.mp present with rfl | later
    · exact .inl rfl
    · exact .inr (naturalText_digits (n + 1) c later)

theorem bounds_of_isDigit {c : Char} (digit : c.isDigit = true) :
    48 ≤ c.toNat ∧ c.toNat ≤ 57 := by
  simpa [Char.isDigit, UInt32.le_iff_toNat_le] using digit

theorem isBlank_of_isDigit {c : Char} (digit : c.isDigit = true) : isBlank c = false := by
  have bounds := bounds_of_isDigit digit
  unfold isBlank
  simp only [Bool.or_eq_false_iff, Bool.and_eq_false_iff, beq_eq_false_iff_ne,
    decide_eq_false_iff_not]
  omega

theorem toString_toList (n : Nat) : (toString n).toList = naturalText n := by
  simp [naturalText]

end WeightedAutomata.Text
