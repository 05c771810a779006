import WeightedAutomata.Proofs.Number.DecimalText
import WeightedAutomata.Number.Exponential
import WeightedAutomata.Proofs.Tuple.Reread
import WeightedAutomata.Weight.Log

namespace WeightedAutomata
open Text

namespace Binary64
variable {x : Binary64}

theorem rank_lt_of_finite (infinite : x.isInfinite = false) (number : x.isNan = false) :
    (x.rank : Nat) < infinityRank := by
  simp only [isInfinite, isNan, beq_eq_false_iff_ne, decide_eq_false_iff_not] at infinite number
  omega

theorem eq_infinity (infinite : x.isInfinite = true) : x = infinity x.negative := by
  have rank : (x.rank : Nat) = infinityRank := by simpa [isInfinite] using infinite
  exact eq_of_rank (y := infinity x.negative) rfl rank

theorem ofRatio_isNan (negative : Bool) (numerator denominator : Nat) :
    (ofRatio negative numerator denominator).isNan = false := by
  have bounded : ratioRank numerator denominator ≤ infinityRank := by
    unfold ratioRank
    split
    · exact Nat.zero_le _
    · exact Nat.min_le_left _ _
  exact decide_eq_false (Nat.not_lt.mpr bounded)

theorem ofNumeral_isNan (numeral : Numeral) :
    (∃ negative, numeral = .nan negative) ∨ (ofNumeral numeral).isNan = false := by
  cases numeral with
  | nan negative => exact .inl ⟨negative, rfl⟩
  | infinity negative => exact .inr rfl
  | finite negative digits exponent =>
    right
    simp only [ofNumeral]
    split
    · rfl
    · split
      · rfl
      · split
        · rfl
        · exact ofRatio_isNan _ _ _

end Binary64

namespace Cost
open Number
variable {a : Binary64}

-- What a cost is once it is printed and read.
def reread (a : Binary64) : Binary64 :=
  if a.isNan then .nan false else positiveZero a

theorem print_cases (a : Binary64) :
    (∃ negative, a = .infinity negative) ∨
      (a.isNan = true ∧ print a = "BadNumber") ∨
      ((a.rank : Nat) < Binary64.infinityRank ∧ a.isNan = false ∧
        print a = String.ofList a.decimalText) := by
  cases infinite : a.isInfinite with
  | true => exact .inl ⟨_, Binary64.eq_infinity infinite⟩
  | false =>
    right
    have text : print a = if a.isNan then "BadNumber" else String.ofList a.decimalText := by
      change (if a.isInfinite then _ else _) = _
      rw [infinite]
      rfl
    cases number : a.isNan with
    | true =>
      rw [number] at text
      exact .inl ⟨rfl, text⟩
    | false =>
      rw [number] at text
      exact .inr ⟨Binary64.rank_lt_of_finite infinite number, rfl, text⟩

theorem print_plain (a : Binary64) : SparseTuple.Plain (print a).toList := by
  rcases print_cases a with ⟨negative, rfl⟩ | ⟨-, text⟩ | ⟨finite, -, text⟩
  · cases negative <;> constructor <;> decide
  · rw [text]
    constructor <;> decide
  · rw [text, String.toList_ofList]
    exact SparseTuple.plain_of_chars (Binary64.decimalText_chars finite)

theorem parse_print (typeName : String) (a : Binary64) :
    parse typeName (print a) = .ok (reread a) := by
  rcases print_cases a with ⟨negative, rfl⟩ | ⟨nan, text⟩ | ⟨finite, number, text⟩
  · cases negative <;> rfl
  · rw [text, reread, if_pos nan]
    rfl
  · have chars := Binary64.decimalText_chars finite
    have plain := SparseTuple.plain_of_chars chars
    have word : a.decimalText ≠ "BadNumber".toList := by
      intro same
      rw [same] at chars
      exact absurd (chars 'B' (by decide)) (by decide)
    obtain ⟨numeral, read, value⟩ := Option.map_eq_some_iff.mp (Binary64.read_decimalText finite)
    unfold parse
    rw [text, String.toList_ofList, plain.trimmed, if_neg word, read, reread, number]
    change Except.ok (positiveZero (Binary64.ofNumeral numeral)) = _
    rw [value]
    rfl

theorem positiveZero_cases (a : Binary64) :
    positiveZero a = a ∨ (positiveZero a = .zero false ∧ a.isNan = false) := by
  unfold positiveZero
  split
  · rename_i zero
    right
    refine ⟨rfl, ?_⟩
    cases number : a.isNan with
    | false => rfl
    | true =>
      change (Binary64.le a (.zero false) && Binary64.le (.zero false) a) = true at zero
      simp [Binary64.le, number] at zero
  · exact .inl rfl

theorem positiveZero_isNan (number : a.isNan = false) : (positiveZero a).isNan = false := by
  rcases positiveZero_cases a with same | ⟨zero, -⟩
  · rwa [same]
  · rw [zero]
    rfl

theorem positiveZero_positiveZero (a : Binary64) :
    positiveZero (positiveZero a) = positiveZero a := by
  rcases positiveZero_cases a with same | ⟨zero, -⟩
  · rw [same, same]
  · rw [zero]
    rfl

-- A value that is no number without its sign; every other cost as it is.
def settled (a : Binary64) : Binary64 :=
  if a.isNan then .nan false else a

-- A text that is read has no sign left on a zero. The sign on the word for what is no number
-- stays.
theorem parse_cases {typeName text : String} (read : parse typeName text = .ok a) :
    (∃ negative, a = .nan negative) ∨ (a.isNan = false ∧ positiveZero a = a) := by
  unfold parse at read
  dsimp only at read
  split at read
  · cases read
    exact .inl ⟨false, rfl⟩
  · split at read
    · rename_i numeral _
      cases read
      rcases Binary64.ofNumeral_isNan numeral with ⟨negative, rfl⟩ | number
      · left
        refine ⟨negative, ?_⟩
        cases negative <;> rfl
      · exact .inr ⟨positiveZero_isNan number, positiveZero_positiveZero _⟩
    · cases read

theorem reread_of_parse {typeName text : String} (read : parse typeName text = .ok a) :
    reread a = settled a := by
  rcases parse_cases read with ⟨negative, rfl⟩ | ⟨number, zero⟩
  · rfl
  · rw [reread, settled, number, zero]

theorem settled_eq_iff {typeName text : String} (read : parse typeName text = .ok a) :
    settled a = a ↔ a ≠ .nan true := by
  rcases parse_cases read with ⟨negative, rfl⟩ | ⟨number, -⟩
  · cases negative <;> decide
  · rw [settled, number, if_neg Bool.false_ne_true]
    refine iff_of_true rfl ?_
    rintro rfl
    exact absurd number (by decide)

end Cost

class Costly (W : Type) [WeightText W] where
  cost : W → Binary64
  ofCost : Binary64 → W
  typeName : String
  ofCost_cost : ∀ a, ofCost (cost a) = a
  cost_ofCost : ∀ x, cost (ofCost x) = x
  print_eq : ∀ a, WeightText.print a = Cost.print (cost a)
  parse_eq : ∀ text, WeightText.parse text = (Cost.parse typeName text).map ofCost

instance : Costly (Tropical Binary64) where
  cost := Tropical.value
  ofCost := Tropical.mk
  typeName := "tropical"
  ofCost_cost _ := rfl
  cost_ofCost _ := rfl
  print_eq _ := rfl
  parse_eq _ := rfl

instance : Costly (Log Binary64) where
  cost := Log.value
  ofCost := Log.mk
  typeName := "log"
  ofCost_cost _ := rfl
  cost_ofCost _ := rfl
  print_eq _ := rfl
  parse_eq _ := rfl

namespace Costly
variable {W : Type} [WeightText W] [Costly W] {a : W}

def settled (a : W) : W :=
  ofCost (Cost.settled (cost a))

def Parsed (a : W) : Prop :=
  ∃ text, WeightText.parse text = .ok a

theorem Parsed.cost (parsed : Parsed a) :
    ∃ text, Cost.parse (typeName W) text = .ok (cost a) := by
  obtain ⟨text, read⟩ := parsed
  refine ⟨text, ?_⟩
  rw [parse_eq] at read
  cases found : (Cost.parse (typeName W) text : Except ParseError Binary64) with
  | error fault =>
    rw [found] at read
    cases read
  | ok x =>
    rw [found] at read
    cases read
    rw [cost_ofCost]

theorem rereads : Rereads (Parsed : W → Prop) settled where
  element {a} _ := by
    rw [print_eq]
    exact (Cost.print_plain (cost a)).element
  parse_print {a} parsed := by
    obtain ⟨text, read⟩ := parsed.cost
    rw [print_eq, parse_eq, Cost.parse_print, Cost.reread_of_parse read]
    rfl

theorem settled_eq_iff (parsed : Parsed a) : settled a = a ↔ cost a ≠ .nan true := by
  obtain ⟨text, read⟩ := parsed.cost
  rw [← Cost.settled_eq_iff read]
  constructor
  · intro same
    rw [← cost_ofCost (W := W) (Cost.settled (cost a))]
    exact congrArg cost same
  · intro same
    rw [settled, same, ofCost_cost]

end Costly

namespace Nested
variable {W : Type} [Weight W] [WeightText W] [Costly W] {widths : List Width}

structure Reread (t u : Nested W widths) : Prop where
  read : WeightText.parse (WeightText.print t) = .ok u
  canonical : Canonical widths u
  scalars : ∀ trail, scalar trail u = Costly.settled (scalar trail t)
  same : (u == t) = true ↔ ∀ trail, Costly.cost (scalar trail t) ≠ .nan true

theorem exists_reread [LawfulBEq W] {text : String} {t : Nested W widths}
    (read : WeightText.parse text = .ok t) : ∃ u, Reread t u := by
  have member : Over Costly.Parsed widths t :=
    parse_over (fun {text _} read => ⟨text, read⟩) read
  have canonical := canonical_of_over member
  refine ⟨mapScalars Costly.settled widths t, (rereads Costly.rereads widths).parse_print member,
    mapScalars_over (fun _ => trivial) canonical, scalar_mapScalars canonical, ?_⟩
  rw [beq_iff_eq, mapScalars_eq_iff canonical]
  exact forall_congr' fun trail => Costly.settled_eq_iff (scalar_of_over member trail)

-- Every text that names a nested tuple of tropical or log weights, or one such weight, names
-- what survives printing, but for the sign of what is no number: the tuple that is read
-- again is equal to the first exactly if none of its scalars has that sign.
theorem reread_parsed (widths : List Width) (text : String) :
    (∀ t : Nested (Tropical Binary64) widths, WeightText.parse text = .ok t → ∃ u, Reread t u) ∧
      ∀ t : Nested (Log Binary64) widths, WeightText.parse text = .ok t → ∃ u, Reread t u :=
  ⟨fun _ => exists_reread, fun _ => exists_reread⟩

def marked : Nested (Tropical Binary64) [.bits8, .bits16] :=
  let row (negative : Bool) : SparseTuple (Tropical Binary64) .bits16 :=
    ⟨⟨.nan negative⟩, [(⟨52, by decide, by decide⟩, ⟨.ofRatio false 3 2⟩)]⟩
  (⟨row false, [(⟨51, by decide, by decide⟩, row true)]⟩ :
    SparseTuple (SparseTuple (Tropical Binary64) .bits16) .bits8)

def unmarked : Nested (Log Binary64) [] :=
  (⟨.zero false⟩ : Log Binary64)

theorem marked_reread :
    WeightText.parse "(BadNumber,52,1.5),51,(-nan,52,1.5)" = .ok marked ∧
      (∃ u, Reread marked u ∧ (u == marked) = false) ∧
      WeightText.parse " -0" = .ok unmarked ∧ ∃ u, Reread unmarked u ∧ (u == unmarked) = true := by
  have marks : WeightText.parse "(BadNumber,52,1.5),51,(-nan,52,1.5)" = .ok marked := by rfl
  have zero : WeightText.parse " -0" = .ok unmarked := by rfl
  obtain ⟨u, first⟩ := (reread_parsed [.bits8, .bits16] _).1 marked marks
  obtain ⟨v, second⟩ := (reread_parsed [] _).2 unmarked zero
  have number : ∀ trail, Costly.cost (scalar trail unmarked) ≠ .nan true :=
    fun _ => show Binary64.zero false ≠ .nan true by decide
  refine ⟨marks, ⟨u, first, ?_⟩, zero, v, second, second.same.mpr number⟩
  rw [Bool.eq_false_iff, ne_eq, first.same]
  intro plain
  exact plain (.key ⟨51, by decide, by decide⟩, .background, ()) (by rfl)

end Nested
end WeightedAutomata
