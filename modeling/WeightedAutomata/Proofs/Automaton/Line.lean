import WeightedAutomata.Proofs.Automaton.Read
import WeightedAutomata.Proofs.Text.Integer
import WeightedAutomata.Proofs.Text.Lines

namespace WeightedAutomata
open Text

-- Weights whose texts can stand in a column and are read as the same weight.
class Spelled (W : Type) [WeightText W] : Prop where
  column : ∀ weight : W, Column (WeightText.print weight).toList
  parse_print : ∀ weight : W, WeightText.parse (WeightText.print weight) = .ok weight

namespace LineFile
variable {n : Nat}

theorem state_toString (inside : n < stateLimit) : state (toString n) = .ok n := by
  have below : n < numberLimit := Nat.lt_trans inside (by decide)
  rw [state, toString_toList, natural?_naturalText below]
  exact if_pos inside

theorem state_toString_beyond (beyond : stateLimit ≤ n) (below : n < numberLimit) :
    state (toString n) = .error (.stateOutOfRange n) := by
  rw [state, toString_toList, natural?_naturalText below]
  exact if_neg (Nat.not_lt_of_le beyond)

theorem label_toString (below : n < numberLimit) : label (toString n) = .ok n := by
  rw [label, toString_toList, natural?_naturalText below]

theorem weight_print {W : Type} [WeightText W] [Spelled W] (w : W) :
    weight (WeightText.print w) = .ok w := by
  rw [weight, Spelled.parse_print]
  rfl

end LineFile

theorem column_toString (n : Nat) : Column (toString n).toList := by
  rw [toString_toList]
  exact ⟨naturalText_ne_nil n, fun c digit => isBlank_of_isDigit (naturalText_digits n c digit)⟩

namespace Statement
open Weight
variable {W : Type} [Weight W] [WeightText W] {statement : Statement W}

def columns : Statement W → List String
  | arc source step => Automaton.arcColumns source step
  | final s weight => toString s :: Automaton.weightColumn weight

def line (statement : Statement W) : String :=
  "\t".intercalate statement.columns

section Columns
variable [Spelled W]

theorem columns_plain (statement : Statement W) :
    ∀ text ∈ statement.columns, Column text.toList := by
  have last : ∀ w : W, ∀ text ∈ Automaton.weightColumn w, Column text.toList := by
    intro w text present
    unfold Automaton.weightColumn at present
    split at present
    · cases present
    · rw [List.mem_singleton.mp present]
      exact Spelled.column w
  intro text present
  cases statement with
  | arc source step =>
    rcases List.mem_append.mp present with number | weight
    · obtain ⟨n, _, rfl⟩ := List.mem_map.mp number
      exact column_toString n
    · exact last step.weight text weight
  | final s weight =>
    rcases List.mem_cons.mp present with rfl | weightPresent
    · exact column_toString s
    · exact last weight text weightPresent

theorem columns_line (statement : Statement W) :
    Text.columns statement.line.toList = statement.columns.map String.toList := by
  rw [line, String.toList_intercalate]
  apply columns_intercalate
  intro text present
  obtain ⟨column, listed, rfl⟩ := List.mem_map.mp present
  exact statement.columns_plain column listed

theorem line_unbroken (statement : Statement W) : '\n' ∉ statement.line.toList := by
  rw [line, String.toList_intercalate]
  apply not_mem_intercalate
  · decide
  · intro text present broken
    obtain ⟨column, listed, rfl⟩ := List.mem_map.mp present
    have blank := (statement.columns_plain column listed).2 '\n' broken
    exact absurd blank (by decide)

theorem judgeLine_line (statement : Statement W) :
    LineFile.judgeLine (ofColumns (W := W)) statement.line =
      (ofColumns statement.columns).map some := by
  have said : statement.columns ≠ [] := by
    cases statement <;> simp [columns, Automaton.arcColumns]
  unfold LineFile.judgeLine
  rw [columns_line]
  cases listed : statement.columns with
  | nil => exact absurd listed said
  | cons column rest => simp [Function.comp_def]

end Columns

theorem ofColumns_source {s : Nat} (inside : s < stateLimit) (rest : List String) :
    ofColumns (W := W) (toString s :: rest) = ofRest s rest := by
  rw [ofColumns, LineFile.state_toString inside]
  rfl

theorem ofColumns_columns [Tested (fun _ : W => True)] [Spelled W] (inRange : statement.InRange) :
    ofColumns statement.columns = .ok statement := by
  cases statement with
  | arc source step =>
    obtain ⟨inside, targetIn, inputIn, outputIn⟩ := inRange
    have target := LineFile.state_toString targetIn
    have input := LineFile.label_toString inputIn
    have output := LineFile.label_toString outputIn
    refine (ofColumns_source inside _).trans ?_
    change ofRest source (toString step.target :: toString step.input :: toString step.output ::
      Automaton.weightColumn step.weight) = _
    cases plain : isOne step.weight with
    | true =>
      simp only [Automaton.weightColumn, plain, if_true, ofRest, target, input, output,
        ← Tested.one_iff.mp plain]
      rfl
    | false =>
      simp only [Automaton.weightColumn, plain, Bool.false_eq_true, if_false, ofRest, target, input,
        output, LineFile.weight_print]
      rfl
  | final s weight =>
    refine (ofColumns_source inRange _).trans ?_
    cases plain : isOne weight with
    | true => simp [Automaton.weightColumn, plain, ofRest, ← Tested.one_iff.mp plain]
    | false =>
      simp only [Automaton.weightColumn, plain, Bool.false_eq_true, if_false, ofRest,
        LineFile.weight_print]
      rfl

end Statement
end WeightedAutomata
