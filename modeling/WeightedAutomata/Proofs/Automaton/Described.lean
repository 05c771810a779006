import Mathlib.Order.Bounds.Basic
import WeightedAutomata.Proofs.Automaton.Read
import WeightedAutomata.Proofs.LineFile
import WeightedAutomata.Proofs.Weight.Flag

namespace WeightedAutomata
open Weight
variable {W : Type}

namespace Statement

inductive Written [Weight W] [WeightText W] : List String → Statement W → Prop where
  | final {state : String} {s : Nat} (stateNumeral : Text.Numeral stateLimit state.toList s) :
      Written [state] (.final s one)
  | finalWeight {state weight : String} {s : Nat} {w : W}
      (stateNumeral : Text.Numeral stateLimit state.toList s)
      (parsed : WeightText.parse weight = .ok w) : Written [state, weight] (.final s w)
  | arc {source target input output : String} {s t i o : Nat}
      (sourceNumeral : Text.Numeral stateLimit source.toList s)
      (targetNumeral : Text.Numeral stateLimit target.toList t)
      (inputNumeral : Text.Numeral numberLimit input.toList i)
      (outputNumeral : Text.Numeral numberLimit output.toList o) :
      Written [source, target, input, output] (.arc s ⟨i, o, one, t⟩)
  | arcWeight {source target input output weight : String} {s t i o : Nat} {w : W}
      (sourceNumeral : Text.Numeral stateLimit source.toList s)
      (targetNumeral : Text.Numeral stateLimit target.toList t)
      (inputNumeral : Text.Numeral numberLimit input.toList i)
      (outputNumeral : Text.Numeral numberLimit output.toList o)
      (parsed : WeightText.parse weight = .ok w) :
      Written [source, target, input, output, weight] (.arc s ⟨i, o, w, t⟩)

theorem ofColumns_numeral [Weight W] [WeightText W] {source : String} {s : Nat}
    (numeral : Text.Numeral stateLimit source.toList s) (rest : List String) :
    ofColumns (W := W) (source :: rest) = ofRest s rest := by
  rw [ofColumns, LineFile.state_eq_ok_iff.mpr numeral]
  rfl

theorem ofColumns_eq_ok_iff [Weight W] [WeightText W] (columns : List String)
    (statement : Statement W) :
    ofColumns columns = .ok statement ↔ Written columns statement := by
  constructor
  · intro accepted
    cases columns with
    | nil => cases accepted
    | cons source rest =>
      obtain ⟨s, sourceRead, accepted⟩ := ok_bind accepted
      have sourceNumeral := LineFile.state_eq_ok_iff.mp sourceRead
      unfold ofRest at accepted
      split at accepted
      · cases accepted
        exact .final sourceNumeral
      · obtain ⟨w, weightRead, accepted⟩ := ok_bind accepted
        cases accepted
        exact .finalWeight sourceNumeral (LineFile.weight_eq_ok_iff.mp weightRead)
      · obtain ⟨t, targetRead, accepted⟩ := ok_bind accepted
        obtain ⟨i, inputRead, accepted⟩ := ok_bind accepted
        obtain ⟨o, outputRead, accepted⟩ := ok_bind accepted
        cases accepted
        exact .arc sourceNumeral (LineFile.state_eq_ok_iff.mp targetRead)
          (LineFile.label_eq_ok_iff.mp inputRead) (LineFile.label_eq_ok_iff.mp outputRead)
      · obtain ⟨t, targetRead, accepted⟩ := ok_bind accepted
        obtain ⟨i, inputRead, accepted⟩ := ok_bind accepted
        obtain ⟨o, outputRead, accepted⟩ := ok_bind accepted
        obtain ⟨w, weightRead, accepted⟩ := ok_bind accepted
        cases accepted
        exact .arcWeight sourceNumeral (LineFile.state_eq_ok_iff.mp targetRead)
          (LineFile.label_eq_ok_iff.mp inputRead) (LineFile.label_eq_ok_iff.mp outputRead)
          (LineFile.weight_eq_ok_iff.mp weightRead)
      · cases accepted
  · intro written
    cases written with
    | final stateNumeral =>
      exact ofColumns_numeral stateNumeral []
    | finalWeight stateNumeral parsed =>
      rw [ofColumns_numeral stateNumeral, ofRest, LineFile.weight_eq_ok_iff.mpr parsed]
      rfl
    | arc sourceNumeral targetNumeral inputNumeral outputNumeral =>
      rw [ofColumns_numeral sourceNumeral, ofRest, LineFile.state_eq_ok_iff.mpr targetNumeral,
        LineFile.label_eq_ok_iff.mpr inputNumeral, LineFile.label_eq_ok_iff.mpr outputNumeral]
      rfl
    | arcWeight sourceNumeral targetNumeral inputNumeral outputNumeral parsed =>
      rw [ofColumns_numeral sourceNumeral, ofRest, LineFile.state_eq_ok_iff.mpr targetNumeral,
        LineFile.label_eq_ok_iff.mpr inputNumeral, LineFile.label_eq_ok_iff.mpr outputNumeral,
        LineFile.weight_eq_ok_iff.mpr parsed]
      rfl

def Mentions : Statement W → Nat → Prop
  | arc source step, s => s = source ∨ s = step.target
  | final state _, s => s = state

theorem mentions_lastState (statement : Statement W) : statement.Mentions statement.lastState := by
  cases statement with
  | arc source step =>
    change max source step.target = source ∨ max source step.target = step.target
    omega
  | final s weight => rfl

theorem le_lastState {statement : Statement W} {s : Nat} (named : statement.Mentions s) :
    s ≤ statement.lastState := by
  cases statement with
  | arc source step =>
    rcases named with rfl | rfl
    · exact Nat.le_max_left _ _
    · exact Nat.le_max_right _ _
  | final q weight => exact Nat.le_of_eq named

def arc? (s : Nat) : Statement W → Option (Arc W)
  | arc source step => if source = s then some step else none
  | final _ _ => none

def final? (s : Nat) : Statement W → Option W
  | arc _ _ => none
  | final state weight => if state = s then some weight else none

theorem arc?_other {s : Nat} {statement : Statement W} (other : statement.source ≠ s) :
    statement.arc? s = none := by
  cases statement with
  | arc source step => exact if_neg other
  | final state weight => rfl

theorem final?_other {s : Nat} {statement : Statement W} (other : statement.source ≠ s) :
    statement.final? s = none := by
  cases statement with
  | arc source step => rfl
  | final state weight => exact if_neg other

theorem revise_eq (s : Nat) (state : State W) (statement : Statement W) :
    statement.revise s state = ⟨(statement.final? s).getD state.finalWeight,
      state.arcs ++ (statement.arc? s).toArray⟩ := by
  cases statement with
  | arc source step => by_cases own : source = s <;> simp [revise, final?, arc?, own]
  | final q weight => by_cases own : q = s <;> simp [revise, final?, arc?, own]

theorem foldl_revise (s : Nat) (state : State W) (statements : List (Statement W)) :
    statements.foldl (revise s) state =
      ⟨(statements.filterMap (final? s)).getLast?.getD state.finalWeight,
        state.arcs ++ (statements.filterMap (arc? s)).toArray⟩ := by
  induction statements generalizing state with
  | nil => simp
  | cons statement rest ih =>
    rw [List.foldl_cons, ih, revise_eq]
    cases weight : statement.final? s <;> cases step : statement.arc? s <;>
      simp [List.getLast?_cons, weight, step]

-- Two neighbours that are about different states have changed places.
def Passed (before after : List (Statement W)) : Prop :=
  ∃ front x y back, x.source ≠ y.source ∧ before = front ++ x :: y :: back ∧
    after = front ++ y :: x :: back

-- What statements say of a state is not changed by statements that are moved past those of
-- other states.
theorem filterMap_passed {X : Type} {s : Nat} {f : Statement W → Option X}
    (others : ∀ statement, statement.source ≠ s → f statement = none)
    {before after : List (Statement W)} (passed : Passed before after) :
    after.filterMap f = before.filterMap f := by
  obtain ⟨front, x, y, back, differ, rfl, rfl⟩ := passed
  have either : f x = none ∨ f y = none := by
    by_cases own : x.source = s
    · exact .inr (others y fun same => differ (own.trans same.symm))
    · exact .inl (others x own)
  rw [List.filterMap_append, List.filterMap_append]
  rcases either with silent | silent
  · cases said : f y with
    | none =>
      rw [List.filterMap_cons_none said, List.filterMap_cons_none silent,
        List.filterMap_cons_none silent, List.filterMap_cons_none said]
    | some value =>
      rw [List.filterMap_cons_some said, List.filterMap_cons_none silent,
        List.filterMap_cons_none silent, List.filterMap_cons_some said]
  · cases said : f x with
    | none =>
      rw [List.filterMap_cons_none silent, List.filterMap_cons_none said,
        List.filterMap_cons_none said, List.filterMap_cons_none silent]
    | some value =>
      rw [List.filterMap_cons_none silent, List.filterMap_cons_some said,
        List.filterMap_cons_some said, List.filterMap_cons_none silent]

theorem filterMap_moved {X : Type} {s : Nat} {f : Statement W → Option X}
    (others : ∀ statement, statement.source ≠ s → f statement = none)
    {before after : List (Statement W)} (moved : Relation.ReflTransGen Passed before after) :
    after.filterMap f = before.filterMap f := by
  induction moved with
  | refl => rfl
  | tail _ passed ih => exact (filterMap_passed others passed).trans ih

theorem mem_moved {before after : List (Statement W)}
    (moved : Relation.ReflTransGen Passed before after) (statement : Statement W) :
    statement ∈ after ↔ statement ∈ before := by
  induction moved with
  | refl => exact Iff.rfl
  | tail _ passed ih =>
    obtain ⟨front, x, y, back, _, rfl, rfl⟩ := passed
    rw [← ih]
    simp only [List.mem_append, List.mem_cons]
    rw [or_left_comm (a := statement = y)]

end Statement

namespace Automaton
variable [Weight W] {a b : Automaton W} {statements others : List (Statement W)}

structure Described (statements : List (Statement W)) (a : Automaton W) : Prop where
  states : statements = [] ∧ a.states = #[] ∨
    ∃ last, IsGreatest {s | ∃ statement ∈ statements, statement.Mentions s} last ∧
      a.states.size = last + 1
  start : a.start = statements.head?.map Statement.source
  arcs : ∀ s state, a.states[s]? = some state →
    state.arcs.toList = statements.filterMap (Statement.arc? s)
  final : ∀ s state, a.states[s]? = some state →
    state.finalWeight = (statements.filterMap (Statement.final? s)).getLast?.getD zero

theorem ofStatements_states (statements : List (Statement W)) :
    statements = [] ∧ (ofStatements statements.toArray).states = #[] ∨
      ∃ last, IsGreatest {s | ∃ statement ∈ statements, statement.Mentions s} last ∧
        (ofStatements statements.toArray).states.size = last + 1 := by
  rw [ofStatements_toArray]
  cases statements with
  | nil => exact .inl ⟨rfl, rfl⟩
  | cons first rest =>
    obtain ⟨-, covers, least⟩ := foldl_extend_size ({} : Automaton W) (first :: rest)
    generalize ((first :: rest).foldl extend {}).states.size = size at covers least
    have some := covers first (by simp)
    -- Were every statement below the last state, it would not have come into being.
    have last : ∃ statement ∈ first :: rest, statement.lastState = size - 1 := by
      refine Classical.byContradiction fun none => ?_
      have smaller := least (size - 1) (Nat.zero_le _) fun statement listed => by
        have inside := covers statement listed
        have other : statement.lastState ≠ size - 1 := fun same => none ⟨statement, listed, same⟩
        omega
      omega
    obtain ⟨statement, listed, same⟩ := last
    refine .inr ⟨size - 1, ⟨⟨statement, listed, same ▸ statement.mentions_lastState⟩, ?_⟩, by omega⟩
    rintro s ⟨other, otherListed, named⟩
    have inside := covers other otherListed
    have below := Statement.le_lastState named
    omega

theorem ofStatements_described (statements : List (Statement W)) :
    Described statements (ofStatements statements.toArray) := by
  have told : ∀ s (state : State W),
      (ofStatements statements.toArray).states[s]? = some state →
        state = ⟨(statements.filterMap (Statement.final? s)).getLast?.getD zero,
          (statements.filterMap (Statement.arc? s)).toArray⟩ := by
    intro s state found
    have read := foldl_extend_known ({} : Automaton W) statements s
    rw [← ofStatements_toArray, known, found, Option.getD_some, Statement.foldl_revise] at read
    rw [read]
    simp [known, State.blank]
  refine ⟨ofStatements_states statements, ?_, ?_, ?_⟩
  · rw [ofStatements_toArray, foldl_extend_start]
    rfl
  · intro s state found
    rw [told s state found]
  · intro s state found
    rw [told s state found]

theorem Described.unique (left : Described statements a) (right : Described statements b) :
    a = b := by
  have size : a.states.size = b.states.size := by
    rcases left.states with ⟨none, leftNone⟩ | ⟨m, mGreatest, leftSize⟩ <;>
      rcases right.states with ⟨none, rightNone⟩ | ⟨n, nGreatest, rightSize⟩
    · rw [leftNone, rightNone]
    · obtain ⟨statement, listed, -⟩ := nGreatest.1
      simp [none] at listed
    · obtain ⟨statement, listed, -⟩ := mGreatest.1
      simp [none] at listed
    · rw [leftSize, rightSize, mGreatest.unique nGreatest]
  apply ext_states (left.start.trans right.start.symm)
  intro s
  by_cases inside : s < a.states.size
  · have leftFound := Array.getElem?_eq_getElem inside
    have rightFound := Array.getElem?_eq_getElem (size ▸ inside)
    rw [leftFound, rightFound]
    have final := (left.final s _ leftFound).trans (right.final s _ rightFound).symm
    have arcs := (left.arcs s _ leftFound).trans (right.arcs s _ rightFound).symm
    exact congrArg some (State.mk.injEq .. ▸ ⟨final, Array.toList_inj.mp arcs⟩)
  · rw [Array.getElem?_eq_none (by omega), Array.getElem?_eq_none (by omega)]

theorem Described.moved (described : Described statements a)
    (moved : Relation.ReflTransGen Statement.Passed statements others)
    (first : others.head? = statements.head?) : Described others a := by
  have named : {s | ∃ statement ∈ others, statement.Mentions s} =
      {s | ∃ statement ∈ statements, statement.Mentions s} := by
    simp only [Statement.mem_moved moved]
  refine ⟨?_, ?_, ?_, ?_⟩
  · rw [named]
    refine described.states.imp_left ?_
    rintro ⟨rfl, none⟩
    exact ⟨List.head?_eq_none_iff.mp first, none⟩
  · rw [first]
    exact described.start
  · intro s state found
    rw [Statement.filterMap_moved (s := s) (fun _ => Statement.arc?_other) moved]
    exact described.arcs s state found
  · intro s state found
    rw [Statement.filterMap_moved (s := s) (fun _ => Statement.final?_other) moved]
    exact described.final s state found

section Reading
variable [WeightText W]

theorem read_said {content : ByteArray}
    (said : LineFile.Said Statement.Written (Text.lines content) statements) (name : String) :
    read name content = .ok (ofStatements statements.toArray) := by
  have accepted : LineFile.read name Statement.ofColumns content = .ok statements.toArray :=
    (LineFile.read_eq_ok_iff Statement.ofColumns_eq_ok_iff).mpr said
  rw [read, accepted]
  rfl

-- A text all of whose lines are blank or well written is read as the automaton that they
-- describe. Lines of different states can be moved past each other if the first stays first.
theorem read_described {content : ByteArray}
    (said : LineFile.Said Statement.Written (Text.lines content) statements) (name : String) :
    ∃ a, read name content = .ok a ∧ Described statements a ∧
      ∀ others, Relation.ReflTransGen Statement.Passed statements others →
        others.head? = statements.head? → ∀ otherContent,
          LineFile.Said Statement.Written (Text.lines otherContent) others →
            ∀ otherName, read otherName otherContent = .ok a := by
  have described := ofStatements_described statements
  refine ⟨_, read_said said name, described, ?_⟩
  intro others moved first otherContent otherSaid otherName
  have same := (ofStatements_described others).unique (described.moved moved first)
  rw [read_said otherSaid otherName, same]

end Reading

-- The final weight of the start is replaced later, and the lines of two states alternate.
def alternating : ByteArray :=
  "1 T\n\n0 2 7 8\n1 F\n1 0 +3 4 F\n0 1 5 6\n".toUTF8

def sorted : ByteArray :=
  "1 T\n1 F\n1 0 3 4 F\n\n0 2 7 8 T\n0 1 5 6".toUTF8

def alternatingStatements : List (Statement Flag) :=
  [.final 1 ⟨true⟩, .arc 0 ⟨7, 8, ⟨true⟩, 2⟩, .final 1 ⟨false⟩, .arc 1 ⟨3, 4, ⟨false⟩, 0⟩,
    .arc 0 ⟨5, 6, ⟨true⟩, 1⟩]

def sortedStatements : List (Statement Flag) :=
  [.final 1 ⟨true⟩, .final 1 ⟨false⟩, .arc 1 ⟨3, 4, ⟨false⟩, 0⟩, .arc 0 ⟨7, 8, ⟨true⟩, 2⟩,
    .arc 0 ⟨5, 6, ⟨true⟩, 1⟩]

theorem alternating_described :
    LineFile.Said Statement.Written (Text.lines alternating) alternatingStatements ∧
      LineFile.Said Statement.Written (Text.lines sorted) sortedStatements ∧
      Relation.ReflTransGen Statement.Passed alternatingStatements sortedStatements ∧
      ∃ a : Automaton Flag, read "a.fst" alternating = .ok a ∧
        Described alternatingStatements a ∧ read "b.fst" sorted = .ok a := by
  have lines : Text.lines alternating =
      [some "1 T", some "", some "0 2 7 8", some "1 F", some "1 0 +3 4 F", some "0 1 5 6"] := by
    decide +kernel
  have sortedLines : Text.lines sorted =
      [some "1 T", some "1 F", some "1 0 3 4 F", some "", some "0 2 7 8 T", some "0 1 5 6"] := by
    decide +kernel
  have written := fun columns (statement : Statement Flag) =>
    (Statement.ofColumns_eq_ok_iff columns statement).mp
  have said : LineFile.Said Statement.Written (Text.lines alternating) alternatingStatements := by
    rw [lines]
    exact .line (by decide) (written _ _ rfl) (.blank rfl (.line (by decide) (written _ _ rfl)
      (.line (by decide) (written _ _ rfl) (.line (by decide) (written _ _ rfl)
        (.line (by decide) (written _ _ rfl) .nil)))))
  have sortedSaid : LineFile.Said Statement.Written (Text.lines sorted) sortedStatements := by
    rw [sortedLines]
    exact .line (by decide) (written _ _ rfl) (.line (by decide) (written _ _ rfl)
      (.line (by decide) (written _ _ rfl) (.blank rfl (.line (by decide) (written _ _ rfl)
        (.line (by decide) (written _ _ rfl) .nil)))))
  have moved : Relation.ReflTransGen Statement.Passed alternatingStatements sortedStatements :=
    .head ⟨[_], _, _, [_, _], by decide, rfl, rfl⟩
      (.single ⟨[_, _], _, _, [_], by decide, rfl, rfl⟩)
  obtain ⟨a, accepted, described, others⟩ := read_described said "a.fst"
  exact ⟨said, sortedSaid, moved, a, accepted, described,
    others _ moved rfl _ sortedSaid "b.fst"⟩

end Automaton
end WeightedAutomata
