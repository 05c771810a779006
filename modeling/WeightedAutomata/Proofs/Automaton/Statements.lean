import WeightedAutomata.Automaton.Text
import WeightedAutomata.Proofs.Automaton.Path

namespace WeightedAutomata
variable {W : Type}

namespace Statement

def revise (s : Nat) (state : State W) : Statement W → State W
  | arc source step => if source = s then { state with arcs := state.arcs.push step } else state
  | final q weight => if q = s then { state with finalWeight := weight } else state

def InRange : Statement W → Prop
  | arc source step => source < stateLimit ∧ step.target < stateLimit ∧ step.input < numberLimit ∧
      step.output < numberLimit
  | final state _ => state < stateLimit

theorem source_le_lastState (statement : Statement W) : statement.source ≤ statement.lastState := by
  cases statement with
  | arc source step => exact Nat.le_max_left _ _
  | final s weight => exact Nat.le_refl _

theorem revise_other {s : Nat} {statement : Statement W} (other : statement.source ≠ s)
    (state : State W) : statement.revise s state = state := by
  cases statement with
  | arc source step => exact if_neg other
  | final q weight => exact if_neg other

theorem revise_arc {statement : Statement W} {state : State W} {s i : Nat} {arc : Arc W}
    (found : (statement.revise s state).arcs[i]? = some arc) :
    state.arcs[i]? = some arc ∨ statement = .arc s arc := by
  cases statement with
  | arc source step =>
    simp only [revise] at found
    split at found
    · rename_i same
      subst s
      rw [Array.getElem?_push] at found
      split at found
      · exact .inr (by rw [Option.some.inj found])
      · exact .inl found
    · exact .inl found
  | final q weight =>
    simp only [revise] at found
    split at found <;> exact .inl found

theorem lastState_lt {statement : Statement W} (inRange : statement.InRange) :
    statement.lastState < stateLimit := by
  cases statement with
  | arc source step => exact Nat.max_lt.mpr ⟨inRange.1, inRange.2.1⟩
  | final s weight => exact inRange

end Statement

namespace Automaton
variable [Weight W] {a : Automaton W} {s : Nat} {statement : Statement W}
  {statements : List (Statement W)}

-- A state that is there, or what it will be before anything is said of it.
def known (a : Automaton W) (s : Nat) : State W :=
  a.states[s]?.getD State.blank

theorem ensureState_size (a : Automaton W) (s : Nat) :
    (a.ensureState s).states.size = max a.states.size (s + 1) := by
  simp only [ensureState, Array.size_append, Array.size_replicate]
  omega

theorem ensureState_known (a : Automaton W) (s q : Nat) :
    (a.ensureState s).known q = a.known q := by
  unfold known ensureState
  by_cases old : q < a.states.size
  · rw [Array.getElem?_append_left old]
  · have beyond : a.states.size ≤ q := Nat.le_of_not_lt old
    rw [Array.getElem?_append_right beyond, Array.getElem?_eq_none beyond, Array.getElem?_replicate]
    split <;> rfl

theorem extend_size (a : Automaton W) (statement : Statement W) :
    (a.extend statement).states.size = max a.states.size (statement.lastState + 1) := by
  rw [← ensureState_size]
  cases statement <;> simp [extend]

theorem extend_known (a : Automaton W) (statement : Statement W) (s : Nat) :
    (a.extend statement).known s = statement.revise s (a.known s) := by
  have grown := ensureState_known a statement.lastState
  have size := ensureState_size a statement.lastState
  have exist : statement.source < (a.ensureState statement.lastState).states.size := by
    have last := statement.source_le_lastState
    omega
  rw [← grown s]
  cases statement with
  | arc source step =>
    simp only [extend, known, Array.getElem?_modify, Statement.revise]
    by_cases same : source = s
    · subst s
      have found := Array.getElem?_eq_getElem exist
      simp only [Statement.source] at found
      simp [found]
    · simp [same]
  | final q weight =>
    simp only [extend, known, Array.getElem?_modify, Statement.revise]
    by_cases same : q = s
    · subst s
      have found := Array.getElem?_eq_getElem exist
      simp only [Statement.source] at found
      simp [found]
    · simp [same]

theorem state_eq_known (exist : s < a.states.size) : a.states[s]? = some (a.known s) := by
  rw [known, Array.getElem?_eq_getElem exist, Option.getD_some]

theorem known_of_missing (missing : a.states.size ≤ s) : a.known s = State.blank := by
  rw [known, Array.getElem?_eq_none missing, Option.getD_none]

theorem foldl_extend_known (a : Automaton W) (statements : List (Statement W)) (s : Nat) :
    (statements.foldl extend a).known s =
      statements.foldl (Statement.revise s) (a.known s) := by
  induction statements generalizing a with
  | nil => rfl
  | cons statement rest ih => rw [List.foldl_cons, List.foldl_cons, ih, extend_known]

theorem foldl_extend_size (a : Automaton W) (statements : List (Statement W)) :
    a.states.size ≤ (statements.foldl extend a).states.size ∧
      (∀ statement ∈ statements,
        statement.lastState < (statements.foldl extend a).states.size) ∧
      ∀ n, a.states.size ≤ n → (∀ statement ∈ statements, statement.lastState < n) →
        (statements.foldl extend a).states.size ≤ n := by
  induction statements generalizing a with
  | nil => exact ⟨Nat.le_refl _, by simp, fun n bound _ => bound⟩
  | cons statement rest ih =>
    obtain ⟨grows, covers, least⟩ := ih (a.extend statement)
    rw [extend_size] at grows least
    rw [List.foldl_cons]
    refine ⟨by omega, ?_, ?_⟩
    · intro other present
      rcases List.mem_cons.mp present with rfl | later
      · omega
      · exact covers other later
    · intro n bound within
      have first := within statement (by simp)
      exact least n (by omega) fun other later => within other (by simp [later])

theorem foldl_extend_start (a : Automaton W) (statements : List (Statement W)) :
    (statements.foldl extend a).start = a.start.or (statements.head?.map Statement.source) := by
  induction statements generalizing a with
  | nil => simp
  | cons statement rest ih =>
    rw [List.foldl_cons, ih]
    cases begins : a.start <;> simp [extend, begins]

theorem ofStatements_toArray (statements : List (Statement W)) :
    ofStatements statements.toArray = statements.foldl extend {} := by
  rw [ofStatements, List.foldl_toArray]

-- The states and labels of an automaton that can be written in a file, and a start
-- wherever there is a state.
structure InRange (a : Automaton W) : Prop where
  closed : a.Closed
  labels : ∀ s i arc, a.arc? s i = some arc → arc.input < numberLimit ∧ arc.output < numberLimit
  begun : a.start = none → a.states = #[]

theorem known_arc? {i : Nat} : a.arc? s i = (a.known s).arcs[i]? := by
  unfold arc? known
  cases found : a.states[s]? with
  | none => simp [State.blank]
  | some state => simp

theorem extend_inRange (inRange : a.InRange) (statement : Statement W)
    (sound : statement.InRange) : (a.extend statement).InRange := by
  have size := extend_size a statement
  have arcs : ∀ s i arc, (a.extend statement).arc? s i = some arc →
      a.arc? s i = some arc ∨ statement = .arc s arc := by
    intro s i arc found
    rw [known_arc?, extend_known] at found
    rw [known_arc?]
    exact Statement.revise_arc found
  refine ⟨⟨?_, ?_⟩, ?_, ?_⟩
  · intro s begins
    have last := statement.source_le_lastState
    cases old : a.start with
    | none =>
      simp only [extend, old, Option.getD_none, Option.some.injEq] at begins
      omega
    | some start =>
      simp only [extend, old, Option.getD_some, Option.some.injEq] at begins
      have inside := inRange.closed.start start old
      omega
  · intro state present arc leaves
    obtain ⟨s, found⟩ := Array.mem_iff_getElem?.mp present
    obtain ⟨i, arcFound⟩ := Array.mem_iff_getElem?.mp leaves
    rcases arcs s i arc (arc?_eq_some.mpr ⟨state, found, arcFound⟩) with old | rfl
    · have inside := arc?_target inRange.closed old
      omega
    · have target : arc.target ≤ (Statement.arc s arc).lastState := Nat.le_max_right _ _
      omega
  · intro s i arc found
    rcases arcs s i arc found with old | rfl
    · exact inRange.labels s i arc old
    · exact sound.2.2
  · intro unstarted
    simp [extend] at unstarted

theorem ofStatements_inRange {statements : Array (Statement W)}
    (sound : ∀ statement ∈ statements, statement.InRange) :
    (ofStatements statements).InRange ∧ (ofStatements statements).states.size ≤ stateLimit := by
  have folded : ∀ (l : List (Statement W)) (a : Automaton W), (∀ statement ∈ l, statement.InRange) →
      a.InRange → (l.foldl extend a).InRange := by
    intro l
    induction l with
    | nil => exact fun a _ inRange => inRange
    | cons statement rest ih =>
      intro a sound inRange
      exact ih _ (fun other later => sound other (by simp [later]))
        (extend_inRange inRange statement (sound statement (by simp)))
  have empty : ({} : Automaton W).InRange :=
    ⟨⟨by simp, by simp⟩, by simp [arc?], fun _ => rfl⟩
  obtain ⟨l, rfl⟩ : ∃ l : List (Statement W), statements = l.toArray := ⟨statements.toList, rfl⟩
  rw [ofStatements_toArray]
  have listed : ∀ statement ∈ l, statement.InRange := by simpa using sound
  refine ⟨folded l {} listed empty, ?_⟩
  exact (foldl_extend_size {} l).2.2 stateLimit (by simp) fun statement present =>
    Statement.lastState_lt (listed statement present)

end Automaton
end WeightedAutomata
