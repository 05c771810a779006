import WeightedAutomata.Proofs.Automaton.Line

namespace WeightedAutomata
open Weight
variable {W : Type} {a : Automaton W} {s start : Nat} {state : State W}

namespace Automaton

theorem mem_writeOrder (exist : start < a.states.size) :
    s ∈ a.writeOrder start ↔ s < a.states.size := by
  simp only [writeOrder, List.mem_cons, List.mem_filter, List.mem_range, decide_eq_true_eq]
  omega

theorem writeOrder_nodup (a : Automaton W) (start : Nat) : (a.writeOrder start).Nodup := by
  unfold writeOrder
  rw [List.nodup_cons]
  exact ⟨by simp, List.nodup_range.filter _⟩

theorem foldl_revise_other {statements : List (Statement W)}
    (others : ∀ statement ∈ statements, statement.source ≠ s) (state : State W) :
    statements.foldl (Statement.revise s) state = state := by
  induction statements with
  | nil => rfl
  | cons statement rest ih =>
    rw [List.foldl_cons, Statement.revise_other (others statement (by simp))]
    exact ih fun other later => others other (by simp [later])

theorem foldl_revise_arcs (arcs : List (Arc W)) (state : State W) :
    (arcs.map (Statement.arc s)).foldl (Statement.revise s) state =
      { state with arcs := state.arcs ++ arcs.toArray } := by
  induction arcs generalizing state with
  | nil => simp
  | cons arc rest ih =>
    rw [List.map_cons, List.foldl_cons, ih]
    simp [Statement.revise]

end Automaton

variable [Weight W]

def State.Told (state : State W) : Prop :=
  state.arcs ≠ #[] ∨ isOne state.finalWeight = true ∨ state.isFinal = true

namespace Automaton

def stateStatements (s : Nat) (state : State W) : List (Statement W) :=
  state.arcs.toList.map (.arc s) ++
    if isOne state.finalWeight || state.isFinal then [.final s state.finalWeight] else []

def statements (a : Automaton W) (start : Nat) : List (Statement W) :=
  (a.writeOrder start).flatMap fun s => stateStatements s (a.known s)

theorem mem_stateStatements {statement : Statement W} :
    statement ∈ stateStatements s state ↔
      (∃ arc ∈ state.arcs, statement = .arc s arc) ∨
        (isOne state.finalWeight = true ∨ state.isFinal = true) ∧
          statement = .final s state.finalWeight := by
  unfold stateStatements
  rw [List.mem_append, List.mem_map]
  refine or_congr ?_ ?_
  · constructor
    · intro listed
      obtain ⟨arc, leaves, same⟩ := listed
      exact ⟨arc, Array.mem_toList_iff.mp leaves, same.symm⟩
    · intro listed
      obtain ⟨arc, leaves, same⟩ := listed
      exact ⟨arc, Array.mem_toList_iff.mpr leaves, same.symm⟩
  · rw [← Bool.or_eq_true]
    cases isOne state.finalWeight || state.isFinal <;> simp

theorem source_of_mem {statement : Statement W} (listed : statement ∈ stateStatements s state) :
    statement.source = s := by
  rcases mem_stateStatements.mp listed with ⟨arc, _, rfl⟩ | ⟨_, rfl⟩ <;> rfl

theorem stateStatements_ne_nil : stateStatements s state ≠ [] ↔ state.Told := by
  constructor
  · intro inhabited
    obtain ⟨statement, listed⟩ := List.exists_mem_of_ne_nil _ inhabited
    rcases mem_stateStatements.mp listed with ⟨arc, leaves, _⟩ | ⟨final, _⟩
    · exact .inl fun none => by simp [none] at leaves
    · exact .inr final
  · intro told none
    rcases told with arcs | final
    · obtain ⟨arc, leaves⟩ := Array.exists_mem_of_ne_empty _ arcs
      have listed : Statement.arc s arc ∈ stateStatements s state :=
        mem_stateStatements.mpr (.inl ⟨arc, leaves, rfl⟩)
      simp [none] at listed
    · have listed : Statement.final s state.finalWeight ∈ stateStatements s state :=
        mem_stateStatements.mpr (.inr ⟨final, rfl⟩)
      simp [none] at listed

-- The statements of a state describe it. Only a zero final weight is left out, which
-- a state has that nothing is said of.
theorem foldl_revise_own [Tested (fun _ : W => True)] (s : Nat) (state : State W) :
    (stateStatements s state).foldl (Statement.revise s) State.blank = state := by
  unfold stateStatements
  rw [List.foldl_append, foldl_revise_arcs]
  cases final : isOne state.finalWeight || state.isFinal with
  | true => simp [Statement.revise, State.blank]
  | false =>
    have unfinal : isZero state.finalWeight = true := by
      simpa [State.isFinal] using (Bool.or_eq_false_iff.mp final).2
    simp [State.blank, ← Tested.zero_iff.mp unfinal]

theorem source_of_statements {statement : Statement W} (listed : statement ∈ a.statements start) :
    statement.source ∈ a.writeOrder start ∧ (a.known statement.source).Told := by
  obtain ⟨s, ordered, here⟩ := List.mem_flatMap.mp listed
  rw [source_of_mem here]
  exact ⟨ordered, stateStatements_ne_nil.mp (List.ne_nil_of_mem here)⟩

-- A state is described where it is reached in the order, and nowhere else.
theorem foldl_revise_statements [Tested (fun _ : W => True)] (exist : start < a.states.size)
    (s : Nat) :
    (a.statements start).foldl (Statement.revise s) State.blank =
      a.known s := by
  have others : ∀ {part : List Nat}, s ∉ part →
      ∀ statement ∈ part.flatMap fun q => stateStatements q (a.known q), statement.source ≠ s := by
    intro part absent statement listed same
    obtain ⟨q, here, own⟩ := List.mem_flatMap.mp listed
    rw [source_of_mem own] at same
    exact absent (same ▸ here)
  unfold statements
  by_cases inside : s < a.states.size
  · have distinct := a.writeOrder_nodup start
    obtain ⟨before, after, order⟩ := List.append_of_mem ((mem_writeOrder exist).mpr inside)
    rw [order] at distinct ⊢
    obtain ⟨_, later, apart⟩ := List.nodup_append.mp distinct
    have notAfter : s ∉ after := (List.nodup_cons.mp later).1
    have notBefore : s ∉ before := fun earlier => apart s earlier s (by simp) rfl
    rw [List.flatMap_append, List.flatMap_cons, List.foldl_append, List.foldl_append,
      foldl_revise_other (others notBefore), foldl_revise_own, foldl_revise_other (others notAfter)]
  · have absent : s ∉ a.writeOrder start := by
      intro ordered
      exact inside ((mem_writeOrder exist).mp ordered)
    rw [foldl_revise_other (others absent), known_of_missing (Nat.le_of_not_lt inside)]

theorem lastState_of_statements {statement : Statement W} (closed : a.Closed)
    (exist : start < a.states.size) (listed : statement ∈ a.statements start) :
    statement.lastState < a.states.size := by
  obtain ⟨s, ordered, here⟩ := List.mem_flatMap.mp listed
  have inside := (mem_writeOrder exist).mp ordered
  rcases mem_stateStatements.mp here with ⟨arc, leaves, rfl⟩ | ⟨_, rfl⟩
  · obtain ⟨i, found⟩ := Array.mem_iff_getElem?.mp leaves
    rw [← known_arc?] at found
    exact Nat.max_lt.mpr ⟨inside, arc?_target closed found⟩
  · exact inside

section Text
variable [WeightText W]

theorem stateLines_columns (s : Nat) (state : State W) :
    stateLines s state = (stateStatements s state).map Statement.columns := by
  unfold stateLines stateStatements
  cases isOne state.finalWeight || state.isFinal <;> simp [Statement.columns, Function.comp_def]

theorem mapM_ok {α β ε : Type} {f : α → Except ε β} {g : α → β} {l : List α}
    (each : ∀ x ∈ l, f x = .ok (g x)) : l.mapM f = .ok (l.map g) := by
  induction l with
  | nil => rfl
  | cons x l ih =>
    rw [List.mapM_cons, each x (by simp), ih fun y later => each y (by simp [later])]
    rfl

theorem write_statements (begins : a.start = some start) (exist : start < a.states.size) :
    a.write = .ok (Text.ofLines ((a.statements start).map Statement.line)) := by
  have found : ∀ s ∈ a.writeOrder start,
      (do let state ← a.state s; return stateLines s state : Except MissingState _) =
        .ok (stateLines s (a.known s)) := by
    intro s ordered
    rw [state, state_eq_known ((mem_writeOrder exist).mp ordered)]
    rfl
  have lines : a.lines = .ok ((a.statements start).map Statement.columns) := by
    unfold lines
    simp only [begins, mapM_ok found]
    simp [bind, Except.bind, pure, Except.pure, statements, stateLines_columns, List.flatMap,
      Function.comp_def]
  rw [write, lines]
  simp [bind, Except.bind, pure, Except.pure, Text.ofLines, Function.comp_def, Statement.line]

theorem write_unstarted (unstarted : a.start = none) : a.write = .ok "" := by
  simp [write, lines, unstarted, bind, Except.bind, pure, Except.pure]

end Text

end Automaton
end WeightedAutomata
