import WeightedAutomata.Proofs.Automaton.ReadBack
import WeightedAutomata.Proofs.Weight.Flag

namespace WeightedAutomata
open Weight
variable {W : Type} [Weight W] {a : Automaton W} {s start : Nat} {state : State W}

-- An arc leaves the state, or paths end there. A weight type whose one is zero writes
-- every final weight, as one.
def State.Spoken (state : State W) : Prop :=
  state.arcs ≠ #[] ∨ state.finalWeight ≠ zero ∨ (one : W) = zero

theorem State.spoken_iff_told [Tested (fun _ : W => True)] : state.Spoken ↔ state.Told := by
  refine or_congr Iff.rfl ?_
  rw [State.isFinal, Bool.not_eq_true', ← Bool.not_eq_true, Tested.zero_iff, Tested.one_iff]
  constructor
  · intro spoken
    rcases spoken with nonzero | trivial
    · exact .inr nonzero
    · rw [trivial]
      exact Classical.em _
  · intro told
    by_cases none : state.finalWeight = zero
    · rcases told with unit | nonzero
      · exact .inr (unit ▸ none)
      · exact absurd none nonzero
    · exact .inl none

namespace Automaton

def Mentioned (a : Automaton W) (s : Nat) : Prop :=
  (a.known s).Spoken ∨ ∃ q, a.Step q s

-- What the format can say of an automaton that has a start. The start comes first in
-- the text, and the states are as many as the last that is named tells.
structure Expressible (a : Automaton W) (start : Nat) : Prop where
  begins : a.start = some start
  closed : a.Closed
  spoken : (a.known start).Spoken
  mentioned : a.Mentioned (a.states.size - 1)
  small : a.states.size ≤ stateLimit

section Statements
variable [Tested (fun _ : W => True)]

theorem mentioned_last_iff (exist : start < a.states.size) (closed : a.Closed) :
    a.Mentioned (a.states.size - 1) ↔
      ∃ statement ∈ a.statements start, a.states.size ≤ statement.lastState + 1 := by
  constructor
  · intro mentioned
    rcases mentioned with spoken | ⟨q, i, arc, found, target⟩
    · have own := stateStatements_ne_nil (s := a.states.size - 1).mpr
        (State.spoken_iff_told.mp spoken)
      obtain ⟨statement, listed⟩ := List.exists_mem_of_ne_nil _ own
      have ordered : a.states.size - 1 ∈ a.writeOrder start :=
        (mem_writeOrder exist).mpr (by omega)
      refine ⟨statement, List.mem_flatMap.mpr ⟨_, ordered, listed⟩, ?_⟩
      have last := statement.source_le_lastState
      rw [source_of_mem listed] at last
      omega
    · have leaves : arc ∈ (a.known q).arcs := Array.mem_of_getElem? (known_arc?.symm.trans found)
      have ordered : q ∈ a.writeOrder start := (mem_writeOrder exist).mpr (arc?_source found)
      refine ⟨.arc q arc, List.mem_flatMap.mpr
        ⟨q, ordered, mem_stateStatements.mpr (.inl ⟨arc, leaves, rfl⟩)⟩, ?_⟩
      have last : arc.target ≤ (Statement.arc q arc).lastState := Nat.le_max_right _ _
      omega
  · intro named
    obtain ⟨statement, listed, last⟩ := named
    obtain ⟨s, ordered, here⟩ := List.mem_flatMap.mp listed
    have inside := (mem_writeOrder exist).mp ordered
    have told : (a.known s).Told := stateStatements_ne_nil.mp (List.ne_nil_of_mem here)
    by_cases own : s = a.states.size - 1
    · exact .inl (State.spoken_iff_told.mpr (own ▸ told))
    · rcases mem_stateStatements.mp here with ⟨arc, leaves, rfl⟩ | ⟨_, rfl⟩
      · obtain ⟨i, found⟩ := Array.mem_iff_getElem?.mp leaves
        rw [← known_arc?] at found
        have target := arc?_target closed found
        refine .inr ⟨s, i, arc, found, ?_⟩
        simp only [Statement.lastState] at last
        omega
      · simp only [Statement.lastState] at last
        omega

theorem ofStatements_eq_iff (begins : a.start = some start) (closed : a.Closed) :
    ofStatements (a.statements start).toArray = a ↔
      (a.known start).Spoken ∧ a.Mentioned (a.states.size - 1) := by
  have exist : start < a.states.size := closed.start start begins
  obtain ⟨_, covers, least⟩ := foldl_extend_size {} (a.statements start)
  rw [← ofStatements_toArray] at covers least
  rw [State.spoken_iff_told, mentioned_last_iff exist closed]
  constructor
  · intro same
    have said : a.statements start ≠ [] := by
      intro none
      rw [none] at same
      rw [← same] at begins
      cases begins
    refine ⟨(start_statements said).mp (by rw [same, begins]), ?_⟩
    refine Classical.byContradiction fun unnamed => ?_
    have below := least (a.states.size - 1) (Nat.zero_le _) fun statement listed => by
      have short : ¬ a.states.size ≤ statement.lastState + 1 :=
        fun last => unnamed ⟨statement, listed, last⟩
      omega
    rw [same] at below
    omega
  · intro complete
    obtain ⟨told, statement, listed, last⟩ := complete
    have trimmed := trimmed_statements closed exist
    have size : (ofStatements (a.statements start).toArray).states.size = a.states.size := by
      have covered := covers statement listed
      have bound := trimmed.size
      omega
    apply ext_states
    · rw [(start_statements (List.ne_nil_of_mem listed)).mpr told, begins]
    · intro s
      by_cases inside : s < a.states.size
      · exact trimmed.kept s (size ▸ inside)
      · rw [Array.getElem?_eq_none (by omega), Array.getElem?_eq_none (by omega)]

end Statements

section Reading
variable [WeightText W] [Spelled W] [Tested (fun _ : W => True)]

theorem read_empty (name : String) : read name "".toUTF8 = .ok ({} : Automaton W) := by
  have nothing := read_ofLines (W := W) (l := []) name (by simp)
  exact nothing

-- The automata that are read back from their text as they are: the empty one, and all
-- that the format can say.
theorem read_write_iff (exist : ∀ s, a.start = some s → s < a.states.size)
    (labels : ∀ state ∈ a.states, ∀ arc ∈ state.arcs,
      arc.input < numberLimit ∧ arc.output < numberLimit) (name : String) :
    (∃ text, a.write = .ok text ∧ read name text.toUTF8 = .ok a) ↔
      (a.states = #[] ∧ a.start = none) ∨ ∃ start, a.Expressible start := by
  cases begins : a.start with
  | none =>
    have empty := read_empty (W := W) name
    constructor
    · intro restored
      obtain ⟨text, written, result⟩ := restored
      cases written.symm.trans (write_unstarted begins)
      cases empty.symm.trans result
      exact .inl ⟨rfl, rfl⟩
    · intro outcome
      rcases outcome with ⟨none, _⟩ | ⟨start, expressible⟩
      · cases a
        cases none
        cases begins
        exact ⟨"", write_unstarted rfl, empty⟩
      · cases begins.symm.trans expressible.begins
  | some start =>
    have inside : start < a.states.size := exist start begins
    have written := write_statements begins inside
    have unbegun : a.start = none → a.states = #[] := by
      intro unstarted
      cases begins.symm.trans unstarted
    constructor
    · intro restored
      obtain ⟨text, same, result⟩ := restored
      cases written.symm.trans same
      obtain ⟨inRange, small⟩ := read_inRange result
      have readBack := read_ofLines name (statements_inRange inRange small inside)
      have same : ofStatements (a.statements start).toArray = a :=
        Except.ok.inj (readBack.symm.trans result)
      obtain ⟨spoken, mentioned⟩ := (ofStatements_eq_iff begins inRange.closed).mp same
      exact .inr ⟨start, begins, inRange.closed, spoken, mentioned, small⟩
    · intro outcome
      rcases outcome with ⟨_, unstarted⟩ | ⟨other, expressible⟩
      · cases unstarted
      · cases begins.symm.trans expressible.begins
        have arcLabels : ∀ s i arc, a.arc? s i = some arc →
            arc.input < numberLimit ∧ arc.output < numberLimit := by
          intro s i arc found
          obtain ⟨state, stateFound, arcFound⟩ := arc?_eq_some.mp found
          exact labels state (Array.mem_of_getElem? stateFound) arc (Array.mem_of_getElem? arcFound)
        have inRange : a.InRange := ⟨expressible.closed, arcLabels, unbegun⟩
        have readBack := read_ofLines name (statements_inRange inRange expressible.small inside)
        rw [(ofStatements_eq_iff begins expressible.closed).mpr
          ⟨expressible.spoken, expressible.mentioned⟩] at readBack
        exact ⟨_, written, readBack⟩

end Reading

-- The state in the middle is the start, and only an arc of weight zero names the last.
def outward : Automaton Flag where
  states := #[⟨⟨true⟩, #[⟨2, 3, ⟨false⟩, 2⟩]⟩, ⟨⟨false⟩, #[⟨1, 1, ⟨true⟩, 0⟩]⟩, ⟨⟨false⟩, #[]⟩]
  start := some 1

theorem outward_read_write :
    (∀ s, outward.start = some s → s < outward.states.size) ∧
      (∀ state ∈ outward.states, ∀ arc ∈ state.arcs,
        arc.input < numberLimit ∧ arc.output < numberLimit) ∧
      outward.Expressible 1 ∧
      ∃ text, outward.write = .ok text ∧ read "b.fst" text.toUTF8 = .ok outward := by
  have closed : outward.Closed := by decide
  have labels : ∀ state ∈ outward.states, ∀ arc ∈ state.arcs,
      arc.input < numberLimit ∧ arc.output < numberLimit := by decide
  have expressible : outward.Expressible 1 :=
    ⟨rfl, closed, .inl (by decide), .inr ⟨0, 0, _, rfl, rfl⟩, by decide⟩
  exact ⟨closed.start, labels, expressible,
    (read_write_iff closed.start labels "b.fst").mpr (.inr ⟨1, expressible⟩)⟩

end Automaton
end WeightedAutomata
