import WeightedAutomata.Proofs.Automaton.ReadBack
import WeightedAutomata.Proofs.Reweight.Outcome
import WeightedAutomata.Proofs.Weight.Flag

namespace WeightedAutomata

namespace Automaton
open Weight
variable {W : Type} [Weight W] {direction : Direction} {potentials : Array W}
  {a b : Automaton W} {start : Nat} {factor : W}

theorem moveWeights_inRange (inRange : a.InRange) :
    (a.moveWeights direction potentials).InRange := by
  refine ⟨moveWeights_closed direction potentials inRange.closed, ?_, ?_⟩
  · intro s i arc found
    rw [moveWeights_arc?] at found
    obtain ⟨old, oldFound, rfl⟩ := Option.map_eq_some_iff.mp found
    exact inRange.labels s i old oldFound
  · intro unstarted
    have empty := inRange.begun unstarted
    simp [moveWeights, empty]

theorem foldStart_inRange (factor : W) (start : Nat) (inRange : a.InRange) :
    (a.foldStart factor start).InRange := by
  refine ⟨foldStart_closed factor start inRange.closed, ?_, ?_⟩
  · intro s i arc found
    rw [foldStart_arc?] at found
    obtain ⟨old, oldFound, rfl⟩ := Option.map_eq_some_iff.mp found
    exact inRange.labels s i old oldFound
  · intro unstarted
    have empty := inRange.begun unstarted
    simp [foldStart, empty]

theorem prependStart_inRange (factor : W) (inRange : a.InRange) (exist : start < a.states.size) :
    (a.prependStart factor start).InRange := by
  refine ⟨(prependStart_prepended factor inRange.closed exist).closed inRange.closed exist, ?_, ?_⟩
  · intro s i arc found
    have bound := arc?_source found
    rw [prependStart_size] at bound
    rcases Nat.lt_succ_iff_lt_or_eq.mp bound with old | rfl
    · rw [prependStart_arc? old] at found
      exact inRange.labels s i arc found
    · rw [prependStart_epsilon] at found
      split at found
      · cases found
        have epsilonIn : epsilon < numberLimit := by decide
        exact ⟨epsilonIn, epsilonIn⟩
      · cases found
  · intro unstarted
    cases unstarted

theorem prependStart_known (a : Automaton W) (factor : W) (start : Nat) :
    (a.prependStart factor start).known a.states.size =
      ⟨zero, #[⟨epsilon, epsilon, factor, start⟩]⟩ := by
  rw [known, prependStart_last, Option.getD_some]

theorem reweight_inRange (inRange : a.InRange)
    (reweighted : a.reweight direction potentials = .ok b) :
    b.InRange ∧ (b.states.size = a.states.size ∨ ∃ factor start,
      b.start = some a.states.size ∧ b.states.size = a.states.size + 1 ∧
        b.known a.states.size = ⟨zero, #[⟨epsilon, epsilon, factor, start⟩]⟩) := by
  have reported := reported_of_reweight reweighted
  have moved : (a.moveWeights direction potentials).InRange := moveWeights_inRange inRange
  cases begins : a.start with
  | none =>
    rw [reweight_unstarted reported begins] at reweighted
    cases reweighted
    exact ⟨moved, .inl moveWeights_size⟩
  | some start =>
    have exist : start < (a.moveWeights direction potentials).states.size := by
      simpa using inRange.closed.start start begins
    obtain ⟨result, same, outcome⟩ := reweight_outcome potentials reported inRange.closed begins
    cases reweighted.symm.trans same
    cases outcome with
    | kept plain => exact ⟨moved, .inl moveWeights_size⟩
    | folded zero one acyclic =>
      exact ⟨foldStart_inRange _ start moved, .inl (foldStart_size.trans moveWeights_size)⟩
    | prepended zero one cyclic =>
      have added := prependStart_known (a.moveWeights direction potentials)
        (startFactor direction (Potential.get potentials start)) start
      rw [moveWeights_size] at added
      refine ⟨prependStart_inRange _ moved exist, .inr ⟨_, start, ?_, ?_, added⟩⟩
      · simp [prependStart]
      · simp

section Text
variable [WeightText W] [Spelled W]

theorem read_beyond {arc : Arc W} {arcs : List (Arc W)} {final : W} (name : String)
    (begins : b.start = some stateLimit) (exist : stateLimit < b.states.size)
    (leaves : b.known stateLimit = ⟨final, (arc :: arcs).toArray⟩) :
    ∃ text, b.write = .ok text ∧
      read (W := W) name text.toUTF8 =
        .error (.badLine name 1 (.stateOutOfRange stateLimit)) := by
  refine ⟨_, write_statements begins exist, ?_⟩
  have refused : Statement.ofColumns (W := W) (Statement.arc stateLimit arc).columns =
      .error (.stateOutOfRange stateLimit) := by
    change Statement.ofColumns (toString stateLimit :: _) = _
    rw [Statement.ofColumns, LineFile.state_toString_beyond (Nat.le_refl _) (by decide)]
    rfl
  rw [statements, writeOrder, List.flatMap_cons, leaves]
  exact read_bad_first name refused

-- Whatever is read and reweighted by whatever potentials: the text of the result is
-- accepted unless the result has a state too many, and what is read from it is the
-- result, with its start if a line is written about the start.
theorem reweight_readBack [Tested (fun _ : W => True)] {file : String} {content : ByteArray}
    (accepted : read file content = .ok a) (reweighted : a.reweight direction potentials = .ok b)
    (name : String) :
    ∃ text, b.write = .ok text ∧
      ((∃ c : Automaton W, read name text.toUTF8 = .ok c) ↔ b.states.size ≤ stateLimit) ∧
      ∀ c, read name text.toUTF8 = .ok c → b.ReadBack text c := by
  obtain ⟨inRange, small⟩ := read_inRange accepted
  obtain ⟨resultInRange, growth⟩ := reweight_inRange inRange reweighted
  by_cases within : b.states.size ≤ stateLimit
  · obtain ⟨text, c, written, result, back⟩ := read_write resultInRange within name
    refine ⟨text, written, iff_of_true ⟨c, result⟩ within, ?_⟩
    intro other otherResult
    cases result.symm.trans otherResult
    exact back
  · rcases growth with same | ⟨factor, start, begins, grown, added⟩
    · omega
    · have full : a.states.size = stateLimit := by omega
      rw [full] at begins added
      obtain ⟨text, written, refused⟩ := read_beyond name begins (by omega) added
      have rejected : ∀ c, read (W := W) name text.toUTF8 ≠ .ok c := by
        intro c result
        cases refused.symm.trans result
      refine ⟨text, written, iff_of_false ?_ within, ?_⟩
      · intro found
        obtain ⟨c, result⟩ := found
        exact rejected c result
      · intro c result
        exact absurd result (rejected c)

end Text

def twoEnds : List (Statement Flag) :=
  [.final 0 ⟨true⟩, .final 1 ⟨true⟩]

def muted : Automaton Flag where
  states := #[⟨⟨false⟩, #[]⟩, ⟨⟨true⟩, #[]⟩]
  start := some 0

-- No line is left about the start, and the other state is read back as the start.
theorem muted_readBack :
    ∃ a text c, read "a.fst" (Text.ofLines (twoEnds.map Statement.line)).toUTF8 = .ok a ∧
      a.reweight .toInitial (#[⟨false⟩, ⟨true⟩] : Array Flag) = .ok muted ∧
      muted.write = .ok text ∧ text ≠ "" ∧ read "b.fst" text.toUTF8 = .ok c ∧
      muted.ReadBack text c ∧ c.start ≠ muted.start := by
  have sound : ∀ statement ∈ twoEnds, statement.InRange := by
    simp [twoEnds, Statement.InRange, stateLimit]
  have accepted := read_ofLines "a.fst" sound
  have reweighted : (ofStatements twoEnds.toArray).reweight .toInitial
      (#[⟨false⟩, ⟨true⟩] : Array Flag) = .ok muted := by
    with_unfolding_all rfl
  have untold : ¬ muted.StartTold := by
    intro startTold
    obtain ⟨start, begins, told⟩ := startTold
    cases begins
    revert told
    unfold State.Told
    decide
  have lines : muted.write = .ok "1\n" := rfl
  obtain ⟨text, written, acceptedIff, back⟩ := reweight_readBack accepted reweighted "b.fst"
  cases written.symm.trans lines
  obtain ⟨c, result⟩ := acceptedIff.mpr (by decide)
  have readBack := back c result
  refine ⟨_, "1\n", c, accepted, reweighted, lines, by decide, result, readBack, ?_⟩
  exact fun same => untold ((readBack.start (by decide)).mp same)

end Automaton
end WeightedAutomata
