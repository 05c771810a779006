import WeightedAutomata.Proofs.Automaton.Statements

namespace WeightedAutomata

theorem ok_bind {ε α β : Type} {x : Except ε α} {f : α → Except ε β} {result : β}
    (accepted : (do let value ← x; f value) = .ok result) :
    ∃ value, x = .ok value ∧ f value = .ok result := by
  cases x with
  | error fault => cases accepted
  | ok value => exact ⟨value, rfl, accepted⟩

theorem ok_map {ε α β : Type} {x : Except ε α} {f : α → β} {result : β}
    (accepted : x.map f = .ok result) : ∃ value, x = .ok value ∧ f value = result := by
  cases x with
  | error fault => cases accepted
  | ok value => exact ⟨value, rfl, Except.ok.inj accepted⟩

namespace LineFile
variable {S : Type} {judge : List String → Except LineFault S} {text : String} {n number : Nat}

theorem natural?_lt {limit : Nat} {text : List Char} (value : Text.natural? limit text = some n) :
    n < limit := by
  have bounded : ∀ digits, (Text.digits? digits).bind
      (fun m => if m < limit then some m else none) = some n → n < limit := by
    intro digits found
    obtain ⟨m, _, kept⟩ := Option.bind_eq_some_iff.mp found
    split at kept
    · rename_i inside
      cases kept
      exact inside
    · cases kept
  unfold Text.natural? at value
  split at value <;> exact bounded _ value

theorem state_lt (accepted : state text = .ok n) : n < stateLimit := by
  unfold state at accepted
  split at accepted
  · cases accepted
  · split at accepted
    · rename_i inside
      cases accepted
      exact inside
    · cases accepted

theorem label_lt (accepted : label text = .ok n) : n < numberLimit := by
  unfold label at accepted
  split at accepted
  · cases accepted
  · rename_i value
    cases accepted
    exact natural?_lt value

theorem judge_of_judgeLine {s : S} (judgement : judgeLine judge text = .ok (some s)) :
    ∃ columns, judge columns = .ok s := by
  unfold judgeLine at judgement
  cases columns : Text.columns text.toList with
  | nil => simp [columns] at judgement
  | cons column rest =>
    simp only [columns] at judgement
    obtain ⟨statement, verdict, same⟩ := ok_map judgement
    cases same
    exact ⟨_, verdict⟩

-- Whatever every accepted line satisfies, all that was read satisfies.
theorem readFrom_all {Q : S → Prop} (judged : ∀ columns s, judge columns = .ok s → Q s)
    {name : String} {found result : Array S} {lines : List Text.Line}
    (before : ∀ s ∈ found, Q s) (accepted : readFrom name judge number found lines = .ok result) :
    ∀ s ∈ result, Q s := by
  induction lines generalizing number found with
  | nil =>
    cases accepted
    exact before
  | cons line rest ih =>
    cases line with
    | none => cases accepted
    | some text =>
      rw [readFrom] at accepted
      cases judgement : judgeLine judge text with
      | error fault => simp [judgement] at accepted
      | ok statement =>
        cases statement with
        | none =>
          simp only [judgement] at accepted
          exact ih before accepted
        | some statement =>
          simp only [judgement] at accepted
          refine ih ?_ accepted
          intro s present
          rcases Array.mem_push.mp present with old | rfl
          · exact before s old
          · obtain ⟨columns, verdict⟩ := judge_of_judgeLine judgement
            exact judged columns _ verdict

end LineFile

namespace Statement
variable {W : Type} [Weight W] [WeightText W]

theorem ofRest_inRange {source : Nat} {rest : List String} {statement : Statement W}
    (inside : source < stateLimit) (accepted : ofRest source rest = .ok statement) :
    statement.InRange := by
  unfold ofRest at accepted
  split at accepted
  · cases accepted
    exact inside
  · obtain ⟨weight, _, accepted⟩ := ok_bind accepted
    cases accepted
    exact inside
  · obtain ⟨target, targetRead, accepted⟩ := ok_bind accepted
    obtain ⟨input, inputRead, accepted⟩ := ok_bind accepted
    obtain ⟨output, outputRead, accepted⟩ := ok_bind accepted
    cases accepted
    exact ⟨inside, LineFile.state_lt targetRead, LineFile.label_lt inputRead,
      LineFile.label_lt outputRead⟩
  · obtain ⟨target, targetRead, accepted⟩ := ok_bind accepted
    obtain ⟨input, inputRead, accepted⟩ := ok_bind accepted
    obtain ⟨output, outputRead, accepted⟩ := ok_bind accepted
    obtain ⟨weight, _, accepted⟩ := ok_bind accepted
    cases accepted
    exact ⟨inside, LineFile.state_lt targetRead, LineFile.label_lt inputRead,
      LineFile.label_lt outputRead⟩
  · cases accepted

theorem ofColumns_inRange {columns : List String} {statement : Statement W}
    (accepted : ofColumns columns = .ok statement) : statement.InRange := by
  cases columns with
  | nil => cases accepted
  | cons source rest =>
    obtain ⟨number, sourceRead, accepted⟩ := ok_bind accepted
    exact ofRest_inRange (LineFile.state_lt sourceRead) accepted

end Statement

namespace Automaton
variable {W : Type} [Weight W] [WeightText W] {a : Automaton W}

theorem read_inRange {name : String} {content : ByteArray} (accepted : read name content = .ok a) :
    a.InRange ∧ a.states.size ≤ stateLimit := by
  obtain ⟨statements, found, rfl⟩ := ok_map accepted
  exact ofStatements_inRange (LineFile.readFrom_all
    (fun _ _ judged => Statement.ofColumns_inRange judged) (by simp) found)

end Automaton
end WeightedAutomata
