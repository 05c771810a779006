import WeightedAutomata.Proofs.Automaton.Described
import WeightedAutomata.Proofs.LineFault
import WeightedAutomata.Proofs.Potential.RoundTrip
import WeightedAutomata.Proofs.Potential.Gathered

namespace WeightedAutomata
open LineFile
variable {W : Type}

theorem error_bind {ε α β : Type} {x : Except ε α} {f : α → Except ε β} {fault : ε}
    (refused : (do let value ← x; f value) = .error fault) :
    x = .error fault ∨ ∃ value, x = .ok value ∧ f value = .error fault := by
  cases x with
  | error other =>
    cases refused
    exact .inl rfl
  | ok value => exact .inr ⟨value, rfl, refused⟩

namespace Statement

-- What is wrong with columns that say no statement. Each column is looked at only if those
-- before it are right, and the source is before the number of columns.
inductive Refused (W : Type) [WeightText W] : List String → LineFault → Prop where
  | source {source : String} {rest : List String} {fault : LineFault}
      (faulty : StateFault source fault) : Refused W (source :: rest) fault
  | columns {source : String} {rest : List String} {s : Nat}
      (sourceNumeral : Text.Numeral stateLimit source.toList s)
      (count : rest.length = 2 ∨ 4 < rest.length) :
      Refused W (source :: rest) (.badColumns (rest.length + 1))
  | finalWeight {source weight : String} {s : Nat} {parseFault : ParseError}
      (sourceNumeral : Text.Numeral stateLimit source.toList s)
      (faulty : WeightText.parse (W := W) weight = .error parseFault) :
      Refused W [source, weight] (.badWeight parseFault)
  | target {source target input output : String} {weights : List String} {s : Nat}
      {fault : LineFault} (sourceNumeral : Text.Numeral stateLimit source.toList s)
      (faulty : StateFault target fault) (count : weights.length ≤ 1) :
      Refused W (source :: target :: input :: output :: weights) fault
  | input {source target input output : String} {weights : List String} {s t : Nat}
      (sourceNumeral : Text.Numeral stateLimit source.toList s)
      (targetNumeral : Text.Numeral stateLimit target.toList t)
      (none : ∀ i, ¬ Text.Numeral numberLimit input.toList i) (count : weights.length ≤ 1) :
      Refused W (source :: target :: input :: output :: weights) (.badLabel input)
  | output {source target input output : String} {weights : List String} {s t i : Nat}
      (sourceNumeral : Text.Numeral stateLimit source.toList s)
      (targetNumeral : Text.Numeral stateLimit target.toList t)
      (inputNumeral : Text.Numeral numberLimit input.toList i)
      (none : ∀ o, ¬ Text.Numeral numberLimit output.toList o) (count : weights.length ≤ 1) :
      Refused W (source :: target :: input :: output :: weights) (.badLabel output)
  | arcWeight {source target input output weight : String} {s t i o : Nat}
      {parseFault : ParseError} (sourceNumeral : Text.Numeral stateLimit source.toList s)
      (targetNumeral : Text.Numeral stateLimit target.toList t)
      (inputNumeral : Text.Numeral numberLimit input.toList i)
      (outputNumeral : Text.Numeral numberLimit output.toList o)
      (faulty : WeightText.parse (W := W) weight = .error parseFault) :
      Refused W [source, target, input, output, weight] (.badWeight parseFault)

variable [Weight W] [WeightText W] {columns : List String} {fault : LineFault} {s : Nat}

def lastWeight : List String → Except LineFault W
  | [] => .ok Weight.one
  | weight :: _ => LineFile.weight weight

theorem ofRest_arc {target input output : String} {weights : List String}
    (count : weights.length ≤ 1) :
    ofRest (W := W) s (target :: input :: output :: weights) = (do
      let target ← state target
      let input ← label input
      let output ← label output
      let weight ← lastWeight weights
      .ok (.arc s ⟨input, output, weight, target⟩)) := by
  match weights, count with
  | [], _ => rfl
  | [weight], _ => rfl

theorem refused_arc {source target input output : String} {weights : List String}
    (sourceNumeral : Text.Numeral stateLimit source.toList s) (count : weights.length ≤ 1)
    (refused : ofRest (W := W) s (target :: input :: output :: weights) = .error fault) :
    Refused W (source :: target :: input :: output :: weights) fault := by
  rw [ofRest_arc count] at refused
  rcases error_bind refused with faulty | ⟨t, targetRead, refused⟩
  · exact .target sourceNumeral (state_eq_error_iff.mp faulty) count
  have targetNumeral := state_eq_ok_iff.mp targetRead
  rcases error_bind refused with faulty | ⟨i, inputRead, refused⟩
  · obtain ⟨none, rfl⟩ := label_eq_error_iff.mp faulty
    exact .input sourceNumeral targetNumeral none count
  have inputNumeral := label_eq_ok_iff.mp inputRead
  rcases error_bind refused with faulty | ⟨o, outputRead, refused⟩
  · obtain ⟨none, rfl⟩ := label_eq_error_iff.mp faulty
    exact .output sourceNumeral targetNumeral inputNumeral none count
  have outputNumeral := label_eq_ok_iff.mp outputRead
  rcases error_bind refused with faulty | ⟨w, _, accepted⟩
  · match weights, count with
    | [], _ => cases faulty
    | [weight], _ =>
      obtain ⟨_, unparsed, rfl⟩ := weight_eq_error_iff.mp faulty
      exact .arcWeight sourceNumeral targetNumeral inputNumeral outputNumeral unparsed
  · cases accepted

theorem refused_of_error (inhabited : columns ≠ [])
    (refused : ofColumns (W := W) columns = .error fault) : Refused W columns fault := by
  cases columns with
  | nil => exact absurd rfl inhabited
  | cons source rest =>
    rcases error_bind refused with faulty | ⟨s, sourceRead, refused⟩
    · exact .source (state_eq_error_iff.mp faulty)
    have sourceNumeral := state_eq_ok_iff.mp sourceRead
    match rest, refused with
    | [], accepted => cases accepted
    | [weight], refused =>
      rcases error_bind refused with faulty | ⟨w, _, accepted⟩
      · obtain ⟨_, unparsed, rfl⟩ := weight_eq_error_iff.mp faulty
        exact .finalWeight sourceNumeral unparsed
      · cases accepted
    | [_, _], refused =>
      cases refused
      exact .columns sourceNumeral (.inl rfl)
    | [target, input, output], refused => exact refused_arc sourceNumeral (by simp) refused
    | [target, input, output, weight], refused => exact refused_arc sourceNumeral (by simp) refused
    | _ :: _ :: _ :: _ :: _ :: more, refused =>
      cases refused
      exact .columns sourceNumeral (.inr (by simp))

theorem error_of_refused (refused : Refused W columns fault) :
    ofColumns (W := W) columns = .error fault := by
  cases refused with
  | source faulty =>
    rw [ofColumns, state_eq_error_iff.mpr faulty]
    rfl
  | columns sourceNumeral count =>
    rw [ofColumns_numeral sourceNumeral]
    unfold ofRest
    split <;> simp at count ⊢
  | finalWeight sourceNumeral faulty =>
    rw [ofColumns_numeral sourceNumeral, ofRest, weight_eq_error_iff.mpr ⟨_, faulty, rfl⟩]
    rfl
  | target sourceNumeral faulty count =>
    rw [ofColumns_numeral sourceNumeral, ofRest_arc count, state_eq_error_iff.mpr faulty]
    rfl
  | input sourceNumeral targetNumeral none count =>
    rw [ofColumns_numeral sourceNumeral, ofRest_arc count, state_eq_ok_iff.mpr targetNumeral,
      label_eq_error_iff.mpr ⟨none, rfl⟩]
    rfl
  | output sourceNumeral targetNumeral inputNumeral none count =>
    rw [ofColumns_numeral sourceNumeral, ofRest_arc count, state_eq_ok_iff.mpr targetNumeral,
      label_eq_ok_iff.mpr inputNumeral, label_eq_error_iff.mpr ⟨none, rfl⟩]
    rfl
  | arcWeight sourceNumeral targetNumeral inputNumeral outputNumeral faulty =>
    rw [ofColumns_numeral sourceNumeral, ofRest, state_eq_ok_iff.mpr targetNumeral,
      label_eq_ok_iff.mpr inputNumeral, label_eq_ok_iff.mpr outputNumeral,
      weight_eq_error_iff.mpr ⟨_, faulty, rfl⟩]
    rfl

def stateColumns : List String → List String
  | [] => []
  | source :: target :: _ :: _ => [source, target]
  | source :: _ => [source]

theorem named_of_written {statement : Statement W} (written : Written columns statement) :
    ∀ column ∈ stateColumns columns, ∃ n, Text.Numeral stateLimit column.toList n := by
  intro column within
  cases written with
  | final stateNumeral => exact ⟨_, List.mem_singleton.mp within ▸ stateNumeral⟩
  | finalWeight stateNumeral _ => exact ⟨_, List.mem_singleton.mp within ▸ stateNumeral⟩
  | arc sourceNumeral targetNumeral _ _ =>
    rcases List.mem_cons.mp within with rfl | within
    · exact ⟨_, sourceNumeral⟩
    · exact ⟨_, List.mem_singleton.mp within ▸ targetNumeral⟩
  | arcWeight sourceNumeral targetNumeral _ _ _ =>
    rcases List.mem_cons.mp within with rfl | within
    · exact ⟨_, sourceNumeral⟩
    · exact ⟨_, List.mem_singleton.mp within ▸ targetNumeral⟩

end Statement

namespace Automaton
variable [Weight W] [WeightText W]

def progress (name : String) (content : ByteArray) : Automaton W × Option ReadError :=
  takeIn name Statement.ofColumns extend 1 {} (Text.lines content)

theorem read_firstFault :
    FirstFault (Statement.Written (W := W)) (Statement.Refused W) (read (W := W)) :=
  firstFault (fun _ _ => rfl)
    (fun _ inhabited _ => ⟨Statement.refused_of_error inhabited, Statement.error_of_refused⟩)
    Statement.ofColumns_eq_ok_iff

theorem read_confined : Confined Statement.stateColumns (Statement.Refused W)
    (fun a : Automaton W => a.states.size) progress read := by
  refine confined read_firstFault rfl (fun _ _ => Statement.named_of_written) (fun _ _ => rfl)
    (Nat.zero_le _) ?_
  intro a columns statement judged small
  have last := Statement.lastState_lt (Statement.ofColumns_inRange judged)
  rw [extend_size]
  exact Nat.max_le.mpr ⟨small, last⟩

end Automaton

namespace Potential

namespace Entry
variable [WeightText W] {columns : List String} {fault : LineFault}

-- What is wrong with columns that list no state. They are counted before any is looked at.
inductive Refused (W : Type) [WeightText W] : List String → LineFault → Prop where
  | columns {columns : List String} (count : columns.length ≠ 2) :
      Refused W columns (.badColumns columns.length)
  | state {state weight : String} {fault : LineFault} (faulty : StateFault state fault) :
      Refused W [state, weight] fault
  | weight {state weight : String} {s : Nat} {parseFault : ParseError}
      (stateNumeral : Text.Numeral stateLimit state.toList s)
      (faulty : WeightText.parse (W := W) weight = .error parseFault) :
      Refused W [state, weight] (.badWeight parseFault)

theorem ofColumns_eq_error_iff :
    ofColumns (W := W) columns = .error fault ↔ Refused W columns fault := by
  constructor
  · intro refused
    unfold ofColumns at refused
    split at refused
    · rcases error_bind refused with faulty | ⟨s, stateRead, refused⟩
      · exact .state (state_eq_error_iff.mp faulty)
      rcases error_bind refused with faulty | ⟨w, _, accepted⟩
      · obtain ⟨_, unparsed, rfl⟩ := weight_eq_error_iff.mp faulty
        exact .weight (state_eq_ok_iff.mp stateRead) unparsed
      · cases accepted
    · rename_i other
      cases refused
      refine .columns fun two => ?_
      match columns, two with
      | [state, weight], _ => exact other state weight rfl
  · intro refused
    cases refused with
    | columns count =>
      unfold ofColumns
      split
      · exact absurd rfl count
      · rfl
    | state faulty =>
      rw [ofColumns, state_eq_error_iff.mpr faulty]
      rfl
    | weight stateNumeral faulty =>
      rw [ofColumns, state_eq_ok_iff.mpr stateNumeral, weight_eq_error_iff.mpr ⟨_, faulty, rfl⟩]
      rfl

theorem named_of_listed {entry : Entry W} (listed : Listed columns entry) :
    ∀ column ∈ columns.take 1, ∃ n, Text.Numeral stateLimit column.toList n := by
  intro column within
  cases listed with
  | entry stateNumeral _ => exact ⟨_, List.mem_singleton.mp within ▸ stateNumeral⟩

theorem state_lt_of_listed {entry : Entry W} (listed : Listed columns entry) :
    entry.state < stateLimit := by
  cases listed with
  | entry stateNumeral _ => exact stateNumeral.below

end Entry

variable [Weight W] [WeightText W]

def progress (name : String) (content : ByteArray) : Array W × Option ReadError :=
  takeIn name Entry.ofColumns extend 1 #[] (Text.lines content)

theorem read_firstFault : FirstFault (Entry.Listed (W := W)) (Entry.Refused W)
    (read (W := W) (Weight.typeName W)) :=
  firstFault read_lines (fun _ _ _ => Entry.ofColumns_eq_error_iff) Entry.ofColumns_eq_ok_iff

theorem read_confined : Confined (List.take 1) (Entry.Refused W)
    (fun potentials : Array W => potentials.size) progress (read (Weight.typeName W)) := by
  refine confined read_firstFault rfl (fun _ _ => Entry.named_of_listed) read_lines
    (Nat.zero_le _) ?_
  intro potentials columns entry judged small
  have state := Entry.state_lt_of_listed ((Entry.ofColumns_eq_ok_iff _ _).mp judged)
  rw [extend_size]
  exact Nat.max_le.mpr ⟨small, state⟩

end Potential

-- Both readers fail exactly if a line is bad on its own, and then with the error of the first
-- bad line, numbered among all lines. A state at the limit or beyond it is refused in every
-- place where a line can name one, and room is made for none.
theorem readers_report_first (W : Type) [Weight W] [WeightText W] :
    FirstFault (Statement.Written (W := W)) (Statement.Refused W) (Automaton.read (W := W)) ∧
    FirstFault (Potential.Entry.Listed (W := W)) (Potential.Entry.Refused W)
      (Potential.read (W := W) (Weight.typeName W)) ∧
    Confined Statement.stateColumns (Statement.Refused W)
      (fun a : Automaton W => a.states.size) Automaton.progress Automaton.read ∧
    Confined (List.take 1) (Potential.Entry.Refused W)
      (fun potentials : Array W => potentials.size) Potential.progress
      (Potential.read (Weight.typeName W)) :=
  ⟨Automaton.read_firstFault, Potential.read_firstFault, Automaton.read_confined,
    Potential.read_confined⟩

def faultyFile : ByteArray :=
  "0 T\n\nq 1 2\n7 q\n".toUTF8

def faultyLine : ByteArray :=
  "q 1 2".toUTF8

theorem faulty_readers_report_first :
    Text.lines faultyFile = [some "0 T", some "", some "q 1 2", some "7 q"] ∧
      Text.lines faultyLine = [some "q 1 2"] ∧
      Automaton.read (W := Flag) "a.txt" faultyLine = .error (.badLine "a.txt" 1 (.badState "q")) ∧
      Automaton.read (W := Flag) "a.txt" faultyFile = .error (.badLine "a.txt" 3 (.badState "q")) ∧
      Potential.read (W := Flag) "flag" "v.txt" faultyFile =
        .error (.badLine "v.txt" 3 (.badColumns 3)) ∧
      Malformed (Statement.Refused Flag) (some "0 67108864 1 2") := by
  have lines : Text.lines faultyFile = [some "0 T", some "", some "q 1 2", some "7 q"] := by
    decide +kernel
  have single : Text.lines faultyLine = [some "q 1 2"] := by
    decide +kernel
  obtain ⟨automata, potentials, confined, -⟩ := readers_report_first Flag
  have source : Defect (Statement.Refused Flag) (some "q 1 2") (some (.badState "q")) :=
    .judged (by decide) (Statement.refused_of_error (by decide) rfl)
  have columns : Defect (Potential.Entry.Refused Flag) (some "q 1 2") (some (.badColumns 3)) :=
    .judged (by decide) (Potential.Entry.ofColumns_eq_error_iff.mp rfl)
  have statements : ∀ earlier ∈ [some "0 T", some ""],
      ¬ Malformed (Statement.Refused Flag) earlier := by
    intro earlier present
    rcases List.mem_cons.mp present with rfl | blank
    · exact (automata.sound_iff _).mpr (.inr ⟨_, (Statement.ofColumns_eq_ok_iff _ _).mp rfl⟩)
    · rw [List.mem_singleton.mp blank]
      exact (automata.sound_iff _).mpr (.inl rfl)
  have entries : ∀ earlier ∈ [some "0 T", some ""],
      ¬ Malformed (Potential.Entry.Refused Flag) earlier := by
    intro earlier present
    rcases List.mem_cons.mp present with rfl | blank
    · exact (potentials.sound_iff _).mpr
        (.inr ⟨_, (Potential.Entry.ofColumns_eq_ok_iff _ _).mp rfl⟩)
    · rw [List.mem_singleton.mp blank]
      exact (potentials.sound_iff _).mpr (.inl rfl)
  have alone := automata.first "a.txt" faultyLine [] _ [] _ single (by simp) source
  refine ⟨lines, single, alone, ?_, ?_, ?_⟩
  · exact automata.own "a.txt" faultyFile faultyLine [some "0 T", some ""] _ [some "7 q"] _ lines
      statements single alone
  · exact potentials.first "v.txt" faultyFile [some "0 T", some ""] _ [some "7 q"] _ lines entries
      columns
  · exact confined.beyond _ "67108864" stateLimit (by decide)
      (Text.natural?_eq_some_iff.mp (by decide)) (Nat.le_refl _)

end WeightedAutomata
