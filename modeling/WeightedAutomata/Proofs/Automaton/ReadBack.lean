import WeightedAutomata.Proofs.Automaton.Write

namespace WeightedAutomata.Automaton
open Weight
variable {W : Type} [Weight W] {a c : Automaton W} {s start : Nat} {path : Path}
  {arcs : List (Arc W)}

-- What is left of an automaton without states at its end at which no path ends, from
-- which none leads on and to which none leads.
structure Trimmed (a c : Automaton W) : Prop where
  size : c.states.size ≤ a.states.size
  kept : ∀ s < c.states.size, c.states[s]? = a.states[s]?
  blank : ∀ s, c.states.size ≤ s → s < a.states.size → a.states[s]? = some State.blank
  unreached : ∀ s i arc, a.arc? s i = some arc → arc.target < c.states.size

theorem trimmed_statements [Tested (fun _ : W => True)] (closed : a.Closed)
    (exist : start < a.states.size) :
    a.Trimmed (ofStatements (a.statements start).toArray) := by
  rw [ofStatements_toArray]
  obtain ⟨_, covers, least⟩ := foldl_extend_size {} (a.statements start)
  have known : ∀ s, ((a.statements start).foldl extend {}).known s = a.known s := by
    intro s
    rw [foldl_extend_known]
    exact foldl_revise_statements exist s
  have size := least a.states.size (by simp) fun _ => lastState_of_statements closed exist
  refine ⟨size, ?_, ?_, ?_⟩
  · intro s inside
    rw [state_eq_known inside, state_eq_known (Nat.lt_of_lt_of_le inside size), known]
  · intro s beyond inside
    rw [state_eq_known inside, ← known, known_of_missing beyond]
  · intro s i arc found
    have leaves : arc ∈ (a.known s).arcs := Array.mem_of_getElem? (known_arc?.symm.trans found)
    have ordered := (mem_writeOrder exist).mpr (arc?_source found)
    have listed : Statement.arc s arc ∈ a.statements start :=
      List.mem_flatMap.mpr ⟨s, ordered, mem_stateStatements.mpr (.inl ⟨arc, leaves, rfl⟩)⟩
    exact Nat.lt_of_le_of_lt (Nat.le_max_right _ _) (covers _ listed)

theorem Trimmed.arc? (trimmed : a.Trimmed c) (inside : s < c.states.size) :
    c.arc? s = a.arc? s := by
  funext i
  rw [Automaton.arc?, Automaton.arc?, trimmed.kept s inside]

theorem Trimmed.walk? (trimmed : a.Trimmed c) (inside : s < c.states.size) :
    c.walk? s path = a.walk? s path := by
  induction path generalizing s with
  | nil => rfl
  | cons i path ih =>
    rw [Automaton.walk?, Automaton.walk?, trimmed.arc? inside]
    cases found : a.arc? s i with
    | none => rfl
    | some arc => simp [ih (trimmed.unreached s i arc found)]

theorem Trimmed.weigh (trimmed : a.Trimmed c) (inside : s < c.states.size)
    (walked : a.walk? s path = some arcs) : c.weigh s arcs = a.weigh s arcs := by
  induction path generalizing s arcs with
  | nil =>
    cases walked
    rw [Automaton.weigh, Automaton.weigh, trimmed.kept s inside]
  | cons i path ih =>
    obtain ⟨arc, rest, found, onward, rfl⟩ := walk?_cons.mp walked
    rw [Automaton.weigh, Automaton.weigh, ih (trimmed.unreached s i arc found) onward]

-- A path from the start along these arcs has this weight, which is not zero.
def Accepts (a : Automaton W) (path : Path) (arcs : List (Arc W)) (weight : W) : Prop :=
  ∃ start, a.start = some start ∧ a.walk? start path = some arcs ∧
    a.weigh start arcs = some weight ∧ weight ≠ zero

theorem Trimmed.accepts_iff (trimmed : a.Trimmed c) (same : c.start = a.start) (closed : c.Closed)
    (path : Path) (arcs : List (Arc W)) (weight : W) :
    c.Accepts path arcs weight ↔ a.Accepts path arcs weight := by
  constructor
  · intro accepted
    obtain ⟨start, begins, walked, weighs, nonzero⟩ := accepted
    have inside := closed.start start begins
    rw [trimmed.walk? inside] at walked
    rw [trimmed.weigh inside walked] at weighs
    exact ⟨start, same ▸ begins, walked, weighs, nonzero⟩
  · intro accepted
    obtain ⟨start, begins, walked, weighs, nonzero⟩ := accepted
    have inside := closed.start start (same.trans begins)
    rw [← trimmed.weigh inside walked] at weighs
    rw [← trimmed.walk? inside] at walked
    exact ⟨start, same.trans begins, walked, weighs, nonzero⟩

-- The first statement is one about the start exactly if there is any about the start.
theorem start_statements (said : a.statements start ≠ []) :
    (ofStatements (a.statements start).toArray).start = some start ↔ (a.known start).Told := by
  rw [ofStatements_toArray, foldl_extend_start]
  constructor
  · intro begins
    obtain ⟨first, rest, listed⟩ := List.exists_cons_of_ne_nil said
    have present : first ∈ a.statements start := by simp [listed]
    obtain ⟨_, told⟩ := source_of_statements present
    simp only [listed, List.head?_cons, Option.map_some, Option.none_or,
      Option.some.injEq] at begins
    rwa [begins] at told
  · intro told
    have own : stateStatements start (a.known start) ≠ [] := stateStatements_ne_nil.mpr told
    obtain ⟨first, rest, listed⟩ := List.exists_cons_of_ne_nil own
    have present : first ∈ stateStatements start (a.known start) := by simp [listed]
    simp [statements, writeOrder, listed, source_of_mem present]

def StartTold (a : Automaton W) : Prop :=
  ∃ start, a.start = some start ∧ (a.known start).Told

theorem not_accepts_of_untold [Tested (fun _ : W => True)] (untold : ¬ a.StartTold) (path : Path)
    (arcs : List (Arc W)) (weight : W) : ¬ a.Accepts path arcs weight := by
  intro accepted
  obtain ⟨start, begins, walked, weighs, nonzero⟩ := accepted
  cases path with
  | nil =>
    cases walked
    obtain ⟨state, found, rfl⟩ := Option.map_eq_some_iff.mp weighs
    refine untold ⟨start, begins, .inr (.inr ?_)⟩
    have other : isZero state.finalWeight ≠ true := by
      intro vanishes
      exact nonzero (Tested.zero_iff.mp vanishes)
    simpa [State.isFinal, known, found] using other
  | cons i path =>
    obtain ⟨arc, rest, found, _, _⟩ := walk?_cons.mp walked
    refine untold ⟨start, begins, .inl ?_⟩
    intro none
    rw [known_arc?, none] at found
    cases found

def SameLanguage (a c : Automaton W) : Prop :=
  ∀ path arcs weight, c.Accepts path arcs weight ↔ a.Accepts path arcs weight

theorem sameLanguage_iff [Tested (fun _ : W => True)]
    (restored : a.StartTold → a.SameLanguage c) :
    a.SameLanguage c ↔ (a.StartTold ∨ ∀ path arcs weight, ¬ c.Accepts path arcs weight) := by
  by_cases told : a.StartTold
  · exact iff_of_true (restored told) (.inl told)
  · constructor
    · intro same
      exact .inr fun path arcs weight accepted =>
        not_accepts_of_untold told path arcs weight ((same path arcs weight).mp accepted)
    · intro outcome path arcs weight
      rcases outcome with found | silent
      · exact absurd found told
      · exact iff_of_false (silent path arcs weight) (not_accepts_of_untold told path arcs weight)

theorem statements_inRange (inRange : a.InRange) (small : a.states.size ≤ stateLimit)
    (exist : start < a.states.size) : ∀ statement ∈ a.statements start, statement.InRange := by
  intro statement listed
  have last := Nat.lt_of_lt_of_le (lastState_of_statements inRange.closed exist listed) small
  obtain ⟨s, _, here⟩ := List.mem_flatMap.mp listed
  rcases mem_stateStatements.mp here with ⟨arc, leaves, rfl⟩ | ⟨_, rfl⟩
  · obtain ⟨i, found⟩ := Array.mem_iff_getElem?.mp leaves
    rw [← known_arc?] at found
    obtain ⟨source, target⟩ := Nat.max_lt.mp last
    exact ⟨source, target, inRange.labels s i arc found⟩
  · exact last

structure ReadBack (a : Automaton W) (text : String) (c : Automaton W) : Prop where
  trimmed : a.Trimmed c
  start : text ≠ "" → (c.start = a.start ↔ a.StartTold)
  language : a.SameLanguage c ↔ (a.StartTold ∨ ∀ path arcs weight, ¬ c.Accepts path arcs weight)

theorem readBack_statements [Tested (fun _ : W => True)] {text : String} (inRange : a.InRange)
    (begins : a.start = some start) (written : text ≠ "" → a.statements start ≠ [])
    (closed : (ofStatements (a.statements start).toArray).Closed) :
    a.ReadBack text (ofStatements (a.statements start).toArray) := by
  have trimmed := trimmed_statements inRange.closed (inRange.closed.start start begins)
  have told : a.StartTold ↔ (a.known start).Told := by
    simp [StartTold, begins]
  refine ⟨trimmed, ?_, sameLanguage_iff ?_⟩
  · intro inhabited
    rw [begins, told]
    exact start_statements (written inhabited)
  · intro startTold
    have own : stateStatements start (a.known start) ≠ [] :=
      stateStatements_ne_nil.mpr (told.mp startTold)
    have said : a.statements start ≠ [] := by
      simp [statements, writeOrder, own]
    have same := (start_statements said).mpr (told.mp startTold)
    exact trimmed.accepts_iff (same.trans begins.symm) closed

section Reading
variable [WeightText W] [Spelled W] {l rest : List (Statement W)} {first : Statement W}
  {fault : LineFault}

theorem read_lines (name : String) (l : List (Statement W)) :
    read (W := W) name (Text.ofLines (l.map Statement.line)).toUTF8 =
      (LineFile.readFrom name Statement.ofColumns 1 #[] ((l.map Statement.line).map some)).map
        ofStatements := by
  have whole : ∀ text ∈ l.map Statement.line, '\n' ∉ text.toList := by
    intro text present
    obtain ⟨statement, _, rfl⟩ := List.mem_map.mp present
    exact statement.line_unbroken
  rw [read, LineFile.read, Text.lines_ofLines whole]

theorem read_bad_first (name : String)
    (bad : Statement.ofColumns (W := W) first.columns = .error fault) :
    read (W := W) name (Text.ofLines ((first :: rest).map Statement.line)).toUTF8 =
      .error (.badLine name 1 fault) := by
  have judgement : LineFile.judgeLine (Statement.ofColumns (W := W)) first.line = .error fault := by
    rw [Statement.judgeLine_line, bad]
    rfl
  rw [read_lines, List.map_cons, List.map_cons, LineFile.readFrom, judgement]
  rfl

variable [Tested (fun _ : W => True)]

theorem readFrom_lines (name : String) (number : Nat) (found : Array (Statement W))
    (sound : ∀ statement ∈ l, statement.InRange) :
    LineFile.readFrom name Statement.ofColumns number found ((l.map Statement.line).map some) =
      .ok (found ++ l.toArray) := by
  induction l generalizing number found with
  | nil => simp [LineFile.readFrom]
  | cons statement rest ih =>
    have judgement : LineFile.judgeLine Statement.ofColumns statement.line =
        .ok (some statement) := by
      rw [Statement.judgeLine_line, Statement.ofColumns_columns (sound statement (by simp))]
      rfl
    have later := ih (number + 1) (found.push statement) fun other present =>
      sound other (by simp [present])
    rw [List.map_cons, List.map_cons, LineFile.readFrom, judgement]
    simp only [later]
    simp

theorem read_ofLines (name : String) (sound : ∀ statement ∈ l, statement.InRange) :
    read name (Text.ofLines (l.map Statement.line)).toUTF8 = .ok (ofStatements l.toArray) := by
  rw [read_lines, readFrom_lines name 1 #[] sound]
  simp [Except.map]

-- An automaton within the limits of the format is accepted, and the start is kept if a
-- line is written about it.
theorem read_write (inRange : a.InRange) (small : a.states.size ≤ stateLimit) (name : String) :
    ∃ text c, a.write = .ok text ∧ read name text.toUTF8 = .ok c ∧ a.ReadBack text c := by
  cases begins : a.start with
  | none =>
    have empty : a = {} := by
      cases a
      cases begins
      cases inRange.begun rfl
      rfl
    have untold : ¬ a.StartTold := by
      simp [StartTold, begins]
    have result : read (W := W) name "".toUTF8 = .ok (ofStatements #[]) := by
      have nothing := read_ofLines (W := W) (l := []) name (by simp)
      exact nothing
    refine ⟨"", _, write_unstarted begins, result, ?_, by simp, sameLanguage_iff ?_⟩
    · subst a
      exact ⟨Nat.le_refl _, by simp [ofStatements], by simp, by simp [arc?]⟩
    · exact fun told => absurd told untold
  | some start =>
    have exist := inRange.closed.start start begins
    have sound := statements_inRange inRange small exist
    have result := read_ofLines name sound
    refine ⟨_, _, write_statements begins exist, result, ?_⟩
    refine readBack_statements inRange begins ?_ (read_inRange result).1.closed
    intro inhabited none
    simp [none, Text.ofLines] at inhabited

end Reading
end WeightedAutomata.Automaton
