import WeightedAutomata.Proofs.Automaton.Line
import WeightedAutomata.Proofs.Potential.Gathered
import WeightedAutomata.Proofs.Weight.Flag

namespace WeightedAutomata

-- A weight whose text can stand in a column and is read as the weight.
structure Legible {W : Type} [WeightText W] (weight : W) : Prop where
  column : Text.Column (WeightText.print weight).toList
  parse_print : WeightText.parse (WeightText.print weight) = .ok weight

theorem Spelled.legible {W : Type} [WeightText W] [Spelled W] (weight : W) : Legible weight :=
  ⟨Spelled.column weight, Spelled.parse_print weight⟩

namespace Potential
variable {W : Type}

namespace Entry
variable [WeightText W] {entry : Entry W}

def line (entry : Entry W) : String :=
  toString entry.state ++ "\t" ++ WeightText.print entry.weight

theorem line_toList (entry : Entry W) : entry.line.toList =
    ['\t'].intercalate [(toString entry.state).toList, (WeightText.print entry.weight).toList] := by
  simp [line, List.intercalate_cons_cons]

theorem line_columns (legible : Legible entry.weight) : Text.columns entry.line.toList =
    [(toString entry.state).toList, (WeightText.print entry.weight).toList] := by
  rw [line_toList]
  apply Text.columns_intercalate
  intro text present
  rcases List.mem_cons.mp present with rfl | weight
  · exact column_toString entry.state
  · rw [List.mem_singleton.mp weight]
    exact legible.column

theorem line_unbroken (legible : Legible entry.weight) : '\n' ∉ entry.line.toList := by
  have plain : ∀ text, Text.Column text → '\n' ∉ text := by
    intro text column broken
    exact absurd (column.2 '\n' broken) (by decide)
  rw [line_toList]
  apply Text.not_mem_intercalate
  · decide
  · intro text present
    rcases List.mem_cons.mp present with rfl | weight
    · exact plain _ (column_toString entry.state)
    · rw [List.mem_singleton.mp weight]
      exact plain _ legible.column

theorem line_strings (legible : Legible entry.weight) :
    (Text.columns entry.line.toList).map String.ofList =
      [toString entry.state, WeightText.print entry.weight] := by
  rw [line_columns legible, List.map_cons, List.map_singleton, String.ofList_toList,
    String.ofList_toList]

theorem line_listed (inside : entry.state < stateLimit) (legible : Legible entry.weight) :
    Listed ((Text.columns entry.line.toList).map String.ofList) entry := by
  rw [line_strings legible]
  exact .entry (LineFile.state_eq_ok_iff.mp (LineFile.state_toString inside)) legible.parse_print

theorem line_plain (legible : Legible entry.weight) : Text.columns entry.line.toList ≠ [] := by
  rw [line_columns legible]
  exact List.cons_ne_nil _ _

end Entry

variable {potentials : Array W} {entry : Entry W} {entries : List (Entry W)} {s : Nat}

def entriesFrom (s : Nat) : List W → List (Entry W)
  | [] => []
  | weight :: rest => ⟨s, weight⟩ :: entriesFrom (s + 1) rest

theorem entriesFrom_append (s : Nat) (front back : List W) :
    entriesFrom s (front ++ back) = entriesFrom s front ++ entriesFrom (s + front.length) back := by
  induction front generalizing s with
  | nil => rfl
  | cons weight rest ih =>
    rw [List.cons_append, entriesFrom, ih, entriesFrom, List.cons_append, List.length_cons,
      Nat.add_right_comm, Nat.add_assoc]

theorem mem_entriesFrom {weights : List W} (present : entry ∈ entriesFrom s weights) :
    entry.state < s + weights.length ∧ entry.weight ∈ weights := by
  induction weights generalizing s with
  | nil => cases present
  | cons weight rest ih =>
    rw [List.length_cons]
    rcases List.mem_cons.mp present with rfl | later
    · exact ⟨by dsimp only; omega, by simp⟩
    · obtain ⟨below, listed⟩ := ih later
      exact ⟨by omega, List.mem_cons_of_mem _ listed⟩

theorem length_entriesFrom (s : Nat) (weights : List W) :
    (entriesFrom s weights).length = weights.length := by
  induction weights generalizing s with
  | nil => rfl
  | cons weight rest ih => rw [entriesFrom, List.length_cons, ih, List.length_cons]

section Lines
variable [WeightText W]

theorem write_eq (potentials : Array W) :
    write potentials = Text.ofLines ((entriesFrom 0 potentials.toList).map Entry.line) := by
  have lines : ∀ s (weights : List W),
      (weights.zipIdx s).map (fun entry =>
        toString entry.2 ++ "\t" ++ WeightText.print entry.1 ++ "\n") =
          ((entriesFrom s weights).map Entry.line).map fun text => text ++ "\n" := by
    intro s weights
    induction weights generalizing s with
    | nil => rfl
    | cons weight rest ih =>
      rw [List.zipIdx_cons, entriesFrom, List.map_cons, List.map_cons, List.map_cons, ih]
      rfl
  exact congrArg String.join (lines 0 potentials.toList)

theorem lines_said (inside : ∀ entry ∈ entries, entry.state < stateLimit)
    (legible : ∀ entry ∈ entries, Legible entry.weight) :
    LineFile.Said Entry.Listed ((entries.map Entry.line).map some) entries := by
  induction entries with
  | nil => exact .nil
  | cons entry rest ih =>
    obtain ⟨first, restInside⟩ := List.forall_mem_cons.mp inside
    obtain ⟨own, restLegible⟩ := List.forall_mem_cons.mp legible
    exact .line (Entry.line_plain own) (Entry.line_listed first own) (ih restInside restLegible)

theorem entriesFrom_legible (legible : ∀ weight ∈ potentials, Legible weight) :
    ∀ entry ∈ entriesFrom 0 potentials.toList, Legible entry.weight :=
  fun _ present => legible _ (Array.mem_def.mpr (mem_entriesFrom present).2)

theorem lines_write (legible : ∀ weight ∈ potentials, Legible weight) :
    Text.lines (write potentials).toUTF8 =
      ((entriesFrom 0 potentials.toList).map Entry.line).map some := by
  rw [write_eq, Text.lines_ofLines]
  intro text present
  obtain ⟨entry, listed, rfl⟩ := List.mem_map.mp present
  exact Entry.line_unbroken (entriesFrom_legible legible entry listed)

end Lines

variable [Weight W]

theorem extend_last (potentials : Array W) (weight : W) :
    extend potentials ⟨potentials.size, weight⟩ = potentials.push weight := by
  apply eq_of_get
  · rw [extend_size, Array.size_push]
    exact Nat.max_eq_right (Nat.le_succ _)
  · intro s
    rw [get_extend, get, get, Array.getElem?_push]
    simp only [eq_comm (a := s)]
    split <;> rfl

theorem foldl_entriesFrom (potentials : Array W) (weights : List W) :
    (entriesFrom potentials.size weights).foldl extend potentials =
      potentials ++ weights.toArray := by
  induction weights generalizing potentials with
  | nil => simp [entriesFrom]
  | cons weight rest ih =>
    rw [entriesFrom, List.foldl_cons, extend_last, ← Array.size_push weight, ih]
    simp

theorem ofEntries_entriesFrom (potentials : Array W) :
    ofEntries (entriesFrom 0 potentials.toList).toArray = potentials := by
  have gathered := foldl_entriesFrom (#[] : Array W) potentials.toList
  rw [ofEntries_toArray]
  simpa using gathered

section Text
variable [WeightText W]

theorem read_lines (name : String) (content : ByteArray) :
    read (W := W) (Weight.typeName W) name content =
      (LineFile.readFrom name Entry.ofColumns 1 #[] (Text.lines content)).map ofEntries :=
  if_neg fun other => other rfl

theorem read_said {content : ByteArray}
    (said : LineFile.Said Entry.Listed (Text.lines content) entries) (name : String) :
    read (W := W) (Weight.typeName W) name content = .ok (ofEntries entries.toArray) := by
  have accepted : LineFile.read name Entry.ofColumns content = .ok entries.toArray :=
    (LineFile.read_eq_ok_iff Entry.ofColumns_eq_ok_iff).mpr said
  rw [LineFile.read] at accepted
  rw [read_lines, accepted]
  rfl

variable (legible : ∀ weight ∈ potentials, Legible weight)
include legible

theorem read_write (small : potentials.size ≤ stateLimit) (name : String) :
    read (Weight.typeName W) name (write potentials).toUTF8 = .ok potentials := by
  have inside : ∀ entry ∈ entriesFrom 0 potentials.toList, entry.state < stateLimit := by
    intro entry present
    have below := (mem_entriesFrom present).1
    rw [Array.length_toList] at below
    omega
  have said := lines_said inside (entriesFrom_legible legible)
  rw [← lines_write legible] at said
  rw [read_said said name, ofEntries_entriesFrom]

-- The line of the first state beyond the limit is refused, and all lines before it are read.
theorem read_beyond (large : stateLimit < potentials.size) (name : String) :
    read (W := W) (Weight.typeName W) name (write potentials).toUTF8 =
      .error (.badLine name (stateLimit + 1) (.stateOutOfRange stateLimit)) := by
  have bound : stateLimit < potentials.toList.length := by
    rwa [Array.length_toList]
  have split : entriesFrom 0 potentials.toList =
      entriesFrom 0 (potentials.toList.take stateLimit) ++
        ⟨stateLimit, potentials.toList[stateLimit]⟩ ::
          entriesFrom (stateLimit + 1) (potentials.toList.drop (stateLimit + 1)) := by
    conv_lhs => rw [← List.take_append_drop stateLimit potentials.toList]
    rw [entriesFrom_append, List.length_take_of_le (Nat.le_of_lt bound),
      List.drop_eq_getElem_cons bound, Nat.zero_add, entriesFrom]
  have legibleEntries := entriesFrom_legible legible
  rw [split] at legibleEntries
  obtain ⟨beforeLegible, lastLegible⟩ := List.forall_mem_append.mp legibleEntries
  have last := (List.forall_mem_cons.mp lastLegible).1
  have inside : ∀ entry ∈ entriesFrom 0 (potentials.toList.take stateLimit),
      entry.state < stateLimit := by
    intro entry present
    have below := (mem_entriesFrom present).1
    rw [List.length_take_of_le (Nat.le_of_lt bound)] at below
    omega
  have refused : Entry.ofColumns (W := W)
      [toString stateLimit, WeightText.print potentials.toList[stateLimit]] =
        .error (.stateOutOfRange stateLimit) := by
    rw [Entry.ofColumns, LineFile.state_toString_beyond (Nat.le_refl _) (by decide)]
    rfl
  rw [read_lines, lines_write legible, split, List.map_append, List.map_append,
    LineFile.readFrom_append Entry.ofColumns_eq_ok_iff (lines_said inside beforeLegible),
    List.map_cons, List.map_cons, LineFile.readFrom, LineFile.judgeLine_plain
      (Entry.line_plain last), Entry.line_strings last, refused]
  simp only [Except.map, List.length_map, length_entriesFrom,
    List.length_take_of_le (Nat.le_of_lt bound), Nat.add_comm 1]

end Text

-- A file all of whose lines are blank or list a state with its weight is read as what they
-- list, in whatever order the states are. Potentials are read back from their text up to the
-- limit, and beyond it the first state that is too large is reported.
theorem read_gathered (W : Type) [Weight W] [WeightText W] :
    (∀ content (entries : List (Entry W)),
      LineFile.Said Entry.Listed (Text.lines content) entries → ∀ name,
        ∃ potentials, read (Weight.typeName W) name content = .ok potentials ∧
          Gathered entries potentials ∧
          ∀ others, Reordered entries others → ∀ otherContent,
            LineFile.Said Entry.Listed (Text.lines otherContent) others →
              ∀ otherName, read (Weight.typeName W) otherName otherContent = .ok potentials) ∧
    ∀ potentials : Array W, (∀ weight ∈ potentials, Legible weight) → ∀ name,
      (read (Weight.typeName W) name (write potentials).toUTF8 = .ok potentials ↔
        potentials.size ≤ stateLimit) ∧
      (stateLimit < potentials.size →
        read (W := W) (Weight.typeName W) name (write potentials).toUTF8 =
          .error (.badLine name (stateLimit + 1) (.stateOutOfRange stateLimit))) := by
  constructor
  · intro content entries said name
    refine ⟨_, read_said said name, ofEntries_gathered entries, ?_⟩
    intro others reordered otherContent otherSaid otherName
    rw [read_said otherSaid otherName, ofEntries_reordered reordered]
  · intro potentials legible name
    refine ⟨⟨fun restored => ?_, fun small => read_write legible small name⟩,
      fun large => read_beyond legible large name⟩
    refine Classical.byContradiction fun beyond => ?_
    cases restored.symm.trans (read_beyond legible (Nat.lt_of_not_le beyond) name)

-- The state 3 is listed twice, and 2 not at all.
def sparseListing : ByteArray :=
  "3 T\n\n0 F\n3 F\n+1 T".toUTF8

def sparseEntries : List (Entry Flag) :=
  [⟨3, ⟨true⟩⟩, ⟨0, ⟨false⟩⟩, ⟨3, ⟨false⟩⟩, ⟨1, ⟨true⟩⟩]

def risingListing : ByteArray :=
  "0\tF\n1\tT\n3\tT\n3\tF\n".toUTF8

def risingEntries : List (Entry Flag) :=
  [⟨0, ⟨false⟩⟩, ⟨1, ⟨true⟩⟩, ⟨3, ⟨true⟩⟩, ⟨3, ⟨false⟩⟩]

theorem sparse_read_gathered :
    LineFile.Said Entry.Listed (Text.lines sparseListing) sparseEntries ∧
      LineFile.Said Entry.Listed (Text.lines risingListing) risingEntries ∧
      Reordered sparseEntries risingEntries ∧
      (∃ potentials : Array Flag, read "flag" "v.txt" sparseListing = .ok potentials ∧
        Gathered sparseEntries potentials ∧ read "flag" "w.txt" risingListing = .ok potentials) ∧
      (∀ weight : Flag, Legible weight) ∧
      read "flag" "v.txt" (write (Array.replicate (stateLimit + 1) (⟨true⟩ : Flag))).toUTF8 =
        (.error (.badLine "v.txt" (stateLimit + 1) (.stateOutOfRange stateLimit)) :
          Except ReadError (Array Flag)) := by
  have lines : Text.lines sparseListing =
      [some "3 T", some "", some "0 F", some "3 F", some "+1 T"] := by
    decide +kernel
  have risingLines : Text.lines risingListing =
      [some "0\tF", some "1\tT", some "3\tT", some "3\tF"] := by
    decide +kernel
  have listed := fun columns (entry : Entry Flag) =>
    (Entry.ofColumns_eq_ok_iff columns entry).mp
  have said : LineFile.Said Entry.Listed (Text.lines sparseListing) sparseEntries := by
    rw [lines]
    exact .line (by decide) (listed _ _ rfl) (.blank rfl (.line (by decide) (listed _ _ rfl)
      (.line (by decide) (listed _ _ rfl) (.line (by decide) (listed _ _ rfl) .nil))))
  have risingSaid : LineFile.Said Entry.Listed (Text.lines risingListing) risingEntries := by
    rw [risingLines]
    exact .line (by decide) (listed _ _ rfl) (.line (by decide) (listed _ _ rfl)
      (.line (by decide) (listed _ _ rfl) (.line (by decide) (listed _ _ rfl) .nil)))
  have reordered : Reordered sparseEntries risingEntries := by
    intro s
    by_cases first : s = 0
    · subst s
      rfl
    · by_cases second : s = 1
      · subst s
        rfl
      · simp [sparseEntries, risingEntries, List.filter_cons, Ne.symm first, Ne.symm second]
  obtain ⟨gathers, restores⟩ := read_gathered Flag
  obtain ⟨potentials, accepted, gathered, others⟩ := gathers _ _ said "v.txt"
  have legible : ∀ weight : Flag, Legible weight := Spelled.legible
  obtain ⟨-, refused⟩ := restores (Array.replicate (stateLimit + 1) ⟨true⟩)
    (fun weight _ => legible weight) "v.txt"
  refine ⟨said, risingSaid, reordered, ?_, legible, refused ?_⟩
  · exact ⟨potentials, accepted, gathered, others _ reordered _ risingSaid "w.txt"⟩
  · rw [Array.size_replicate]
    exact Nat.lt_succ_self _

end Potential
end WeightedAutomata
