import WeightedAutomata.Proofs.Automaton.Read
import WeightedAutomata.Proofs.LineFile

namespace WeightedAutomata

def ReadError.later (n : Nat) : ReadError → ReadError
  | badLine name line fault => badLine name (line + n) fault
  | unreadable name fault => unreadable name fault
  | weightTypeMismatch name requested actual => weightTypeMismatch name requested actual

theorem Text.Numeral.unique {limit other n m : Nat} {text : List Char}
    (left : Text.Numeral limit text n) (right : Text.Numeral other text m) : n = m := by
  have leftRead := Text.natural?_eq_some_iff.mpr
    (⟨Nat.lt_of_lt_of_le left.below (Nat.le_max_left limit other), left.spelled⟩ :
      Text.Numeral (max limit other) text n)
  have rightRead := Text.natural?_eq_some_iff.mpr
    (⟨Nat.lt_of_lt_of_le right.below (Nat.le_max_right limit other), right.spelled⟩ :
      Text.Numeral (max limit other) text m)
  cases leftRead.symm.trans rightRead
  rfl

namespace LineFile
variable {W S X : Type}

inductive StateFault (text : String) : LineFault → Prop where
  | unspelled (none : ∀ n, ¬ Text.Numeral numberLimit text.toList n) :
      StateFault text (.badState text)
  | outOfRange {n : Nat} (numeral : Text.Numeral numberLimit text.toList n)
      (beyond : stateLimit ≤ n) : StateFault text (.stateOutOfRange n)

theorem natural?_eq_none_iff {limit : Nat} {text : List Char} :
    Text.natural? limit text = none ↔ ∀ n, ¬ Text.Numeral limit text n := by
  simp only [← Text.natural?_eq_some_iff, Option.eq_none_iff_forall_ne_some, ne_eq]

theorem state_eq_error_iff {text : String} {fault : LineFault} :
    state text = .error fault ↔ StateFault text fault := by
  unfold state
  cases value : Text.natural? numberLimit text.toList with
  | none =>
    have none := natural?_eq_none_iff.mp value
    constructor
    · intro refused
      cases refused
      exact .unspelled none
    · intro faulty
      cases faulty with
      | unspelled _ => rfl
      | outOfRange numeral _ => exact absurd numeral (none _)
  | some m =>
    have numeral := Text.natural?_eq_some_iff.mp value
    dsimp only
    constructor
    · intro refused
      split at refused
      · cases refused
      · rename_i beyond
        cases refused
        exact .outOfRange numeral (Nat.le_of_not_lt beyond)
    · intro faulty
      cases faulty with
      | unspelled none => exact absurd numeral (none m)
      | outOfRange other beyond =>
        cases numeral.unique other
        exact if_neg (Nat.not_lt_of_le beyond)

theorem label_eq_error_iff {text : String} {fault : LineFault} : label text = .error fault ↔
    (∀ n, ¬ Text.Numeral numberLimit text.toList n) ∧ fault = .badLabel text := by
  rw [← natural?_eq_none_iff]
  unfold label
  cases Text.natural? numberLimit text.toList <;> simp [eq_comm]

theorem weight_eq_error_iff [WeightText W] {text : String} {fault : LineFault} :
    weight (W := W) text = .error fault ↔
      ∃ parseFault, WeightText.parse (W := W) text = .error parseFault ∧
        fault = .badWeight parseFault := by
  unfold weight
  cases WeightText.parse (W := W) text with
  | error parseFault =>
    constructor
    · intro refused
      cases refused
      exact ⟨_, rfl, rfl⟩
    · rintro ⟨_, same, rfl⟩
      cases same
      rfl
  | ok w =>
    refine ⟨fun refused => (nomatch refused), ?_⟩
    rintro ⟨_, impossible, -⟩
    cases impossible

variable {judge : List String → Except LineFault S} {meaning : List String → S → Prop}
  {bad : List String → LineFault → Prop}

-- What is wrong with a line: it is not text, or its columns are bad.
inductive Defect (bad : List String → LineFault → Prop) : Text.Line → Option LineFault → Prop where
  | undecoded : Defect bad none none
  | judged {text : String} {fault : LineFault} (plain : Text.columns text.toList ≠ [])
      (faulty : bad ((Text.columns text.toList).map String.ofList) fault) :
      Defect bad (some text) (some fault)

def Malformed (bad : List String → LineFault → Prop) (line : Text.Line) : Prop :=
  ∃ defect, Defect bad line defect

def reported (name : String) (number : Nat) : Option LineFault → ReadError
  | none => .unreadable name .notUtf8
  | some fault => .badLine name number fault

theorem reported_later (name : String) (number n : Nat) (defect : Option LineFault) :
    reported name (number + n) defect = (reported name number defect).later n := by
  cases defect <;> rfl

theorem exists_first {α : Type} (p : α → Prop) (xs : List α) :
    (∀ x ∈ xs, ¬ p x) ∨
      ∃ before x after, xs = before ++ x :: after ∧ (∀ y ∈ before, ¬ p y) ∧ p x := by
  induction xs with
  | nil => exact .inl (by simp)
  | cons x xs ih =>
    by_cases here : p x
    · exact .inr ⟨[], x, xs, rfl, by simp, here⟩
    · rcases ih with none | ⟨before, y, after, rfl, earlier, there⟩
      · exact .inl (List.forall_mem_cons.mpr ⟨here, none⟩)
      · exact .inr ⟨x :: before, y, after, rfl, List.forall_mem_cons.mpr ⟨here, earlier⟩, there⟩

section Lines
variable {name : String} {number : Nat} {found : Array S} {line : Text.Line}
  {before after : List Text.Line}

variable (refuses : ∀ columns, columns ≠ [] → ∀ fault,
  judge columns = .error fault ↔ bad columns fault)
include refuses

theorem readFrom_defect {defect : Option LineFault} (faulty : Defect bad line defect) :
    readFrom name judge number found (line :: after) = .error (reported name number defect) := by
  cases faulty with
  | undecoded => rfl
  | judged plain faulty =>
    rw [readFrom, judgeLine_plain plain, (refuses _ (by simpa using plain) _).mpr faulty]
    rfl

theorem judgeLine_sound {text : String} (sound : ¬ Malformed bad (some text)) :
    ∃ said, judgeLine judge text = .ok said := by
  by_cases blank : Text.columns text.toList = []
  · exact ⟨none, judgeLine_blank blank⟩
  · rw [judgeLine_plain blank]
    cases verdict : judge ((Text.columns text.toList).map String.ofList) with
    | error fault =>
      have faulty := (refuses _ (by simpa using blank) _).mp verdict
      exact absurd ⟨_, .judged blank faulty⟩ sound
    | ok s => exact ⟨some s, rfl⟩

theorem readFrom_sound (sound : ∀ earlier ∈ before, ¬ Malformed bad earlier) :
    ∃ more, readFrom name judge number found (before ++ after) =
      readFrom name judge (number + before.length) (found ++ more) after := by
  induction before generalizing number found with
  | nil => exact ⟨#[], by simp⟩
  | cons line rest ih =>
    obtain ⟨first, restSound⟩ := List.forall_mem_cons.mp sound
    cases line with
    | none => exact absurd ⟨_, .undecoded⟩ first
    | some text =>
      obtain ⟨said, verdict⟩ := judgeLine_sound refuses first
      rw [List.cons_append, readFrom, verdict, List.length_cons, ← Nat.add_assoc,
        Nat.add_right_comm]
      cases said with
      | none => exact ih restSound
      | some s =>
        obtain ⟨more, reads⟩ : ∃ more,
            readFrom name judge (number + 1) (found.push s) (rest ++ after) =
              readFrom name judge (number + 1 + rest.length) (found.push s ++ more) after :=
          ih restSound
        exact ⟨#[s] ++ more, by simpa using reads⟩

theorem readFrom_first {defect : Option LineFault}
    (sound : ∀ earlier ∈ before, ¬ Malformed bad earlier) (faulty : Defect bad line defect) :
    readFrom name judge number found (before ++ line :: after) =
      .error (reported name (number + before.length) defect) := by
  obtain ⟨more, reads⟩ := readFrom_sound refuses sound
  rw [reads, readFrom_defect refuses faulty]

theorem readFrom_accepts {lines : List Text.Line} (sound : ∀ line ∈ lines, ¬ Malformed bad line) :
    ∃ result, readFrom name judge number found lines = .ok result := by
  obtain ⟨more, reads⟩ : ∃ more, readFrom name judge number found (lines ++ []) =
      readFrom name judge (number + lines.length) (found ++ more) [] := readFrom_sound refuses sound
  rw [List.append_nil] at reads
  exact ⟨found ++ more, reads⟩

theorem readFrom_error {lines : List Text.Line} {error : ReadError}
    (refused : readFrom name judge number found lines = .error error) :
    ∃ before line after defect, lines = before ++ line :: after ∧
      (∀ earlier ∈ before, ¬ Malformed bad earlier) ∧ Defect bad line defect ∧
      error = reported name (number + before.length) defect := by
  rcases exists_first (Malformed bad) lines with sound | ⟨before, line, after, rfl, sound, faulty⟩
  · obtain ⟨result, accepted⟩ := readFrom_accepts refuses sound
    cases accepted.symm.trans refused
  · obtain ⟨defect, faulty⟩ := faulty
    cases (readFrom_first refuses sound faulty).symm.trans refused
    exact ⟨before, line, after, defect, rfl, sound, faulty, rfl⟩

end Lines

-- What a reader of lines promises about its errors. `meaning` is what well-formed columns
-- say, and `bad` what is wrong with all others.
structure FirstFault (meaning : List String → S → Prop) (bad : List String → LineFault → Prop)
    (read : String → ByteArray → Except ReadError X) : Prop where
  sound_iff : ∀ text, ¬ Malformed bad (some text) ↔
    Text.columns text.toList = [] ∨ ∃ s, meaning ((Text.columns text.toList).map String.ofList) s
  fails_iff : ∀ name content, (∃ error, read name content = .error error) ↔
    ∃ line ∈ Text.lines content, Malformed bad line
  first : ∀ name content before line after defect,
    Text.lines content = before ++ line :: after →
      (∀ earlier ∈ before, ¬ Malformed bad earlier) → Defect bad line defect →
        read name content = .error (reported name (before.length + 1) defect)
  own : ∀ name content alone before line after error,
    Text.lines content = before ++ line :: after →
      (∀ earlier ∈ before, ¬ Malformed bad earlier) → Text.lines alone = [line] →
        read name alone = .error error → read name content = .error (error.later before.length)
  appended : ∀ name content longer more error,
    Text.lines longer = Text.lines content ++ more → read name content = .error error →
      read name longer = .error error
  preceded : ∀ name content longer front error,
    Text.lines longer = front ++ Text.lines content →
      (∀ earlier ∈ front, ¬ Malformed bad earlier) → read name content = .error error →
        read name longer = .error (error.later front.length)

theorem not_malformed_iff (exact : ∀ columns s, judge columns = .ok s ↔ meaning columns s)
    (refuses : ∀ columns, columns ≠ [] → ∀ fault,
      judge columns = .error fault ↔ bad columns fault) (text : String) :
    ¬ Malformed bad (some text) ↔ Text.columns text.toList = [] ∨
      ∃ s, meaning ((Text.columns text.toList).map String.ofList) s := by
  constructor
  · intro sound
    by_cases blank : Text.columns text.toList = []
    · exact .inl blank
    · obtain ⟨said, verdict⟩ := judgeLine_sound refuses sound
      rw [judgeLine_plain blank] at verdict
      cases judged : judge ((Text.columns text.toList).map String.ofList) with
      | error fault =>
        rw [judged] at verdict
        cases verdict
      | ok s => exact .inr ⟨s, (exact _ _).mp judged⟩
  · rintro outcome ⟨_, faulty⟩
    cases faulty with
    | judged plain faulty =>
      rcases outcome with blank | ⟨s, meant⟩
      · exact plain blank
      · have refused := (refuses _ (by simpa using plain) _).mpr faulty
        cases refused.symm.trans ((exact _ s).mpr meant)

section Files
variable {build : Array S → X} {read : String → ByteArray → Except ReadError X} {name : String}
  {content : ByteArray} {error : ReadError}
  (reads : ∀ name content, read name content = (LineFile.read name judge content).map build)
  (refuses : ∀ columns, columns ≠ [] → ∀ fault, judge columns = .error fault ↔ bad columns fault)
include reads

theorem read_error_iff : read name content = .error error ↔
    readFrom name judge 1 #[] (Text.lines content) = .error error := by
  rw [reads, LineFile.read]
  cases readFrom name judge 1 #[] (Text.lines content) <;> simp [Except.map]

include refuses

theorem read_first {before after : List Text.Line} {line : Text.Line} {defect : Option LineFault}
    (split : Text.lines content = before ++ line :: after)
    (sound : ∀ earlier ∈ before, ¬ Malformed bad earlier) (faulty : Defect bad line defect) :
    read name content = .error (reported name (before.length + 1) defect) := by
  rw [read_error_iff reads, split, readFrom_first refuses sound faulty, Nat.add_comm]

theorem read_error (refused : read name content = .error error) :
    ∃ before line after defect, Text.lines content = before ++ line :: after ∧
      (∀ earlier ∈ before, ¬ Malformed bad earlier) ∧ Defect bad line defect ∧
      error = reported name (before.length + 1) defect := by
  obtain ⟨before, line, after, defect, split, sound, faulty, rfl⟩ :=
    readFrom_error refuses ((read_error_iff reads).mp refused)
  exact ⟨before, line, after, defect, split, sound, faulty, by rw [Nat.add_comm]⟩

theorem read_fails_iff : (∃ error, read name content = .error error) ↔
    ∃ line ∈ Text.lines content, Malformed bad line := by
  constructor
  · rintro ⟨error, refused⟩
    obtain ⟨before, line, after, defect, split, -, faulty, -⟩ := read_error reads refuses refused
    exact ⟨line, by simp [split], defect, faulty⟩
  · rintro ⟨line, listed, malformed⟩
    rcases exists_first (Malformed bad) (Text.lines content) with
      sound | ⟨before, other, after, split, sound, defect, faulty⟩
    · exact absurd malformed (sound line listed)
    · exact ⟨_, read_first reads refuses split sound faulty⟩

theorem read_own {alone : ByteArray} {before after : List Text.Line} {line : Text.Line}
    (split : Text.lines content = before ++ line :: after)
    (sound : ∀ earlier ∈ before, ¬ Malformed bad earlier) (single : Text.lines alone = [line])
    (refused : read name alone = .error error) :
    read name content = .error (error.later before.length) := by
  obtain ⟨others, other, rest, defect, parts, -, faulty, rfl⟩ := read_error reads refuses refused
  rw [single] at parts
  cases others with
  | nil =>
    cases parts
    rw [read_first reads refuses split sound faulty, ← reported_later, List.length_nil,
      Nat.zero_add, Nat.add_comm]
  | cons first others => simp at parts

theorem read_appended {longer : ByteArray} {more : List Text.Line}
    (extended : Text.lines longer = Text.lines content ++ more)
    (refused : read name content = .error error) : read name longer = .error error := by
  obtain ⟨before, line, after, defect, split, sound, faulty, rfl⟩ :=
    read_error reads refuses refused
  rw [split, List.append_assoc, List.cons_append] at extended
  exact read_first reads refuses extended sound faulty

theorem read_preceded {longer : ByteArray} {front : List Text.Line}
    (extended : Text.lines longer = front ++ Text.lines content)
    (frontSound : ∀ earlier ∈ front, ¬ Malformed bad earlier)
    (refused : read name content = .error error) :
    read name longer = .error (error.later front.length) := by
  obtain ⟨before, line, after, defect, split, sound, faulty, rfl⟩ :=
    read_error reads refuses refused
  rw [split, ← List.append_assoc] at extended
  have allSound := List.forall_mem_append.mpr ⟨frontSound, sound⟩
  have number : (front ++ before).length + 1 = before.length + 1 + front.length := by
    rw [List.length_append]
    omega
  rw [read_first reads refuses extended allSound faulty, number, reported_later]

theorem firstFault (exact : ∀ columns s, judge columns = .ok s ↔ meaning columns s) :
    FirstFault meaning bad read where
  sound_iff := not_malformed_iff exact refuses
  fails_iff _ _ := read_fails_iff reads refuses
  first _ _ _ _ _ _ split sound faulty := read_first reads refuses split sound faulty
  own _ _ _ _ _ _ _ split sound single refused :=
    read_own reads refuses split sound single refused
  appended _ _ _ _ _ extended refused := read_appended reads refuses extended refused
  preceded _ _ _ _ _ extended sound refused := read_preceded reads refuses extended sound refused

end Files

section Building
variable {add : X → S → X} {name : String}

-- Reading that takes in what a line says before it looks at the next: what has been built
-- when it stops, and the error that stops it before the end.
def takeIn (name : String) (judge : List String → Except LineFault S) (add : X → S → X) :
    Nat → X → List Text.Line → X × Option ReadError
  | _, built, [] => (built, none)
  | _, built, none :: _ => (built, some (.unreadable name .notUtf8))
  | number, built, some text :: rest =>
    match judgeLine judge text with
    | .error fault => (built, some (.badLine name number fault))
    | .ok none => takeIn name judge add (number + 1) built rest
    | .ok (some s) => takeIn name judge add (number + 1) (add built s) rest

def settle : X × Option ReadError → Except ReadError X
  | (built, none) => .ok built
  | (_, some error) => .error error

-- To take in line by line is to collect all that is said and then to build.
theorem settle_takeIn (begun : X) (number : Nat) (found : Array S) (lines : List Text.Line) :
    settle (takeIn name judge add number (found.foldl add begun) lines) =
      (readFrom name judge number found lines).map fun said => said.foldl add begun := by
  induction lines generalizing number found with
  | nil => rfl
  | cons line rest ih =>
    cases line with
    | none => rfl
    | some text =>
      rw [takeIn, readFrom]
      cases judgeLine judge text with
      | error fault => rfl
      | ok said =>
        cases said with
        | none => exact ih (number + 1) found
        | some s =>
          have later := ih (number + 1) (found.push s)
          rwa [Array.foldl_push] at later

-- What every accepted line keeps holds of what has been built, also when a line is refused.
theorem takeIn_keeps {Q : X → Prop}
    (kept : ∀ built columns s, judge columns = .ok s → Q built → Q (add built s)) {built : X}
    (begun : Q built) (number : Nat) (lines : List Text.Line) :
    Q (takeIn name judge add number built lines).1 := by
  induction lines generalizing number built with
  | nil => exact begun
  | cons line rest ih =>
    cases line with
    | none => exact begun
    | some text =>
      rw [takeIn]
      cases verdict : judgeLine judge text with
      | error fault => exact begun
      | ok said =>
        cases said with
        | none => exact ih begun (number + 1)
        | some s =>
          obtain ⟨columns, judged⟩ := judge_of_judgeLine verdict
          exact ih (kept built columns s judged begun) (number + 1)

end Building

theorem of_settle_eq_ok {progress : X × Option ReadError} {built : X}
    (settled : settle progress = .ok built) : progress.1 = built := by
  obtain ⟨begun, stop⟩ := progress
  cases stop with
  | none =>
    cases settled
    rfl
  | some error => cases settled

-- What a reader of lines promises about the states it makes room for. `states` are the
-- columns that name states, and `progress` is reading as it goes.
structure Confined (states : List String → List String) (bad : List String → LineFault → Prop)
    (size : X → Nat) (progress : String → ByteArray → X × Option ReadError)
    (read : String → ByteArray → Except ReadError X) : Prop where
  beyond : ∀ text column s, column ∈ states ((Text.columns text.toList).map String.ofList) →
    Text.Numeral (s + 1) column.toList s → stateLimit ≤ s → Malformed bad (some text)
  settles : ∀ name content, settle (progress name content) = read name content
  small : ∀ name content, size (progress name content).1 ≤ stateLimit
  accepted : ∀ name content built, read name content = .ok built → size built ≤ stateLimit

theorem malformed_of_beyond {read : String → ByteArray → Except ReadError X}
    {states : List String → List String} (faults : FirstFault meaning bad read)
    (blank : states [] = [])
    (named : ∀ columns s, meaning columns s → ∀ column ∈ states columns,
      ∃ n, Text.Numeral stateLimit column.toList n) {text column : String} {s : Nat}
    (within : column ∈ states ((Text.columns text.toList).map String.ofList))
    (numeral : Text.Numeral (s + 1) column.toList s) (beyond : stateLimit ≤ s) :
    Malformed bad (some text) := by
  refine Classical.byContradiction fun sound => ?_
  rcases (faults.sound_iff text).mp sound with empty | ⟨said, meant⟩
  · rw [empty, List.map_nil, blank] at within
    cases within
  · obtain ⟨n, other⟩ := named _ said meant column within
    cases numeral.unique other
    exact absurd other.below (Nat.not_lt_of_le beyond)

theorem confined {read : String → ByteArray → Except ReadError X}
    {states : List String → List String} {size : X → Nat} {add : X → S → X} {begun : X}
    (faults : FirstFault meaning bad read) (blank : states [] = [])
    (named : ∀ columns s, meaning columns s → ∀ column ∈ states columns,
      ∃ n, Text.Numeral stateLimit column.toList n)
    (reads : ∀ name content, read name content =
      (LineFile.read name judge content).map fun said => said.foldl add begun)
    (none : size begun ≤ stateLimit)
    (kept : ∀ built columns s, judge columns = .ok s → size built ≤ stateLimit →
      size (add built s) ≤ stateLimit) :
    Confined states bad size
      (fun name content => takeIn name judge add 1 begun (Text.lines content)) read := by
  have settles : ∀ name content,
      settle (takeIn name judge add 1 begun (Text.lines content)) = read name content := by
    intro name content
    rw [reads]
    exact settle_takeIn begun 1 #[] (Text.lines content)
  have small : ∀ name content,
      size (takeIn name judge add 1 begun (Text.lines content)).1 ≤ stateLimit :=
    fun name content => takeIn_keeps kept none 1 (Text.lines content)
  refine ⟨?_, settles, small, ?_⟩
  · intro text column s within numeral beyond
    exact malformed_of_beyond faults blank named within numeral beyond
  · intro name content built accepted
    rw [← of_settle_eq_ok ((settles name content).trans accepted)]
    exact small name content

end LineFile
end WeightedAutomata
