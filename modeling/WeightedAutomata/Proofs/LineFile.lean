import WeightedAutomata.LineFile
import WeightedAutomata.Proofs.Text.Integer

namespace WeightedAutomata.LineFile
variable {W S : Type} {judge : List String → Except LineFault S}
  {meaning : List String → S → Prop}

theorem state_eq_ok_iff {text : String} {n : Nat} :
    state text = .ok n ↔ Text.Numeral stateLimit text.toList n := by
  have smaller : stateLimit < numberLimit := by decide
  unfold state
  cases value : Text.natural? numberLimit text.toList with
  | none =>
    refine ⟨fun accepted => (nomatch accepted), fun numeral => ?_⟩
    have read := Text.natural?_eq_some_iff.mpr
      (⟨Nat.lt_trans numeral.below smaller, numeral.spelled⟩ :
        Text.Numeral numberLimit text.toList n)
    rw [value] at read
    cases read
  | some m =>
    have numeral := Text.natural?_eq_some_iff.mp value
    dsimp only
    constructor
    · intro accepted
      split at accepted
      · rename_i inside
        cases accepted
        exact ⟨inside, numeral.spelled⟩
      · cases accepted
    · intro wanted
      have read := Text.natural?_eq_some_iff.mpr
        (⟨Nat.lt_trans wanted.below smaller, wanted.spelled⟩ :
          Text.Numeral numberLimit text.toList n)
      cases value.symm.trans read
      exact if_pos wanted.below

theorem label_eq_ok_iff {text : String} {n : Nat} :
    label text = .ok n ↔ Text.Numeral numberLimit text.toList n := by
  rw [← Text.natural?_eq_some_iff]
  unfold label
  cases Text.natural? numberLimit text.toList <;> simp

theorem weight_eq_ok_iff [WeightText W] {text : String} {w : W} :
    weight text = .ok w ↔ WeightText.parse text = .ok w := by
  unfold weight
  cases WeightText.parse (W := W) text with
  | error fault => exact ⟨fun accepted => (nomatch accepted), fun read => (nomatch read)⟩
  | ok v => exact ⟨fun accepted => by cases accepted; rfl, fun read => by cases read; rfl⟩

-- What lines say, one after the other: a blank one nothing, any other what its columns do.
inductive Said (meaning : List String → S → Prop) : List Text.Line → List S → Prop where
  | nil : Said meaning [] []
  | blank {text : String} {rest : List Text.Line} {said : List S}
      (blank : Text.columns text.toList = []) (later : Said meaning rest said) :
      Said meaning (some text :: rest) said
  | line {text : String} {rest : List Text.Line} {said : List S} {s : S}
      (plain : Text.columns text.toList ≠ [])
      (judged : meaning ((Text.columns text.toList).map String.ofList) s)
      (later : Said meaning rest said) : Said meaning (some text :: rest) (s :: said)

theorem judgeLine_blank {text : String} (blank : Text.columns text.toList = []) :
    judgeLine judge text = .ok none := by
  rw [judgeLine, blank]

theorem judgeLine_plain {text : String} (plain : Text.columns text.toList ≠ []) :
    judgeLine judge text =
      (judge ((Text.columns text.toList).map String.ofList)).map some := by
  unfold judgeLine
  split
  · rename_i blank
    exact absurd blank plain
  · rfl

theorem readFrom_eq_ok_iff (exact : ∀ columns s, judge columns = .ok s ↔ meaning columns s)
    {name : String} {number : Nat} {found result : Array S} {lines : List Text.Line} :
    readFrom name judge number found lines = .ok result ↔
      ∃ said, Said meaning lines said ∧ result = found ++ said.toArray := by
  induction lines generalizing number found with
  | nil =>
    constructor
    · intro accepted
      cases accepted
      exact ⟨[], .nil, by simp⟩
    · rintro ⟨said, ⟨⟩, rfl⟩
      simp [readFrom]
  | cons line rest ih =>
    cases line with
    | none =>
      refine ⟨fun accepted => (nomatch accepted), ?_⟩
      rintro ⟨said, impossible, -⟩
      cases impossible
    | some text =>
      rw [readFrom]
      by_cases blank : Text.columns text.toList = []
      · rw [judgeLine_blank blank]
        refine ih.trans ⟨?_, ?_⟩
        · rintro ⟨said, later, same⟩
          exact ⟨said, .blank blank later, same⟩
        · rintro ⟨said, all, same⟩
          cases all with
          | blank _ later => exact ⟨said, later, same⟩
          | line plain _ _ => exact absurd blank plain
      · rw [judgeLine_plain blank]
        cases verdict : judge ((Text.columns text.toList).map String.ofList) with
        | error fault =>
          refine ⟨fun accepted => (nomatch accepted), ?_⟩
          rintro ⟨said, all, -⟩
          cases all with
          | blank empty _ => exact absurd empty blank
          | line _ judged _ => cases verdict.symm.trans ((exact _ _).mpr judged)
        | ok s =>
          refine ih.trans ⟨?_, ?_⟩
          · rintro ⟨said, later, rfl⟩
            exact ⟨s :: said, .line blank ((exact _ _).mp verdict) later, by simp⟩
          · rintro ⟨said, all, rfl⟩
            cases all with
            | blank empty _ => exact absurd empty blank
            | line _ judged later =>
              cases verdict.symm.trans ((exact _ _).mpr judged)
              exact ⟨_, later, by simp⟩

-- What the first lines say is found before the others are read, each with its number.
theorem readFrom_append (exact : ∀ columns s, judge columns = .ok s ↔ meaning columns s)
    {name : String} {number : Nat} {found : Array S} {before : List Text.Line} {said : List S}
    (all : Said meaning before said) (after : List Text.Line) :
    readFrom name judge number found (before ++ after) =
      readFrom name judge (number + before.length) (found ++ said.toArray) after := by
  induction all generalizing number found with
  | nil => simp
  | blank blank _ ih =>
    rw [List.cons_append, readFrom, judgeLine_blank blank]
    dsimp only
    rw [ih, List.length_cons, Nat.add_right_comm, Nat.add_assoc]
  | line plain judged _ ih =>
    rw [List.cons_append, readFrom, judgeLine_plain plain, (exact _ _).mpr judged]
    simp only [Except.map]
    rw [ih, List.length_cons, Nat.add_right_comm, Nat.add_assoc]
    simp

theorem read_eq_ok_iff (exact : ∀ columns s, judge columns = .ok s ↔ meaning columns s)
    {name : String} {content : ByteArray} {result : Array S} :
    read name judge content = .ok result ↔ Said meaning (Text.lines content) result.toList := by
  rw [read, readFrom_eq_ok_iff exact]
  constructor
  · rintro ⟨said, all, rfl⟩
    simpa using all
  · intro all
    exact ⟨result.toList, all, by simp⟩

end WeightedAutomata.LineFile
