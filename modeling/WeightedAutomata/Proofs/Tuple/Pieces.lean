import Mathlib.Data.List.Forall2
import WeightedAutomata.Proofs.Tuple.Elements
import WeightedAutomata.Proofs.Tuple.Insert

namespace WeightedAutomata.SparseTuple
open Text
variable {text piece first : List Char} {others : List (List Char)} {depth after : Nat} {c : Char}

-- A text that runs from a depth down to none, with no comma where nothing is open.
structure Closing (depth : Nat) (text : List Char) : Prop where
  closes : openAfter depth text = some 0
  covered : ∀ front rest, text = front ++ ',' :: rest → openAfter depth front ≠ some 0

abbrev Piece (text : List Char) : Prop :=
  Closing 0 text

theorem closing_nil : Closing depth [] ↔ depth = 0 := by
  constructor
  · intro closing
    exact Option.some.inj closing.closes
  · rintro rfl
    refine ⟨rfl, ?_⟩
    intro front rest empty
    simp at empty

theorem closing_cons (inside : c = ',' → depth ≠ 0)
    (step : ∀ text, openAfter depth (c :: text) = openAfter after text) :
    Closing depth (c :: text) ↔ Closing after text := by
  constructor
  · rintro ⟨closes, covered⟩
    refine ⟨(step text).symm.trans closes, ?_⟩
    intro front rest split
    rw [← step]
    exact covered (c :: front) rest (congrArg (c :: ·) split)
  · rintro ⟨closes, covered⟩
    refine ⟨(step text).trans closes, ?_⟩
    intro front rest split
    cases front with
    | nil =>
      intro bottom
      exact inside (List.cons.inj split).1 (Option.some.inj bottom)
    | cons d front =>
      obtain ⟨rfl, later⟩ := List.cons.inj split
      rw [step]
      exact covered front rest later

theorem not_closing_comma : ¬ Closing 0 (',' :: text) :=
  fun closing => closing.covered [] text rfl rfl

theorem not_closing_unopened : ¬ Closing 0 (')' :: text) := by
  intro closing
  cases closing.closes

theorem intercalate_eq_nil :
    [] = [','].intercalate (first :: others) ↔ first = [] ∧ others = [] := by
  cases others with
  | nil => simp [eq_comm]
  | cons next others => simp [List.intercalate_cons_cons]

-- A joined text goes on inside its first piece, or with the comma behind an empty one.
theorem intercalate_eq_cons : c :: text = [','].intercalate (first :: others) ↔
    (∃ onward, first = c :: onward ∧ text = [','].intercalate (onward :: others)) ∨
      (first = [] ∧ c = ',' ∧
        ∃ next rest, others = next :: rest ∧ text = [','].intercalate (next :: rest)) := by
  cases first with
  | nil =>
    cases others with
    | nil => simp
    | cons next rest => simp [List.intercalate_cons_cons]
  | cons d onward =>
    cases others <;> simp [List.intercalate_cons_cons, eq_comm]

structure Split (depth : Nat) (text first : List Char) (others : List (List Char)) : Prop where
  joined : text = [','].intercalate (first :: others)
  first : Closing depth first
  others : ∀ piece ∈ others, Piece piece

theorem split_nil : Split depth [] first others ↔ depth = 0 ∧ first = [] ∧ others = [] := by
  constructor
  · rintro ⟨joined, closing, -⟩
    obtain ⟨rfl, rfl⟩ := intercalate_eq_nil.mp joined
    exact ⟨closing_nil.mp closing, rfl, rfl⟩
  · rintro ⟨rfl, rfl, rfl⟩
    exact ⟨intercalate_eq_nil.mpr ⟨rfl, rfl⟩, closing_nil.mpr rfl, by simp⟩

theorem split_comma : Split 0 (',' :: text) first others ↔
    first = [] ∧ ∃ next rest, others = next :: rest ∧ Split 0 text next rest := by
  constructor
  · rintro ⟨joined, closing, pieces⟩
    rcases intercalate_eq_cons.mp joined with ⟨onward, rfl, -⟩ | ⟨rfl, -, next, rest, rfl, later⟩
    · exact absurd closing not_closing_comma
    · obtain ⟨here, beyond⟩ := List.forall_mem_cons.mp pieces
      exact ⟨rfl, next, rest, rfl, later, here, beyond⟩
  · rintro ⟨rfl, next, rest, rfl, joined, here, beyond⟩
    exact ⟨intercalate_eq_cons.mpr (.inr ⟨rfl, rfl, next, rest, rfl, joined⟩), closing_nil.mpr rfl,
      List.forall_mem_cons.mpr ⟨here, beyond⟩⟩

theorem split_inside (inside : c = ',' → depth ≠ 0)
    (step : ∀ text, openAfter depth (c :: text) = openAfter after text) :
    Split depth (c :: text) first others ↔
      ∃ onward, first = c :: onward ∧ Split after text onward others := by
  constructor
  · rintro ⟨joined, closing, pieces⟩
    rcases intercalate_eq_cons.mp joined with ⟨onward, rfl, later⟩ | ⟨rfl, comma, -⟩
    · exact ⟨onward, rfl, later, (closing_cons inside step).mp closing, pieces⟩
    · exact absurd (closing_nil.mp closing) (inside comma)
  · rintro ⟨onward, rfl, joined, closing, pieces⟩
    exact ⟨intercalate_eq_cons.mpr (.inl ⟨onward, rfl, joined⟩),
      (closing_cons inside step).mpr closing, pieces⟩

theorem map_prepend_eq_some {found : Option (List Char × List (List Char))} :
    found.map (prepend [c]) = some (first, others) ↔
      ∃ onward, first = c :: onward ∧ found = some (onward, others) := by
  cases found with
  | none => simp
  | some pieces =>
    obtain ⟨front, rest⟩ := pieces
    simp [prepend, eq_comm, and_comm]

theorem splitTop_eq_some_iff :
    splitTop depth text = some (first, others) ↔ Split depth text first others := by
  induction text generalizing depth first others with
  | nil =>
    rw [split_nil]
    cases depth with
    | zero => simp [splitTop, eq_comm]
    | succ depth => simp [splitTop]
  | cons c text ih =>
    have onward : ∀ {after}, (c = ',' → depth ≠ 0) →
        (∀ text, openAfter depth (c :: text) = openAfter after text) →
        splitTop depth (c :: text) = (splitTop after text).map (prepend [c]) →
        (splitTop depth (c :: text) = some (first, others) ↔
          Split depth (c :: text) first others) := by
      intro after inside step found
      rw [found, map_prepend_eq_some, split_inside inside step]
      simp only [ih]
    by_cases opens : c = '('
    · subst c
      have step : ∀ text, openAfter depth ('(' :: text) = openAfter (depth + 1) text := by
        intro text
        simp only [openAfter]
      exact onward (fun comma => absurd comma (by decide)) step (by simp only [splitTop]; rfl)
    · by_cases closes : c = ')'
      · subst c
        cases depth with
        | zero =>
          constructor
          · intro found
            cases found
          · rintro ⟨joined, closing, -⟩
            rcases intercalate_eq_cons.mp joined with ⟨front, rfl, -⟩ | ⟨-, comma, -⟩
            · exact absurd closing not_closing_unopened
            · exact absurd comma (by decide)
        | succ depth => exact onward (fun _ => Nat.succ_ne_zero depth) (fun _ => rfl) rfl
      · by_cases splits : c = ',' ∧ depth = 0
        · obtain ⟨rfl, rfl⟩ := splits
          rw [split_comma]
          change (splitTop 0 text).map _ = _ ↔ _
          cases found : splitTop 0 text with
          | none => simp [← ih, found]
          | some pieces =>
            obtain ⟨next, rest⟩ := pieces
            simp [← ih, found, eq_comm]
        · have inside : c = ',' → depth ≠ 0 := fun comma bottom => splits ⟨comma, bottom⟩
          exact onward inside (fun _ => openAfter_other opens closes)
            (splitTop_other opens closes fun comma => Nat.pos_of_ne_zero (inside comma))

section Values
variable {W : Type} {width : Width} [WeightText W] {t u : SparseTuple W width}
  {texts : List (List Char × List Char)} {pairs : List (Key width × W)}

structure Spells (pieces : List Char × List Char) (e : Key width × W) : Prop where
  key : Key.read? (readElement pieces.1) = some e.1
  value : WeightText.parse (String.ofList (readElement pieces.2)) = .ok e.2

-- Pieces that come two by two, one after the other.
def inTurn (texts : List (List Char × List Char)) : List (List Char) :=
  texts.flatMap fun pieces => [pieces.1, pieces.2]

theorem inTurn_even (texts : List (List Char × List Char)) : (inTurn texts).length % 2 = 0 := by
  induction texts with
  | nil => rfl
  | cons pieces texts ih =>
    change (inTurn texts).length.succ.succ % 2 = 0
    omega

theorem exists_inTurn : (pieces : List (List Char)) → pieces.length % 2 = 0 →
    ∃ texts, pieces = inTurn texts
  | [], _ => ⟨[], rfl⟩
  | [_], odd => absurd odd (by simp)
  | keyText :: valueText :: rest, even => by
    have onward : rest.length % 2 = 0 := by
      simp only [List.length_cons] at even
      omega
    obtain ⟨texts, rfl⟩ := exists_inTurn rest onward
    exact ⟨(keyText, valueText) :: texts, rfl⟩

theorem insertPairs_eq_ok_iff [BEq W] :
    insertPairs t ((inTurn texts).map readElement) = .ok u ↔
      ∃ pairs, List.Forall₂ Spells texts pairs ∧ t.insertAll pairs = u := by
  induction texts generalizing t with
  | nil =>
    constructor
    · intro read
      exact ⟨[], .nil, Except.ok.inj read⟩
    · rintro ⟨pairs, spelled, rfl⟩
      cases spelled
      rfl
  | cons pieces texts ih =>
    change insertPairs t (readElement pieces.1 :: readElement pieces.2 ::
      (inTurn texts).map readElement) = _ ↔ _
    rw [insertPairs]
    cases keyRead : Key.read? (readElement pieces.1) with
    | none =>
      constructor
      · intro read
        cases read
      · rintro ⟨pairs, spelled, -⟩
        cases spelled with
        | cons first later =>
          rw [first.key] at keyRead
          cases keyRead
    | some key =>
      cases parsed : (WeightText.parse (String.ofList (readElement pieces.2)) :
          Except ParseError W) with
      | error fault =>
        constructor
        · intro read
          cases read
        · rintro ⟨pairs, spelled, -⟩
          cases spelled with
          | cons first later =>
            rw [first.value] at parsed
            cases parsed
      | ok value =>
        change insertPairs (t.insert key value) _ = _ ↔ _
        rw [ih]
        constructor
        · rintro ⟨pairs, spelled, rfl⟩
          exact ⟨(key, value) :: pairs, .cons ⟨keyRead, parsed⟩ spelled, rfl⟩
        · rintro ⟨pairs, spelled, rfl⟩
          cases spelled with
          | @cons _ e _ rest first later =>
            obtain rfl : key = e.1 := Option.some.inj (keyRead.symm.trans first.key)
            obtain rfl : value = e.2 := Except.ok.inj (parsed.symm.trans first.value)
            exact ⟨rest, later, rfl⟩

structure Spelling (text : String) (background : W) (pairs : List (Key width × W))
    (piece : List Char) (texts : List (List Char × List Char)) : Prop where
  joined : text.toList = [','].intercalate (piece :: inTurn texts)
  pieces : ∀ part ∈ piece :: inTurn texts, Piece part
  background : WeightText.parse (String.ofList (readElement piece)) = .ok background
  pairs : List.Forall₂ Spells texts pairs

theorem splitElements_eq_some_iff {elements : List Char × List (List Char)} :
    splitElements text = some elements ↔ ∃ first others, Split 0 text first others ∧
      elements = (readElement first, others.map readElement) := by
  rw [splitElements, Option.map_eq_some_iff]
  constructor
  · rintro ⟨⟨first, others⟩, found, rfl⟩
    exact ⟨first, others, splitTop_eq_some_iff.mp found, rfl⟩
  · rintro ⟨first, others, split, rfl⟩
    exact ⟨_, splitTop_eq_some_iff.mpr split, rfl⟩

-- A text is read exactly if it spells a background and pairs, and then as what comes of
-- putting them in one after the other.
theorem parse_eq_ok_iff [BEq W] {text : String} : parse text = .ok t ↔
    ∃ background pairs, t = (uniform background).insertAll pairs ∧
      ∃ piece texts, Spelling text background pairs piece texts := by
  constructor
  · intro read
    unfold parse at read
    cases elements : splitElements text.toList with
    | none =>
      rw [elements] at read
      cases read
    | some found =>
      obtain ⟨piece, others, split, rfl⟩ := splitElements_eq_some_iff.mp elements
      simp only [elements, List.length_map] at read
      by_cases odd : others.length % 2 = 1
      · rw [if_pos odd] at read
        cases read
      · rw [if_neg odd] at read
        obtain ⟨texts, rfl⟩ := exists_inTurn others (by omega)
        cases parsed : (WeightText.parse (String.ofList (readElement piece)) :
            Except ParseError W) with
        | error fault =>
          rw [parsed] at read
          cases read
        | ok background =>
          rw [parsed] at read
          obtain ⟨pairs, spelled, rfl⟩ := insertPairs_eq_ok_iff.mp read
          exact ⟨background, pairs, rfl, piece, texts, split.joined,
            List.forall_mem_cons.mpr ⟨split.first, split.others⟩, parsed, spelled⟩
  · rintro ⟨background, pairs, rfl, piece, texts, spelling⟩
    obtain ⟨first, others⟩ := List.forall_mem_cons.mp spelling.pieces
    have elements : splitElements text.toList =
        some (readElement piece, (inTurn texts).map readElement) :=
      splitElements_eq_some_iff.mpr ⟨piece, _, ⟨spelling.joined, first, others⟩, rfl⟩
    have even : ¬ ((inTurn texts).map readElement).length % 2 = 1 := by
      rw [List.length_map, inTurn_even]
      decide
    unfold parse
    simp only [elements]
    rw [if_neg even, spelling.background]
    exact insertPairs_eq_ok_iff.mpr ⟨pairs, spelling.pairs, rfl⟩

end Values
end WeightedAutomata.SparseTuple
