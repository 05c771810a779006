import WeightedAutomata.Tuple.Text

namespace WeightedAutomata.SparseTuple
open Text
variable {text first : List Char} {others : List (List Char)} {depth after : Nat} {c : Char}

-- How many parentheses are open behind a text with `depth` open ones before it, unless
-- one closes that is not open.
def openAfter : Nat → List Char → Option Nat
  | depth, [] => some depth
  | depth, '(' :: text => openAfter (depth + 1) text
  | 0, ')' :: _ => none
  | depth + 1, ')' :: text => openAfter depth text
  | depth, _ :: text => openAfter depth text

def Balanced (text : List Char) : Prop :=
  openAfter 0 text = some 0

theorem openAfter_other (opens : c ≠ '(') (closes : c ≠ ')') :
    openAfter depth (c :: text) = openAfter depth text := by
  cases depth <;> simp [openAfter, closes]

theorem openAfter_append (depth : Nat) (text rest : List Char) :
    openAfter depth (text ++ rest) = (openAfter depth text).bind (openAfter · rest) := by
  induction text generalizing depth with
  | nil => rfl
  | cons c text ih =>
    rw [List.cons_append]
    by_cases opens : c = '('
    · subst c
      simp only [openAfter]
      exact ih (depth + 1)
    · by_cases closes : c = ')'
      · subst c
        cases depth with
        | zero => rfl
        | succ depth => exact ih depth
      · rw [openAfter_other opens closes, openAfter_other opens closes]
        exact ih depth

-- A text goes up and down the same way from every depth that it can begin at.
theorem openAfter_raise (floor : Nat) (run : openAfter depth text = some after) :
    openAfter (floor + depth) text = some (floor + after) := by
  induction text generalizing depth with
  | nil =>
    cases run
    rfl
  | cons c text ih =>
    by_cases opens : c = '('
    · subst c
      simp only [openAfter] at run ⊢
      exact ih run
    · by_cases closes : c = ')'
      · subst c
        cases depth with
        | zero => cases run
        | succ depth => exact ih run
      · rw [openAfter_other opens closes] at run ⊢
        exact ih run

def prepend (front : List Char) (pieces : List Char × List (List Char)) :
    List Char × List (List Char) :=
  (front ++ pieces.1, pieces.2)

theorem splitTop_other (opens : c ≠ '(') (closes : c ≠ ')') (hidden : c = ',' → 0 < depth) :
    splitTop depth (c :: text) = (splitTop depth text).map (prepend [c]) := by
  have outside : depth = 0 → c ≠ ',' := fun bottom comma => Nat.ne_of_gt (hidden comma) bottom
  rw [splitTop]
  · rfl
  · exact opens
  · exact fun _ => closes
  · exact fun _ _ => closes
  · exact outside

-- A text whose commas are all inside parentheses belongs to one piece.
theorem splitTop_append (floor : Nat) (run : openAfter depth text = some after)
    (hidden : ',' ∈ text → 0 < floor) (rest : List Char) : splitTop (floor + depth) (text ++ rest) =
      (splitTop (floor + after) rest).map (prepend text) := by
  induction text generalizing depth with
  | nil =>
    cases run
    rw [List.nil_append]
    cases splitTop (floor + after) rest <;> rfl
  | cons c text ih =>
    have onward : ∀ {depth}, openAfter depth text = some after →
        (splitTop (floor + depth) (text ++ rest)).map (prepend [c]) =
          (splitTop (floor + after) rest).map (prepend (c :: text)) := by
      intro depth run
      rw [ih run fun later => hidden (List.mem_cons_of_mem _ later), Option.map_map]
      rfl
    rw [List.cons_append]
    by_cases opens : c = '('
    · subst c
      simp only [openAfter] at run
      rw [← onward run]
      simp only [splitTop]
      rfl
    · by_cases closes : c = ')'
      · subst c
        cases depth with
        | zero => cases run
        | succ depth =>
          rw [← onward run]
          rfl
      · rw [openAfter_other opens closes] at run
        have inside : c = ',' → 0 < floor + depth := by
          rintro rfl
          exact Nat.lt_of_lt_of_le (hidden (by simp)) (Nat.le_add_right floor depth)
        rw [← onward run, splitTop_other opens closes inside]

-- What is read back as it was. Parentheses around a text with a comma are always put on
-- and taken off. Around a text without one they are only taken off, so that it must not
-- bring its own, nor blanks.
structure Element (text : List Char) : Prop where
  balanced : Balanced text
  trimmed : ',' ∉ text → trim text = text
  bare : ',' ∉ text → ¬ (text.head? = some '(' ∧ text.getLast? = some ')')

theorem writeElement_comma (comma : ',' ∈ text) : writeElement text = '(' :: (text ++ [')']) := by
  rw [writeElement, if_pos comma]
  rfl

theorem writeElement_plain (plain : ',' ∉ text) : writeElement text = text := by
  rw [writeElement, if_neg plain]

theorem splitTop_writeElement (element : Element text) (rest : List Char) :
    splitTop 0 (writeElement text ++ rest) =
      (splitTop 0 rest).map (prepend (writeElement text)) := by
  by_cases comma : ',' ∈ text
  · have inner := splitTop_append 1 element.balanced (fun _ => Nat.one_pos) (')' :: rest)
    rw [writeElement_comma comma, List.cons_append, List.append_assoc, List.singleton_append]
    change (splitTop 1 (text ++ ')' :: rest)).map (prepend ['(']) = _
    rw [inner]
    change (((splitTop 0 rest).map (prepend [')'])).map (prepend text)).map (prepend ['(']) = _
    rw [Option.map_map, Option.map_map]
    congr 1
    funext pieces
    simp [prepend]
  · have whole := splitTop_append 0 element.balanced (fun present => absurd present comma)
      rest
    rw [writeElement_plain comma]
    exact whole

theorem joinElements_cons (first next : List Char) (others : List (List Char)) :
    joinElements (first :: next :: others) =
      writeElement first ++ ',' :: joinElements (next :: others) := by
  simp [joinElements, List.intercalate_cons_cons]

theorem splitTop_join (elements : ∀ text ∈ first :: others, Element text) :
    splitTop 0 (joinElements (first :: others)) =
      some (writeElement first, others.map writeElement) := by
  induction others generalizing first with
  | nil =>
    have alone := splitTop_writeElement (elements first (by simp)) []
    simpa [joinElements, splitTop, prepend] using alone
  | cons next others ih =>
    have later := ih fun text present => elements text (List.mem_cons_of_mem _ present)
    have separated : splitTop 0 (',' :: joinElements (next :: others)) =
        some ([], writeElement next :: others.map writeElement) := by
      simp [splitTop, later]
    rw [joinElements_cons, splitTop_writeElement (elements first (by simp)), separated]
    simp [prepend]

theorem trim_parenthesized (text : List Char) :
    trim ('(' :: (text ++ [')'])) = '(' :: (text ++ [')']) := by
  have opens : isBlank '(' = false := by decide
  have closes : isBlank ')' = false := by decide
  simp [trim, opens, closes]

theorem readElement_writeElement (element : Element text) :
    readElement (writeElement text) = text := by
  by_cases comma : ',' ∈ text
  · rw [writeElement_comma comma, readElement, trim_parenthesized]
    simp
  · rw [writeElement_plain comma, readElement, element.trimmed comma]
    have bare := element.bare comma
    split
    · rename_i inner
      rw [if_neg]
      intro closes
      refine bare ⟨rfl, ?_⟩
      rw [List.getLast?_cons, closes]
      rfl
    · rfl

theorem splitElements_join (elements : ∀ text ∈ first :: others, Element text) :
    splitElements (joinElements (first :: others)) = some (first, others) := by
  have read : ∀ text ∈ others, (readElement ∘ writeElement) text = text :=
    fun text present => readElement_writeElement (elements text (List.mem_cons_of_mem _ present))
  rw [splitElements, splitTop_join elements, Option.map_some]
  simp only
  rw [readElement_writeElement (elements first (by simp)), List.map_map, List.map_congr_left read,
    List.map_id']

theorem balanced_writeElement (balanced : Balanced text) : Balanced (writeElement text) := by
  by_cases comma : ',' ∈ text
  · have inner : openAfter 1 text = some 1 := openAfter_raise 1 balanced
    rw [writeElement_comma comma]
    change openAfter 1 (text ++ [')']) = some 0
    rw [openAfter_append, inner]
    rfl
  · rwa [writeElement_plain comma]

theorem balanced_join (balanced : ∀ text ∈ first :: others, Balanced text) :
    Balanced (joinElements (first :: others)) := by
  induction others generalizing first with
  | nil =>
    have alone := balanced_writeElement (balanced first (by simp))
    simpa [joinElements] using alone
  | cons next others ih =>
    have later := ih fun text present => balanced text (List.mem_cons_of_mem _ present)
    have here : openAfter 0 (writeElement first) = some 0 :=
      balanced_writeElement (balanced first (by simp))
    rw [joinElements_cons, Balanced, openAfter_append, here, Option.bind_some,
      openAfter_other (by decide) (by decide)]
    exact later

theorem Element.join (elements : ∀ text ∈ first :: others, Element text) :
    Element (joinElements (first :: others)) := by
  have balanced := balanced_join fun text present => (elements text present).balanced
  have single : ',' ∉ joinElements (first :: others) →
      ',' ∉ first ∧ joinElements (first :: others) = first := by
    intro absent
    cases others with
    | nil =>
      have alone : joinElements [first] = writeElement first := by simp [joinElements]
      rw [alone] at absent ⊢
      by_cases comma : ',' ∈ first
      · rw [writeElement_comma comma] at absent
        exact absurd (by simp [comma]) absent
      · exact ⟨comma, writeElement_plain comma⟩
    | cons next others =>
      rw [joinElements_cons] at absent
      exact absurd (by simp) absent
  refine ⟨balanced, fun absent => ?_, fun absent => ?_⟩
  · obtain ⟨plain, same⟩ := single absent
    rw [same]
    exact (elements first (by simp)).trimmed plain
  · obtain ⟨plain, same⟩ := single absent
    rw [same]
    exact (elements first (by simp)).bare plain

structure Plain (text : List Char) : Prop where
  comma : ',' ∉ text
  opening : '(' ∉ text
  closing : ')' ∉ text
  trimmed : trim text = text

theorem openAfter_flat (opening : '(' ∉ text) (closing : ')' ∉ text) :
    openAfter depth text = some depth := by
  induction text with
  | nil => rfl
  | cons c text ih =>
    have opens : c ≠ '(' := (List.ne_of_not_mem_cons opening).symm
    have closes : c ≠ ')' := (List.ne_of_not_mem_cons closing).symm
    rw [openAfter_other opens closes]
    exact ih (List.not_mem_of_not_mem_cons opening) (List.not_mem_of_not_mem_cons closing)

theorem Plain.element (plain : Plain text) : Element text := by
  refine ⟨openAfter_flat plain.opening plain.closing, fun _ => plain.trimmed, ?_⟩
  rintro - ⟨opens, -⟩
  exact plain.opening (List.mem_of_head? opens)

theorem trim_of_ends (first : ∀ c ∈ text.head?, isBlank c = false)
    (last : ∀ c ∈ text.getLast?, isBlank c = false) : trim text = text := by
  have kept : ∀ {text : List Char}, (∀ c ∈ text.head?, isBlank c = false) →
      text.dropWhile isBlank = text := by
    intro text first
    cases text with
    | nil => rfl
    | cons c rest => rw [List.dropWhile_cons_of_neg (by simp [first c rfl])]
  rw [trim, kept first, kept (by rwa [List.head?_reverse]), List.reverse_reverse]

theorem trim_unblank (unblank : ∀ c ∈ text, isBlank c = false) : trim text = text :=
  trim_of_ends (fun c first => unblank c (List.mem_of_head? first))
    fun c last => unblank c (List.mem_of_getLast? last)

end WeightedAutomata.SparseTuple
