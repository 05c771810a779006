import WeightedAutomata.Proofs.Text.Integer
import WeightedAutomata.Proofs.Tuple.Trail
import WeightedAutomata.Proofs.Tuple.Update

namespace WeightedAutomata

theorem SparseTuple.plain_of_chars {text : List Char}
    (chars : ∀ c ∈ text, c = '-' ∨ c = '.' ∨ c.isDigit = true) : Plain text := by
  have other : ∀ c, c ≠ '-' → c ≠ '.' → c.isDigit = false → c ∉ text := by
    intro c sign point digit present
    rcases chars c present with same | same | isDigit
    · exact sign same
    · exact point same
    · exact Bool.false_ne_true (digit.symm.trans isDigit)
  refine ⟨other ',' (by decide) (by decide) (by decide),
    other '(' (by decide) (by decide) (by decide),
    other ')' (by decide) (by decide) (by decide), trim_unblank ?_⟩
  intro c present
  rcases chars c present with rfl | rfl | digit
  · decide
  · decide
  · exact Text.isBlank_of_isDigit digit

theorem Key.text_plain {width : Width} (key : Key width) : SparseTuple.Plain key.text :=
  SparseTuple.plain_of_chars fun c present =>
    (Text.integerText_chars key.value c present).imp_right .inr

theorem Key.read?_text {width : Width} (key : Key width) : Key.read? key.text = some key := by
  rw [Key.read?, Key.text, Text.integer?_integerText, Option.bind_some, Key.ofInt?,
    dif_pos ⟨key.lower, key.upper⟩]

-- Weights in `P` have texts that stand in a tuple and are read as what `f` makes of them.
structure Rereads {W : Type} [WeightText W] (P : W → Prop) (f : W → W) : Prop where
  element : ∀ {weight}, P weight → SparseTuple.Element (WeightText.print weight).toList
  parse_print : ∀ {weight}, P weight → WeightText.parse (WeightText.print weight) = .ok (f weight)

namespace SparseTuple
variable {W : Type} {P : W → Prop} {f : W → W} {width : Width} {t : SparseTuple W width}
  {entries : List (Key width × W)}

section Texts
variable [WeightText W]

-- The texts behind the background, each key's before its value's.
def entryTexts (entries : List (Key width × W)) : List (List Char) :=
  entries.flatMap fun e => [e.1.text, (WeightText.print e.2).toList]

theorem entryTexts_cons (e : Key width × W) (rest : List (Key width × W)) :
    entryTexts (e :: rest) = e.1.text :: (WeightText.print e.2).toList :: entryTexts rest :=
  rfl

theorem entryTexts_even (entries : List (Key width × W)) : (entryTexts entries).length % 2 = 0 := by
  induction entries with
  | nil => rfl
  | cons e rest ih =>
    rw [entryTexts_cons, List.length_cons, List.length_cons]
    omega

variable [BEq W]

theorem print_toList (t : SparseTuple W width) : (WeightText.print t).toList =
    joinElements ((WeightText.print t.background).toList :: entryTexts t.entries) :=
  String.toList_ofList

theorem texts_elements (reads : Rereads P f) (member : t.Over P) :
    ∀ text ∈ (WeightText.print t.background).toList :: entryTexts t.entries, Element text := by
  intro text present
  rcases List.mem_cons.mp present with rfl | later
  · exact reads.element member.background
  · obtain ⟨e, stored, listed⟩ := List.mem_flatMap.mp later
    rcases List.mem_cons.mp listed with rfl | value
    · exact e.1.text_plain.element
    · rw [List.mem_singleton.mp value]
      exact reads.element (member.entries e stored)

theorem insertPairs_entryTexts (reads : Rereads P f) (members : ∀ e ∈ entries, P e.2) :
    insertPairs t (entryTexts entries) =
      .ok (t.insertAll (entries.map fun e => (e.1, f e.2))) := by
  induction entries generalizing t with
  | nil => rfl
  | cons e rest ih =>
    have read := reads.parse_print (members e (by simp))
    rw [entryTexts_cons, insertPairs, Key.read?_text]
    simp only [String.ofList_toList, read]
    exact ih fun g stored => members g (List.mem_cons_of_mem e stored)

end Texts

theorem Spells.all [WeightText W] {texts : List (List Char × List Char)}
    {pairs : List (Key width × W)}
    (values : ∀ {text weight}, WeightText.parse text = .ok weight → P weight)
    (spelled : List.Forall₂ Spells texts pairs) : ∀ e ∈ pairs, P e.2 := by
  induction spelled with
  | nil => simp
  | cons first later ih => exact List.forall_mem_cons.mpr ⟨values first.value, ih⟩

section Parsed
variable [BEq W] {key : Key width} {value : W} {pairs : List (Key width × W)}

theorem insert_over (holds : P value) (member : t.Over P) : (t.insert key value).Over P := by
  refine ⟨insert_canonical member.canonical, ?_, ?_⟩
  · rw [insert_background]
    exact member.background
  · intro e stored
    unfold insert at stored
    split at stored
    · exact member.entries e (List.mem_filter.mp stored).1
    · rcases mem_putEntry stored with rfl | old
      · exact holds
      · exact member.entries e old

theorem insertAll_over (holds : ∀ e ∈ pairs, P e.2) (member : t.Over P) :
    (t.insertAll pairs).Over P := by
  induction pairs generalizing t with
  | nil => exact member
  | cons e rest ih =>
    exact ih (fun f later => holds f (List.mem_cons_of_mem e later))
      (insert_over (holds e (by simp)) member)

theorem parse_over [WeightText W]
    (values : ∀ {text weight}, WeightText.parse text = .ok weight → P weight) {text : String}
    (read : parse text = .ok t) : t.Over P := by
  obtain ⟨background, pairs, rfl, piece, texts, spelling⟩ := parse_eq_ok_iff.mp read
  exact insertAll_over (Spells.all values spelling.pairs)
    (uniform_over (values spelling.background))

end Parsed

section Values
variable {V : Type} [BEq W] [BEq V] {Q : V → Prop} {g : W → V}

theorem mapValues_over (values : ∀ {a}, P a → Q (g a)) (member : t.Over P) :
    (mapValues g t).Over Q := by
  refine ⟨mapValues_canonical g member.canonical, values member.background, ?_⟩
  intro e stored
  obtain ⟨e, old, rfl⟩ := List.mem_map.mp (List.mem_filter.mp stored).1
  exact values (member.entries e old)

theorem part_mapValues [LawfulBEq V] (canonical : t.Canonical) (c : Coordinate width) :
    (mapValues g t).part c = g (t.part c) := by
  cases c with
  | background => rfl
  | key k =>
    have ascending : Ascending (t.entries.map fun e => (e.1, g e.2)) :=
      List.pairwise_map.mpr canonical.ascending
    change (mapValues g t).get k = g (t.get k)
    rw [mapValues, get_ofAscending ascending, lookup_map, get_eq_lookup]
    cases lookup k t.entries <;> rfl

end Values
end SparseTuple

section Power
open SparseTuple
variable {W : Type} [BEq W] [WeightText W] {P : W → Prop} {f : W → W} {width : Width}

-- An entry that is changed into the background is not stored any more.
theorem Rereads.power (reads : Rereads P f) :
    Rereads (Over P : SparseTuple W width → Prop) (mapValues f) where
  element member := by
    rw [print_toList]
    exact Element.join (texts_elements reads member)
  parse_print := by
    intro t member
    have split := splitElements_join (texts_elements reads member)
    have entries := insertPairs_entryTexts (t := (uniform (f t.background) : SparseTuple W width))
      reads member.entries
    have ascending : Ascending (t.entries.map fun e => (e.1, f e.2)) :=
      List.pairwise_map.mpr member.canonical.ascending
    rw [insertAll_ascending ascending] at entries
    change parse (WeightText.print t) = _
    rw [parse, print_toList, split]
    simp only [entryTexts_even, String.ofList_toList, reads.parse_print member.background]
    exact entries

end Power

namespace Nested
variable {W : Type} [Weight W] {P Q : W → Prop} {f : W → W} {widths : List Width}
  {t : Nested W widths}

def mapScalars (f : W → W) : (widths : List Width) → Nested W widths → Nested W widths
  | [] => f
  | width :: widths => fun t =>
    (SparseTuple.mapValues (mapScalars f widths) t : SparseTuple (Nested W widths) width)

theorem mapScalars_over (values : ∀ {a}, P a → Q (f a)) (member : Over P widths t) :
    Over Q widths (mapScalars f widths t) := by
  induction widths with
  | nil => exact values member
  | cons width widths ih => exact SparseTuple.mapValues_over ih member

section Scalars
variable [LawfulBEq W]

theorem scalar_mapScalars (canonical : Canonical widths t) (trail : Trail widths) :
    scalar trail (mapScalars f widths t) = f (scalar trail t) := by
  induction widths with
  | nil => rfl
  | cons width widths ih =>
    change scalar trail.2 (SparseTuple.part trail.1 (SparseTuple.mapValues _ t)) = _
    rw [SparseTuple.part_mapValues (SparseTuple.Over.canonical canonical)]
    exact ih (SparseTuple.Over.part canonical trail.1) trail.2

theorem mapScalars_eq_iff (canonical : Canonical widths t) :
    mapScalars f widths t = t ↔ ∀ trail, f (scalar trail t) = scalar trail t := by
  constructor
  · intro same trail
    have read := scalar_mapScalars (f := f) canonical trail
    rw [same] at read
    exact read.symm
  · intro same
    apply ext (mapScalars_over (fun _ => trivial) canonical) canonical
    intro trail
    rw [scalar_mapScalars canonical, same]

end Scalars

section Texts
variable [WeightText W]

instance text : (widths : List Width) → WeightText (Nested W widths)
  | [] => inferInstanceAs (WeightText W)
  | width :: widths =>
    haveI := text widths
    inferInstanceAs (WeightText (SparseTuple (Nested W widths) width))

theorem rereads (base : Rereads P f) (widths : List Width) :
    Rereads (Over P widths) (mapScalars f widths) := by
  induction widths with
  | nil => exact base
  | cons width widths ih => exact ih.power

theorem parse_over (values : ∀ {text weight}, WeightText.parse text = .ok weight → P weight)
    {text : String} (read : WeightText.parse text = .ok t) : Over P widths t := by
  induction widths generalizing text with
  | nil => exact values read
  | cons width widths ih => exact SparseTuple.parse_over ih read

end Texts
end Nested
end WeightedAutomata
