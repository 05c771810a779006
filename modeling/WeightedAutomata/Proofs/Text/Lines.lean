import WeightedAutomata.Text.Lines

namespace WeightedAutomata.Text

section Pieces
variable {α : Type} {cut : α → Bool} {xs ys : List α} {separator : α}

theorem pieces_of_kept (kept : ∀ x ∈ xs, cut x = false) : pieces cut xs = [xs] := by
  induction xs with
  | nil => rfl
  | cons x xs ih =>
    have rest := ih fun y later => kept y (by simp [later])
    rw [pieces_cons_keep x xs (kept x (by simp))]
    simp [rest]

theorem pieces_append_cut (kept : ∀ x ∈ xs, cut x = false) (cuts : cut separator = true) :
    pieces cut (xs ++ separator :: ys) = xs :: pieces cut ys := by
  induction xs with
  | nil => exact pieces_cons_cut separator ys cuts
  | cons x xs ih =>
    have rest := ih fun y later => kept y (by simp [later])
    rw [List.cons_append, pieces_cons_keep x _ (kept x (by simp))]
    simp [rest]

theorem pieces_closed {parts : List (List α)} (kept : ∀ part ∈ parts, ∀ x ∈ part, cut x = false)
    (cuts : cut separator = true) :
    pieces cut (parts.flatMap fun part => part ++ [separator]) = parts ++ [[]] := by
  induction parts with
  | nil => rfl
  | cons part parts ih =>
    rw [List.flatMap_cons, List.append_assoc, List.singleton_append,
      pieces_append_cut (kept part (by simp)) cuts,
      ih fun other later => kept other (by simp [later]), List.cons_append]

end Pieces

def Column (text : List Char) : Prop :=
  text ≠ [] ∧ ∀ c ∈ text, isBlank c = false

theorem columns_intercalate {texts : List (List Char)} (plain : ∀ text ∈ texts, Column text) :
    columns (['\t'].intercalate texts) = texts := by
  have whole : ∀ text, Column text → (!text.isEmpty) = true := by
    intro text column
    simpa using column.1
  unfold columns
  induction texts with
  | nil => rfl
  | cons text texts ih =>
    have first : Column text := plain text (by simp)
    cases texts with
    | nil =>
      rw [List.intercalate_singleton, pieces_of_kept first.2]
      simp [whole text first]
    | cons next texts =>
      have rest := ih fun other later => plain other (by simp [later])
      rw [List.intercalate_cons_cons, List.append_assoc, List.singleton_append,
        pieces_append_cut first.2 (by decide), List.filter_cons, if_pos (whole text first), rest]

theorem not_mem_intercalate {c : Char} {separator : List Char} {texts : List (List Char)}
    (other : c ∉ separator) (absent : ∀ text ∈ texts, c ∉ text) :
    c ∉ separator.intercalate texts := by
  induction texts with
  | nil => simp
  | cons text texts ih =>
    have first : c ∉ text := absent text (by simp)
    have rest := ih fun other later => absent other (by simp [later])
    cases texts with
    | nil => simpa using first
    | cons next texts => simp [List.intercalate_cons_cons, first, other, rest]

theorem toList_loop (bytes : ByteArray) (i : Nat) (found : List UInt8) :
    ByteArray.toList.loop bytes i found = found.reverse ++ bytes.data.toList.drop i := by
  induction i, found using ByteArray.toList.loop.induct bytes with
  | case1 i found inside ih =>
    have bound : i < bytes.data.toList.length := by simpa using inside
    rw [ByteArray.toList.loop, if_pos inside, ih, List.drop_eq_getElem_cons bound]
    simp [ByteArray.get!, inside]
  | case2 i found outside =>
    have beyond : bytes.data.toList.length ≤ i := by simpa using outside
    rw [ByteArray.toList.loop, if_neg outside, List.drop_of_length_le beyond, List.append_nil]

theorem toList_bytes (bytes : ByteArray) : bytes.toList = bytes.data.toList := by
  unfold ByteArray.toList
  rw [toList_loop]
  rfl

theorem toList_toUTF8 (text : String) :
    text.toUTF8.toList = text.toList.flatMap String.utf8EncodeChar := by
  rw [toList_bytes, String.toUTF8_eq_toByteArray, ← String.utf8Encode_toList]
  simp [List.utf8Encode]

theorem ofNat_ne_line_feed {n : Nat} (other : n % 256 ≠ 10) : UInt8.ofNat n ≠ 10 := by
  intro same
  have value := congrArg UInt8.toNat same
  rw [UInt8.toNat_ofNat'] at value
  exact other value

-- Only the line feed has its byte: all bytes of a longer encoding are 128 or more.
theorem no_line_feed {c : Char} (other : c ≠ '\n') :
    ∀ byte ∈ String.utf8EncodeChar c, (byte == 10) = false := by
  have value : c.val.toNat ≠ 10 := fun same => other (Char.toNat_inj.mp same)
  intro byte present
  rw [beq_eq_false_iff_ne]
  unfold String.utf8EncodeChar at present
  simp only at present
  split at present
  · rw [List.mem_singleton.mp present]
    exact ofNat_ne_line_feed (by omega)
  · split at present
    · simp only [List.mem_cons, List.not_mem_nil, or_false] at present
      rcases present with rfl | rfl <;> exact ofNat_ne_line_feed (by omega)
    · split at present
      · simp only [List.mem_cons, List.not_mem_nil, or_false] at present
        rcases present with rfl | rfl | rfl <;> exact ofNat_ne_line_feed (by omega)
      · simp only [List.mem_cons, List.not_mem_nil, or_false] at present
        rcases present with rfl | rfl | rfl | rfl <;> exact ofNat_ne_line_feed (by omega)

theorem decode_encoding (text : String) :
    String.fromUTF8? ⟨(text.toList.flatMap String.utf8EncodeChar).toArray⟩ = some text := by
  have bytes : (⟨(text.toList.flatMap String.utf8EncodeChar).toArray⟩ : ByteArray) =
      text.toByteArray := by
    rw [← String.utf8Encode_toList, List.utf8Encode]
    exact ByteArray.ext (by simp)
  rw [bytes, String.fromUTF8?, dif_pos text.isValidUTF8]
  rfl

def ofLines (texts : List String) : String :=
  String.join (texts.map fun text => text ++ "\n")

theorem lines_ofLines {texts : List String} (whole : ∀ text ∈ texts, '\n' ∉ text.toList) :
    lines (ofLines texts).toUTF8 = texts.map some := by
  have bytes : (ofLines texts).toUTF8.toList =
      (texts.map fun text => text.toList.flatMap String.utf8EncodeChar).flatMap
        fun part => part ++ [10] := by
    rw [toList_toUTF8, ofLines, String.toList_join, List.flatMap_map, List.flatMap_map,
      List.flatMap_assoc]
    refine congrArg (fun f => texts.flatMap f) (funext fun text => ?_)
    rw [String.toList_append, List.flatMap_append]
    rfl
  have kept : ∀ part ∈ texts.map fun text => text.toList.flatMap String.utf8EncodeChar,
      ∀ byte ∈ part, (byte == 10) = false := by
    intro part present byte inside
    obtain ⟨text, listed, rfl⟩ := List.mem_map.mp present
    obtain ⟨c, within, encoded⟩ := List.mem_flatMap.mp inside
    have other : c ≠ '\n' := by
      intro same
      exact whole text listed (same ▸ within)
    exact no_line_feed other byte encoded
  unfold lines lineBytes
  rw [bytes, pieces_closed kept (by decide)]
  simp [decode_encoding]

end WeightedAutomata.Text
