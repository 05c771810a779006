import WeightedAutomata.Proofs.Tuple.Elements

namespace WeightedAutomata.SparseTuple
open Text
variable {text : List Char} {depth next after : Nat} {c : Char}

section Counting

-- A text that leads from one depth to another, told by counting: nothing that it begins
-- with closes more than is open.
structure Leads (depth after : Nat) (text : List Char) : Prop where
  above : ∀ front, front <+: text → front.count ')' ≤ depth + front.count '('
  ends : after + text.count ')' = depth + text.count '('

theorem leads_nil : Leads depth after [] ↔ depth = after := by
  constructor
  · intro leads
    exact leads.ends.symm
  · rintro rfl
    refine ⟨?_, rfl⟩
    intro front within
    rw [List.prefix_nil.mp within]
    exact Nat.zero_le _

theorem count_front (x c : Char) (text : List Char) :
    (c :: text).count x = [c].count x + text.count x := by
  rw [← List.singleton_append, List.count_append]

theorem leads_cons (step : next + [c].count ')' = depth + [c].count '(') :
    Leads depth after (c :: text) ↔ Leads next after text := by
  constructor
  · rintro ⟨above, ends⟩
    rw [count_front ')' c text, count_front '(' c text] at ends
    constructor
    · intro front within
      have longer := above (c :: front) (List.cons_prefix_cons.mpr ⟨rfl, within⟩)
      rw [count_front ')' c front, count_front '(' c front] at longer
      omega
    · omega
  · rintro ⟨above, ends⟩
    constructor
    · intro front within
      rcases List.prefix_cons_iff.mp within with rfl | ⟨shorter, rfl, inside⟩
      · exact Nat.zero_le _
      · have here := above shorter inside
        rw [count_front ')' c shorter, count_front '(' c shorter]
        omega
    · rw [count_front ')' c text, count_front '(' c text]
      omega

theorem not_leads_unopened : ¬ Leads 0 after (')' :: text) := by
  rintro ⟨above, -⟩
  exact absurd (above [')'] (List.cons_prefix_cons.mpr ⟨rfl, List.nil_prefix⟩)) (by decide)

theorem openAfter_eq_some_iff : openAfter depth text = some after ↔ Leads depth after text := by
  induction text generalizing depth with
  | nil =>
    rw [leads_nil]
    exact Option.some_inj
  | cons c text ih =>
    by_cases opens : c = '('
    · subst c
      simp only [openAfter]
      rw [ih, leads_cons rfl]
    · by_cases closes : c = ')'
      · subst c
        cases depth with
        | zero => exact iff_of_false (Option.some_ne_none _).symm not_leads_unopened
        | succ depth =>
          simp only [openAfter]
          rw [ih, leads_cons rfl]
      · have step : depth + [c].count ')' = depth + [c].count '(' := by
          simp [opens, closes]
        rw [openAfter_other opens closes, ih, leads_cons step]

structure Matched (text : List Char) : Prop where
  within : ∀ front, front <+: text → front.count ')' ≤ front.count '('
  total : text.count '(' = text.count ')'

theorem matched_iff : Matched text ↔ Balanced text := by
  rw [Balanced, openAfter_eq_some_iff]
  constructor
  · rintro ⟨within, total⟩
    constructor
    · intro front inside
      rw [Nat.zero_add]
      exact within front inside
    · omega
  · rintro ⟨above, ends⟩
    constructor
    · intro front inside
      have here := above front inside
      rwa [Nat.zero_add] at here
    · omega

end Counting

section Splitting

theorem splitTop_eq_none_iff : splitTop depth text = none ↔ openAfter depth text ≠ some 0 := by
  induction text generalizing depth with
  | nil => cases depth <;> simp [splitTop, openAfter]
  | cons c text ih =>
    by_cases opens : c = '('
    · subst c
      simp only [splitTop, openAfter, Option.map_eq_none_iff]
      exact ih
    · by_cases closes : c = ')'
      · subst c
        cases depth with
        | zero => simp [splitTop, openAfter]
        | succ depth =>
          simp only [splitTop, openAfter, Option.map_eq_none_iff]
          exact ih
      · rw [openAfter_other opens closes, ← ih]
        by_cases splits : c = ',' ∧ depth = 0
        · obtain ⟨rfl, rfl⟩ := splits
          exact Option.map_eq_none_iff
        · have inside : c = ',' → 0 < depth := fun comma =>
            Nat.pos_of_ne_zero fun bottom => splits ⟨comma, bottom⟩
          rw [splitTop_other opens closes inside]
          exact Option.map_eq_none_iff

theorem splitElements_eq_none_iff : splitElements text = none ↔
    (∃ front, front <+: text ∧ front.count '(' < front.count ')') ∨
      text.count '(' ≠ text.count ')' := by
  rw [splitElements, Option.map_eq_none_iff, splitTop_eq_none_iff]
  change ¬ Balanced text ↔ _
  rw [← matched_iff]
  constructor
  · intro unmatched
    by_cases total : text.count '(' = text.count ')'
    · left
      refine Classical.byContradiction fun none => unmatched ⟨?_, total⟩
      intro front inside
      exact Nat.le_of_not_lt fun more => none ⟨front, inside, more⟩
    · exact .inr total
  · rintro (⟨front, inside, more⟩ | different) matched
    · exact absurd (matched.within front inside) (Nat.not_le_of_lt more)
    · exact different matched.total

end Splitting

-- What joining and splitting leave as it is. A text with a comma is joined in parentheses,
-- under which it may look like anything; one without must not bring what splitting takes off.
structure Separable (text : List Char) : Prop where
  matched : Matched text
  first : ',' ∉ text → ∀ c ∈ text.head?, isBlank c = false
  last : ',' ∉ text → ∀ c ∈ text.getLast?, isBlank c = false
  bare : ',' ∉ text → ¬ (text.head? = some '(' ∧ text.getLast? = some ')')

theorem Separable.element (separable : Separable text) : Element text where
  balanced := matched_iff.mp separable.matched
  trimmed plain := trim_of_ends (separable.first plain) (separable.last plain)
  bare := separable.bare

theorem splitElements_exact :
    (∀ text, splitElements text = none ↔
      (∃ front, front <+: text ∧ front.count '(' < front.count ')') ∨
        text.count '(' ≠ text.count ')') ∧
    ∀ first others, (∀ text ∈ first :: others, Separable text) →
      splitElements (joinElements (first :: others)) = some (first, others) := by
  constructor
  · intro text
    exact splitElements_eq_none_iff
  · intro first others separable
    exact splitElements_join fun text present => (separable text present).element

def listed : List (List Char) :=
  ["(a),(b)".toList, [], "x(y)é".toList, "((a,b))".toList, " , ".toList, "((k))l".toList]

theorem listed_splitElements_exact :
    (∀ text ∈ listed, Separable text) ∧
      joinElements listed = "((a),(b)),,x(y)é,(((a,b))),( , ),((k))l".toList ∧
      splitElements "((a),(b)),,x(y)é,(((a,b))),( , ),((k))l".toList =
        some ("(a),(b)".toList, listed.tail) ∧
      splitElements "a)(".toList = none := by
  have separable : ∀ text ∈ listed, Separable text := by
    have matched : ∀ text ∈ listed, openAfter 0 text = some 0 := by decide
    have first : ∀ text ∈ listed, ',' ∉ text → text.head?.any isBlank = false := by decide
    have last : ∀ text ∈ listed, ',' ∉ text → text.getLast?.any isBlank = false := by decide
    have bare : ∀ text ∈ listed,
        ',' ∉ text → ¬ (text.head? = some '(' ∧ text.getLast? = some ')') := by decide
    intro text present
    refine ⟨matched_iff.mpr (matched text present), ?_, ?_, bare text present⟩
    · intro plain
      exact (Option.any_eq_false _ _).mp (first text present plain)
    · intro plain
      exact (Option.any_eq_false _ _).mp (last text present plain)
  have joined : joinElements listed = "((a),(b)),,x(y)é,(((a,b))),( , ),((k))l".toList := by
    decide
  obtain ⟨refused, split⟩ := splitElements_exact
  refine ⟨separable, joined, ?_, ?_⟩
  · rw [← joined]
    exact split _ _ separable
  · exact (refused _).mpr (.inl ⟨"a)".toList, ⟨"(".toList, rfl⟩, by decide⟩)

end WeightedAutomata.SparseTuple
