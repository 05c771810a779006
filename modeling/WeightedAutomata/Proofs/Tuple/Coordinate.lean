import WeightedAutomata.Proofs.Tuple.Lookup
import WeightedAutomata.Proofs.Weight.Laws
import WeightedAutomata.Tuple.Power

namespace WeightedAutomata

-- A place in a tuple: a key, or the background that all other keys share.
inductive Coordinate (width : Width) where
  | background
  | key (key : Key width)

namespace SparseTuple
variable {W V U : Type} {width : Width} {k : Key width} {A : W} {B : V}
  {as : List (Key width × W)} {bs : List (Key width × V)}

def part (c : Coordinate width) (t : SparseTuple W width) : W :=
  match c with
  | .background => t.background
  | .key k => t.get k

theorem part_uniform (c : Coordinate width) (a : W) :
    (uniform a : SparseTuple W width).part c = a := by
  cases c <;> rfl

-- The values that meet at a key, where either side stores one.
def meeting (A : W) (B : V) : Option W → Option V → Option (W × V)
  | none, none => none
  | a, b => some (a.getD A, b.getD B)

theorem mem_align {e : Key width × W × V} (present : e ∈ align A B as bs) :
    (e.2.1 = A ∨ (e.1, e.2.1) ∈ as) ∧ (e.2.2 = B ∨ (e.1, e.2.2) ∈ bs) ∧
      ((∃ a, (e.1, a) ∈ as) ∨ ∃ b, (e.1, b) ∈ bs) := by
  induction as, bs using align.induct with
  | case1 bs =>
    rw [align] at present
    obtain ⟨⟨j, b⟩, stored, rfl⟩ := List.mem_map.mp present
    exact ⟨.inl rfl, .inr stored, .inr ⟨b, stored⟩⟩
  | case2 as nonempty =>
    rw [align] at present
    · obtain ⟨⟨j, a⟩, stored, rfl⟩ := List.mem_map.mp present
      exact ⟨.inr stored, .inl rfl, .inl ⟨a, stored⟩⟩
    · exact nonempty
  | case3 a as j b bs ih =>
    rw [align, if_pos rfl] at present
    rcases List.mem_cons.mp present with rfl | later
    · exact ⟨.inr (by simp), .inr (by simp), .inl ⟨a, by simp⟩⟩
    · obtain ⟨left, right, either⟩ := ih later
      exact ⟨left.imp_right (List.mem_cons_of_mem _), right.imp_right (List.mem_cons_of_mem _),
        either.imp (fun ⟨x, h⟩ => ⟨x, List.mem_cons_of_mem _ h⟩)
          (fun ⟨x, h⟩ => ⟨x, List.mem_cons_of_mem _ h⟩)⟩
  | case4 j a as k b bs other below ih =>
    rw [align, if_neg other, if_pos below] at present
    rcases List.mem_cons.mp present with rfl | later
    · exact ⟨.inr (by simp), .inl rfl, .inl ⟨a, by simp⟩⟩
    · obtain ⟨left, right, either⟩ := ih later
      exact ⟨left.imp_right (List.mem_cons_of_mem _), right,
        either.imp_left fun ⟨x, h⟩ => ⟨x, List.mem_cons_of_mem _ h⟩⟩
  | case5 j a as k b bs other above ih =>
    rw [align, if_neg other, if_neg above] at present
    rcases List.mem_cons.mp present with rfl | later
    · exact ⟨.inl rfl, .inr (by simp), .inr ⟨b, by simp⟩⟩
    · obtain ⟨left, right, either⟩ := ih later
      exact ⟨left, right.imp_right (List.mem_cons_of_mem _),
        either.imp_right fun ⟨x, h⟩ => ⟨x, List.mem_cons_of_mem _ h⟩⟩

theorem below_align {n : Int} (left : ∀ e ∈ as, n < e.1.value) (right : ∀ e ∈ bs, n < e.1.value) :
    ∀ e ∈ align A B as bs, n < e.1.value := by
  intro e present
  rcases (mem_align present).2.2 with ⟨a, stored⟩ | ⟨b, stored⟩
  · exact left _ stored
  · exact right _ stored

theorem align_ascending (left : Ascending as) (right : Ascending bs) :
    Ascending (align A B as bs) := by
  induction as, bs using align.induct with
  | case1 bs =>
    rw [align]
    exact List.pairwise_map.mpr right
  | case2 as nonempty =>
    rw [align]
    · exact List.pairwise_map.mpr left
    · exact nonempty
  | case3 a as j b bs ih =>
    obtain ⟨leftBelow, leftRest⟩ := List.pairwise_cons.mp left
    obtain ⟨rightBelow, rightRest⟩ := List.pairwise_cons.mp right
    rw [align, if_pos rfl]
    exact List.pairwise_cons.mpr ⟨below_align leftBelow rightBelow, ih leftRest rightRest⟩
  | case4 j a as k b bs other below ih =>
    obtain ⟨leftBelow, leftRest⟩ := List.pairwise_cons.mp left
    obtain ⟨rightBelow, -⟩ := List.pairwise_cons.mp right
    rw [align, if_neg other, if_pos below]
    refine List.pairwise_cons.mpr ⟨below_align leftBelow ?_, ih leftRest right⟩
    intro e present
    rcases List.mem_cons.mp present with rfl | later
    · exact below
    · exact Int.lt_trans below (rightBelow e later)
  | case5 j a as k b bs other above ih =>
    obtain ⟨leftBelow, -⟩ := List.pairwise_cons.mp left
    obtain ⟨rightBelow, rightRest⟩ := List.pairwise_cons.mp right
    have below : k.value < j.value := by
      have different : j.value ≠ k.value := fun same => other (Key.value_injective same)
      omega
    rw [align, if_neg other, if_neg above]
    refine List.pairwise_cons.mpr ⟨below_align ?_ rightBelow, ih left rightRest⟩
    intro e present
    rcases List.mem_cons.mp present with rfl | later
    · exact below
    · exact Int.lt_trans below (leftBelow e later)

theorem lookup_align (left : Ascending as) (right : Ascending bs) (k : Key width) :
    lookup k (align A B as bs) = meeting A B (lookup k as) (lookup k bs) := by
  induction as, bs using align.induct with
  | case1 bs =>
    rw [align, lookup_map (fun b => (A, b)), lookup_nil]
    cases lookup k bs <;> rfl
  | case2 as nonempty =>
    rw [align, lookup_map (fun a => (a, B)), lookup_nil]
    · cases lookup k as <;> rfl
    · exact nonempty
  | case3 a as j b bs ih =>
    rw [align, if_pos rfl]
    by_cases here : j = k
    · subst j
      simp only [lookup_cons_self, meeting, Option.getD_some]
    · rw [lookup_cons_ne here, lookup_cons_ne here, lookup_cons_ne here]
      exact ih left.of_cons right.of_cons
  | case4 j a as l b bs other below ih =>
    rw [align, if_neg other, if_pos below]
    by_cases here : j = k
    · subst j
      have absent : lookup k ((l, b) :: bs) = none := by
        apply lookup_eq_none_of_below
        intro e present
        rcases List.mem_cons.mp present with rfl | later
        · exact below
        · exact Int.lt_trans below ((List.pairwise_cons.mp right).1 e later)
      simp only [lookup_cons_self, absent, meeting, Option.getD_some, Option.getD_none]
    · rw [lookup_cons_ne here, lookup_cons_ne here]
      exact ih left.of_cons right
  | case5 j a as l b bs other above ih =>
    rw [align, if_neg other, if_neg above]
    by_cases here : l = k
    · subst l
      have below : k.value < j.value := by
        have different : j.value ≠ k.value := fun same => other (Key.value_injective same)
        omega
      have absent : lookup k ((j, a) :: as) = none := by
        apply lookup_eq_none_of_below
        intro e present
        rcases List.mem_cons.mp present with rfl | later
        · exact below
        · exact Int.lt_trans below ((List.pairwise_cons.mp left).1 e later)
      simp only [lookup_cons_self, absent, meeting, Option.getD_some, Option.getD_none]
    · rw [lookup_cons_ne here, lookup_cons_ne (e := (l, b)) here]
      exact ih left right.of_cons

section Combine
variable {f : W → V → U} {s : SparseTuple W width} {t : SparseTuple V width}

theorem combined_ascending (f : Option (Key width) → W → V → U) (left : Ascending s.entries)
    (right : Ascending t.entries) :
    Ascending ((align s.background t.background s.entries t.entries).map fun (key, a, b) =>
      (key, f (some key) a b)) :=
  List.pairwise_map.mpr (align_ascending left right)

theorem combine_canonical [BEq W] [BEq V] [BEq U] (f : Option (Key width) → W → V → U)
    (left : s.Canonical) (right : t.Canonical) : (combine f s t).Canonical :=
  ofAscending_canonical (combined_ascending f left.ascending right.ascending)

-- A merge that does not ask for the key acts on every coordinate by itself.
theorem part_combine [BEq W] [BEq V] [BEq U] [LawfulBEq U] (left : s.Canonical)
    (right : t.Canonical) (c : Coordinate width) :
    (combine (fun _ => f) s t).part c = f (s.part c) (t.part c) := by
  cases c with
  | background => rfl
  | key k =>
    change (combine (fun _ => f) s t).get k = f (s.get k) (t.get k)
    rw [combine, get_ofAscending (combined_ascending (fun _ => f) left.ascending right.ascending),
      lookup_map (fun ab : W × V => f ab.1 ab.2), lookup_align left.ascending right.ascending,
      get_eq_lookup, get_eq_lookup]
    cases lookup k s.entries <;> cases lookup k t.entries <;> rfl

end Combine

instance [BEq W] [LawfulBEq W] : DecidableEq (SparseTuple W width) :=
  fun _ _ => decidable_of_iff _ beq_iff_eq

structure Throughout (P : W → Prop) (t : SparseTuple W width) : Prop where
  background : P t.background
  entries : ∀ e ∈ t.entries, P e.2

theorem uniform_throughout {P : W → Prop} {background : W} (holds : P background) :
    (uniform background : SparseTuple W width).Throughout P :=
  ⟨holds, by simp [uniform]⟩

theorem Throughout.part {P : W → Prop} {t : SparseTuple W width} (values : t.Throughout P) (c : Coordinate width) :
    P (t.part c) := by
  cases c with
  | background => exact values.background
  | key k =>
    change P (t.get k)
    rw [get_eq_lookup]
    cases found : lookup k t.entries with
    | none => exact values.background
    | some value => exact values.entries _ (mem_of_lookup found)

theorem combine_throughout [BEq W] {P : W → Prop} {f : W → W → W} {s t : SparseTuple W width}
    (closed : ∀ {a b}, P a → P b → P (f a b)) (left : s.Throughout P) (right : t.Throughout P) :
    (combine (fun _ => f) s t).Throughout P := by
  refine ⟨closed left.background right.background, ?_⟩
  intro e present
  obtain ⟨⟨key, a, b⟩, aligned, rfl⟩ := List.mem_map.mp (List.mem_filter.mp present).1
  obtain ⟨fromLeft, fromRight, -⟩ := mem_align aligned
  apply closed
  · rcases fromLeft with rfl | stored
    · exact left.background
    · exact left.entries _ stored
  · rcases fromRight with rfl | stored
    · exact right.background
    · exact right.entries _ stored

structure Over [BEq W] (P : W → Prop) (t : SparseTuple W width) : Prop where
  canonical : t.Canonical
  background : P t.background
  entries : ∀ e ∈ t.entries, P e.2

section Over
variable [BEq W] {P : W → Prop} {f : W → W → W} {s t : SparseTuple W width}

instance [DecidablePred P] : DecidablePred (Over P : SparseTuple W width → Prop) :=
  fun t => decidable_of_iff
    (t.entries.Pairwise (fun e f => e.1.value < f.1.value) ∧
      (∀ e ∈ t.entries, (e.2 == t.background) = false) ∧ P t.background ∧ ∀ e ∈ t.entries, P e.2)
    ⟨fun ⟨ascending, sparse, background, entries⟩ => ⟨⟨ascending, sparse⟩, background, entries⟩,
      fun ⟨⟨ascending, sparse⟩, background, entries⟩ => ⟨ascending, sparse, background, entries⟩⟩

theorem Over.throughout (member : t.Over P) : t.Throughout P :=
  ⟨member.background, member.entries⟩

theorem Over.part (member : t.Over P) (c : Coordinate width) : P (t.part c) :=
  member.throughout.part c

theorem uniform_over {background : W} (holds : P background) :
    (uniform background : SparseTuple W width).Over P :=
  ⟨uniform_canonical background, holds, (uniform_throughout holds).entries⟩

theorem combine_over (closed : ∀ {a b}, P a → P b → P (f a b)) (left : s.Over P)
    (right : t.Over P) : (combine (fun _ => f) s t).Over P := by
  have values := combine_throughout closed left.throughout right.throughout
  exact ⟨combine_canonical _ left.canonical right.canonical, values.background, values.entries⟩

theorem Canonical.eq_of_part [LawfulBEq W] (left : s.Canonical) (right : t.Canonical)
    (parts : ∀ c, s.part c = t.part c) : s = t :=
  left.ext right (parts .background) fun k => parts (.key k)

theorem Over.ext [LawfulBEq W] (sOver : s.Over P) (tOver : t.Over P)
    (parts : ∀ c, s.part c = t.part c) : s = t :=
  sOver.canonical.eq_of_part tOver.canonical parts

end Over

section Weights
open Weight
variable [Weight W] {s t : SparseTuple W width}

theorem part_zero (c : Coordinate width) : (zero : SparseTuple W width).part c = zero :=
  part_uniform c zero

theorem part_one (c : Coordinate width) : (one : SparseTuple W width).part c = one :=
  part_uniform c one

variable [LawfulBEq W]

theorem part_plus (left : s.Canonical) (right : t.Canonical) (c : Coordinate width) :
    (plus s t).part c = plus (s.part c) (t.part c) :=
  part_combine left right c

theorem part_times (left : s.Canonical) (right : t.Canonical) (c : Coordinate width) :
    (times s t).part c = times (s.part c) (t.part c) :=
  part_combine left right c

theorem part_divideOrZero (side : Side) (left : s.Canonical) (right : t.Canonical)
    (c : Coordinate width) :
    (divideOrZero side s t).part c = divideOrZero side (s.part c) (t.part c) :=
  part_combine left right c

end Weights
end SparseTuple
end WeightedAutomata
