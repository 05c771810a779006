import WeightedAutomata.Proofs.Tuple.Lookup

namespace WeightedAutomata.SparseTuple
variable {W : Type} {width : Width} {key : Key width} {value : W} {e : Key width × W}
  {entries pairs : List (Key width × W)} {t : SparseTuple W width}

theorem mem_putEntry (present : e ∈ putEntry key value entries) :
    e = (key, value) ∨ e ∈ entries := by
  induction entries with
  | nil => exact .inl (List.mem_singleton.mp present)
  | cons f rest ih =>
    unfold putEntry at present
    split at present
    · exact List.mem_cons.mp present
    · split at present
      · exact (List.mem_cons.mp present).imp_right (List.mem_cons_of_mem f)
      · rcases List.mem_cons.mp present with rfl | later
        · exact .inr (by simp)
        · exact (ih later).imp_right (List.mem_cons_of_mem f)

theorem putEntry_ascending (ascending : Ascending entries) :
    Ascending (putEntry key value entries) := by
  induction entries with
  | nil => exact List.pairwise_singleton _ _
  | cons f rest ih =>
    obtain ⟨below, restAscending⟩ := List.pairwise_cons.mp ascending
    unfold putEntry
    by_cases before : key.value < f.1.value
    · rw [if_pos before]
      refine List.pairwise_cons.mpr ⟨?_, ascending⟩
      intro g present
      rcases List.mem_cons.mp present with rfl | later
      · exact before
      · exact Int.lt_trans before (below g later)
    · rw [if_neg before]
      by_cases same : f.1 = key
      · subst same
        rw [if_pos rfl]
        exact List.pairwise_cons.mpr ⟨below, restAscending⟩
      · rw [if_neg same]
        refine List.pairwise_cons.mpr ⟨?_, ih restAscending⟩
        intro g present
        rcases mem_putEntry present with rfl | later
        · have different : f.1.value ≠ key.value := fun equal => same (Key.value_injective equal)
          change f.1.value < key.value
          omega
        · exact below g later

section Insert
variable [BEq W]

theorem insert_canonical (canonical : t.Canonical) : (t.insert key value).Canonical := by
  unfold insert
  cases same : value == t.background with
  | true =>
    refine ⟨canonical.ascending.filter _, ?_⟩
    intro e present
    exact canonical.sparse e (List.mem_filter.mp present).1
  | false =>
    refine ⟨putEntry_ascending canonical.ascending, ?_⟩
    intro e present
    rcases mem_putEntry present with rfl | old
    · exact same
    · exact canonical.sparse e old

def insertAll (t : SparseTuple W width) (pairs : List (Key width × W)) : SparseTuple W width :=
  pairs.foldl (fun u e => u.insert e.1 e.2) t

theorem insertAll_canonical (canonical : t.Canonical) : (t.insertAll pairs).Canonical := by
  induction pairs generalizing t with
  | nil => exact canonical
  | cons e rest ih => exact ih (insert_canonical canonical)

end Insert

theorem mem_lastOfEach (present : e ∈ lastOfEach entries) : e ∈ entries := by
  induction entries using lastOfEach.induct with
  | case1 => exact present
  | case2 f => exact present
  | case3 f g rest same ih =>
    rw [lastOfEach, if_pos same] at present
    exact List.mem_cons_of_mem f (ih present)
  | case4 f g rest other ih =>
    rw [lastOfEach, if_neg other] at present
    rcases List.mem_cons.mp present with rfl | later
    · simp
    · exact List.mem_cons_of_mem f (ih later)

theorem lt_of_first_lt {f : Key width × W}
    (sorted : (e :: f :: entries).Pairwise fun e f => e.1.value ≤ f.1.value) (other : e.1 ≠ f.1) :
    ∀ g ∈ f :: entries, e.1.value < g.1.value := by
  obtain ⟨below, restSorted⟩ := List.pairwise_cons.mp sorted
  have first : e.1.value < f.1.value := by
    have different : e.1.value ≠ f.1.value := fun equal => other (Key.value_injective equal)
    have least := below f (by simp)
    omega
  intro g present
  rcases List.mem_cons.mp present with rfl | later
  · exact first
  · exact Int.lt_of_lt_of_le first ((List.pairwise_cons.mp restSorted).1 g later)

theorem lastOfEach_ascending (sorted : entries.Pairwise fun e f => e.1.value ≤ f.1.value) :
    Ascending (lastOfEach entries) := by
  induction entries using lastOfEach.induct with
  | case1 => exact List.Pairwise.nil
  | case2 f => exact List.pairwise_singleton _ _
  | case3 f g rest same ih =>
    rw [lastOfEach, if_pos same]
    exact ih sorted.of_cons
  | case4 f g rest other ih =>
    rw [lastOfEach, if_neg other]
    refine List.pairwise_cons.mpr ⟨?_, ih sorted.of_cons⟩
    intro e present
    exact lt_of_first_lt sorted other e (mem_lastOfEach present)

theorem mergeSort_sorted (pairs : List (Key width × W)) :
    (pairs.mergeSort fun e f => e.1.value ≤ f.1.value).Pairwise
      fun e f => e.1.value ≤ f.1.value := by
  have steps : (pairs.mergeSort fun e f => e.1.value ≤ f.1.value).Pairwise
      fun e f => decide (e.1.value ≤ f.1.value) = true :=
    List.pairwise_mergeSort (fun e f g => by simpa using Int.le_trans)
      (fun e f => by simpa using Int.le_total _ _) pairs
  simpa using steps

theorem ofPairs_canonical [Weight W] (pairs : List (Key width × W)) : (ofPairs pairs).Canonical :=
  ofAscending_canonical (lastOfEach_ascending (mergeSort_sorted pairs))

end WeightedAutomata.SparseTuple
