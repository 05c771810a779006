import WeightedAutomata.Proofs.Tuple.Built
import WeightedAutomata.Proofs.Tuple.Pieces

namespace WeightedAutomata.SparseTuple
open Weight
variable {W X : Type} {width : Width} {key k : Key width} {value : X}
  {entries front rest : List (Key width × X)}

section Entries

theorem lookup_append : lookup k (front ++ rest) = (lookup k front).or (lookup k rest) := by
  simp [lookup, List.find?_append, Option.map_or]

theorem lookup_putEntry_self : lookup key (putEntry key value entries) = some value := by
  induction entries with
  | nil => exact lookup_cons_self
  | cons e rest ih =>
    unfold putEntry
    split
    · exact lookup_cons_self
    · split
      · exact lookup_cons_self
      · rename_i other
        rw [lookup_cons_ne other, ih]

theorem lookup_putEntry_ne (other : key ≠ k) :
    lookup k (putEntry key value entries) = lookup k entries := by
  induction entries with
  | nil => exact lookup_cons_ne other
  | cons e rest ih =>
    unfold putEntry
    split
    · exact lookup_cons_ne other
    · split
      · rename_i same
        rw [lookup_cons_ne other, lookup_cons_ne (same.trans_ne other)]
      · by_cases here : e.1 = k
        · subst k
          rw [lookup_cons_self, lookup_cons_self]
        · rw [lookup_cons_ne here, lookup_cons_ne here, ih]

theorem lookup_erase_self : lookup key (entries.filter fun e => e.1 ≠ key) = none := by
  apply lookup_eq_none
  intro e present
  simpa using (List.mem_filter.mp present).2

theorem lookup_erase_ne (other : key ≠ k) :
    lookup k (entries.filter fun e => e.1 ≠ key) = lookup k entries := by
  induction entries with
  | nil => rfl
  | cons e rest ih =>
    by_cases here : e.1 = key
    · rw [List.filter_cons_of_neg (by simpa using here), lookup_cons_ne (here.trans_ne other), ih]
    · rw [List.filter_cons_of_pos (by simpa using here)]
      by_cases same : e.1 = k
      · subst k
        rw [lookup_cons_self, lookup_cons_self]
      · rw [lookup_cons_ne same, lookup_cons_ne same, ih]

def last (k : Key width) (pairs : List (Key width × X)) : Option X :=
  lookup k pairs.reverse

theorem last_append : last k (front ++ rest) = (last k rest).or (last k front) := by
  rw [last, List.reverse_append, lookup_append]
  rfl

theorem last_cons {e : Key width × X} :
    last k (e :: rest) = (last k rest).or (lookup k [e]) := by
  change last k ([e] ++ rest) = _
  exact last_append

theorem last_eq_none (absent : ∀ e ∈ entries, e.1 ≠ k) : last k entries = none :=
  lookup_eq_none fun e present => absent e (List.mem_reverse.mp present)

theorem last_of_ascending (ascending : Ascending entries) : last k entries = lookup k entries := by
  induction entries with
  | nil => rfl
  | cons e rest ih =>
    obtain ⟨below, restAscending⟩ := List.pairwise_cons.mp ascending
    rw [last_cons, ih restAscending]
    by_cases here : e.1 = k
    · subst k
      rw [lookup_eq_none_of_below below, Option.none_or]
      exact lookup_cons_self.trans lookup_cons_self.symm
    · rw [lookup_cons_ne here, lookup_cons_ne here, lookup_nil, Option.or_none]

-- Which value is the last of a key is decided among the pairs with that key alone.
theorem last_eq_getLast : last k entries =
    ((entries.filter fun e => e.1 = k).getLast?).map Prod.snd := by
  rw [last, lookup, ← List.head?_filter, List.filter_reverse, List.head?_reverse]

theorem lookup_lastOfEach (sorted : entries.Pairwise fun e f => e.1.value ≤ f.1.value) :
    lookup k (lastOfEach entries) = last k entries := by
  induction entries using lastOfEach.induct with
  | case1 => rfl
  | case2 e => rfl
  | case3 e f rest same ih =>
    rw [lastOfEach, if_pos same, ih sorted.of_cons, last_cons (e := e)]
    by_cases here : e.1 = k
    · have given : (last k (f :: rest)).isSome := by
        subst k
        rw [last_cons, same, Option.isSome_or, show lookup f.1 [f] = some f.2 from lookup_cons_self]
        simp
      rw [Option.or_of_isSome given]
    · rw [lookup_cons_ne here, lookup_nil, Option.or_none]
  | case4 e f rest other ih =>
    rw [lastOfEach, if_neg other, last_cons]
    by_cases here : e.1 = k
    · subst k
      have absent : last e.1 (f :: rest) = none := by
        apply last_eq_none
        intro g present same
        have above := lt_of_first_lt sorted other g present
        rw [same] at above
        exact Int.lt_irrefl _ above
      rw [absent, Option.none_or]
      exact lookup_cons_self.trans lookup_cons_self.symm
    · rw [lookup_cons_ne here, lookup_cons_ne here, lookup_nil, Option.or_none,
        ih sorted.of_cons]

-- Sorting keeps pairs with the same key in the order in which they are given.
theorem filter_mergeSort (pairs : List (Key width × X)) :
    (pairs.mergeSort fun e f => e.1.value ≤ f.1.value).filter (fun e => e.1 = k) =
      pairs.filter fun e => e.1 = k := by
  let le : Key width × X → Key width × X → Bool := fun e f => e.1.value ≤ f.1.value
  have level : (pairs.filter fun e => e.1 = k).Pairwise fun e f => le e f = true := by
    apply List.pairwise_of_forall_mem_list
    intro e first f second
    have eKey : e.1 = k := by simpa using (List.mem_filter.mp first).2
    have fKey : f.1 = k := by simpa using (List.mem_filter.mp second).2
    simp [le, eKey, fKey]
  have part : (pairs.filter fun e => e.1 = k).Sublist (pairs.mergeSort le) :=
    List.sublist_mergeSort (fun e f g => by simpa [le] using Int.le_trans)
      (fun e f => by simpa [le] using Int.le_total _ _) level List.filter_sublist
  have again := part.filter fun e => e.1 = k
  simp only [List.filter_filter, Bool.and_self] at again
  have count := ((List.mergeSort_perm pairs le).filter fun e => decide (e.1 = k)).length_eq
  exact (again.eq_of_length count.symm).symm

theorem filter_eq_of_perm {pairs others : List (Key width × X)} (perm : pairs.Perm others)
    (distinct : (pairs.map Prod.fst).Nodup) :
    others.filter (fun e => e.1 = k) = pairs.filter fun e => e.1 = k := by
  have same := perm.filter fun e => decide (e.1 = k)
  have single : ((pairs.filter fun e => e.1 = k).map Prod.fst).Nodup :=
    distinct.sublist (List.filter_sublist.map _)
  have keyed : ∀ e ∈ pairs.filter (fun e => e.1 = k), e.1 = k := fun e present => by
    simpa using (List.mem_filter.mp present).2
  generalize pairs.filter (fun e => e.1 = k) = found at same single keyed
  match found with
  | [] => exact same.nil_eq.symm
  | [e] => exact List.perm_singleton.mp same.symm
  | e :: f :: rest =>
    have different := (List.pairwise_cons.mp single).1 f.1 (by simp)
    exact absurd ((keyed e (by simp)).trans (keyed f (by simp)).symm) different

end Entries

section Insert
variable [BEq W] {t : SparseTuple W width} {value : W} {pairs : List (Key width × W)}

theorem insert_background : (t.insert key value).background = t.background := by
  unfold insert
  split <;> rfl

theorem lookup_insert_self :
    lookup key (t.insert key value).entries = stored t.background value := by
  unfold insert stored
  split
  · exact lookup_erase_self
  · exact lookup_putEntry_self

theorem lookup_insert_ne (other : key ≠ k) :
    lookup k (t.insert key value).entries = lookup k t.entries := by
  unfold insert
  split
  · exact lookup_erase_ne other
  · exact lookup_putEntry_ne other

theorem get_insert_self : (t.insert key value).get key = kept t.background value := by
  rw [get_eq_lookup, lookup_insert_self, insert_background, getD_stored]

theorem get_insert_ne (other : key ≠ k) : (t.insert key value).get k = t.get k := by
  rw [get_eq_lookup, get_eq_lookup, lookup_insert_ne other, insert_background]

theorem insert_comm (canonical : t.Canonical) (other : key ≠ k) {value₂ : W} :
    (t.insert key value).insert k value₂ = (t.insert k value₂).insert key value := by
  apply eq_of_lookup
  · rw [insert_background, insert_background, insert_background, insert_background]
  · exact (insert_canonical (insert_canonical canonical)).ascending
  · exact (insert_canonical (insert_canonical canonical)).ascending
  · intro j
    by_cases first : key = j
    · subst j
      rw [lookup_insert_ne other.symm, lookup_insert_self, lookup_insert_self, insert_background]
    · by_cases second : k = j
      · subst j
        rw [lookup_insert_self, lookup_insert_ne first, lookup_insert_self, insert_background]
      · rw [lookup_insert_ne second, lookup_insert_ne first, lookup_insert_ne first,
          lookup_insert_ne second]

theorem insertAll_background : (t.insertAll pairs).background = t.background := by
  induction pairs generalizing t with
  | nil => rfl
  | cons e rest ih => exact ih.trans insert_background

-- Of several values for one key the last one counts, also if it takes away what an
-- earlier one has put in.
theorem lookup_insertAll : lookup k (t.insertAll pairs).entries =
    ((last k pairs).map (stored t.background)).getD (lookup k t.entries) := by
  induction pairs generalizing t with
  | nil => rfl
  | cons e rest ih =>
    change lookup k ((t.insert e.1 e.2).insertAll rest).entries = _
    rw [ih, last_cons, insert_background]
    cases later : last k rest with
    | some value => rfl
    | none =>
      by_cases here : e.1 = k
      · subst k
        exact lookup_insert_self.trans (by simp [lookup])
      · rw [lookup_cons_ne here]
        exact lookup_insert_ne here

theorem lookup_uniform_insertAll (background : W) :
    lookup k ((uniform background).insertAll pairs).entries =
      (last k pairs).bind (stored background) := by
  rw [lookup_insertAll]
  cases last k pairs <;> rfl

theorem insertAll_ascending {background : W} (ascending : Ascending pairs) :
    (uniform background).insertAll pairs = ofAscending background pairs := by
  have left : ((uniform background).insertAll pairs).Canonical :=
    insertAll_canonical (uniform_canonical background)
  apply eq_of_lookup
  · exact insertAll_background (t := uniform background)
  · exact left.ascending
  · exact (ofAscending_canonical ascending).ascending
  · intro k
    rw [lookup_uniform_insertAll, lookup_ofAscending ascending, last_of_ascending ascending]

end Insert

section Pairs
variable [Weight W] {pairs others : List (Key width × W)}

theorem lookup_ofPairs :
    lookup k (ofPairs pairs).entries = (last k pairs).bind (stored zero) := by
  have sorted := mergeSort_sorted pairs
  rw [ofPairs, lookup_ofAscending (lastOfEach_ascending sorted), lookup_lastOfEach sorted,
    last_eq_getLast, filter_mergeSort, ← last_eq_getLast]

theorem ofPairs_eq_insertAll (pairs : List (Key width × W)) :
    ofPairs pairs = (uniform zero).insertAll pairs := by
  have right : ((uniform zero).insertAll pairs).Canonical :=
    insertAll_canonical (uniform_canonical zero)
  apply eq_of_lookup
  · exact (insertAll_background (t := uniform zero)).symm
  · exact (ofPairs_canonical pairs).ascending
  · exact right.ascending
  · intro k
    rw [lookup_ofPairs, lookup_uniform_insertAll]

theorem get_ofPairs :
    (ofPairs pairs).get k = ((last k pairs).map (kept zero)).getD zero := by
  rw [get_eq_lookup, lookup_ofPairs]
  cases last k pairs with
  | none => rfl
  | some value => exact getD_stored zero value

-- Only the order among pairs with the same key matters.
theorem ofPairs_eq_of_filter
    (same : ∀ k, others.filter (fun e => e.1 = k) = pairs.filter fun e => e.1 = k) :
    ofPairs others = ofPairs pairs := by
  apply eq_of_lookup
  · rfl
  · exact (ofPairs_canonical others).ascending
  · exact (ofPairs_canonical pairs).ascending
  · intro k
    rw [lookup_ofPairs, lookup_ofPairs, last_eq_getLast, last_eq_getLast, same]

structure Updated (t : SparseTuple W width) (key : Key width) (value : W) : Prop where
  background : (t.insert key value).background = t.background
  here : (t.insert key value).get key = kept t.background value
  elsewhere : ∀ k, key ≠ k → (t.insert key value).get k = t.get k
  commutes : ∀ k other, key ≠ k →
    (t.insert key value).insert k other = (t.insert k other).insert key value

structure Gathered (pairs : List (Key width × W)) : Prop where
  inserted : ofPairs pairs = (default : SparseTuple W width).insertAll pairs
  last : ∀ front k value rest, pairs = front ++ (k, value) :: rest → (∀ e ∈ rest, e.1 ≠ k) →
    (ofPairs pairs).get k = kept zero value
  never : ∀ k, (∀ e ∈ pairs, e.1 ≠ k) → (ofPairs pairs).get k = zero
  reordered : (pairs.map Prod.fst).Nodup → ∀ others, pairs.Perm others →
    ofPairs others = ofPairs pairs
  interleaved : ∀ others, (∀ k, others.filter (fun e => e.1 = k) =
    pairs.filter fun e => e.1 = k) → ofPairs others = ofPairs pairs

theorem updated {t : SparseTuple W width} (canonical : t.Canonical) (key : Key width) (value : W) :
    Updated t key value where
  background := insert_background
  here := get_insert_self
  elsewhere _ other := get_insert_ne other
  commutes _ _ other := insert_comm canonical other

theorem gathered (pairs : List (Key width × W)) : Gathered pairs where
  inserted := ofPairs_eq_insertAll pairs
  last := by
    rintro front k value rest rfl absent
    rw [get_ofPairs, last_append, last_cons, last_eq_none absent, lookup_cons_self]
    rfl
  never := by
    intro k absent
    rw [get_ofPairs, last_eq_none absent]
    rfl
  reordered distinct _ perm := ofPairs_eq_of_filter fun _ => filter_eq_of_perm perm distinct
  interleaved _ same := ofPairs_eq_of_filter same

-- A tuple is a finite map with a default, and both pairs and texts build what putting in
-- their values one after the other builds. Over weights whose equality is equality a key
-- reads the very value that is given.
theorem insert_agrees [WeightText W] {t : SparseTuple W width} (canonical : t.Canonical) :
    (∀ key value, Updated t key value) ∧
      (∀ pairs : List (Key width × W), Gathered pairs) ∧
      (∀ text, ∀ u : SparseTuple W width, WeightText.parse text = .ok u ↔
        ∃ background pairs, u = (uniform background).insertAll pairs ∧
          ∃ piece texts, Spelling text background pairs piece texts) ∧
      (LawfulBEq W → ∀ background value : W, kept background value = value) :=
  ⟨updated canonical, gathered, fun _ _ => parse_eq_ok_iff, fun _ => kept_eq⟩

def lowered : SparseTuple Flag .bits32 :=
  ⟨⟨false⟩, [(⟨41, by decide, by decide⟩, ⟨true⟩)]⟩

theorem lowered_insert_agrees :
    lowered.Canonical ∧ Updated lowered ⟨42, by decide, by decide⟩ ⟨true⟩ ∧
      ofPairs [(⟨42, by decide, by decide⟩, ⟨true⟩), (⟨41, by decide, by decide⟩, ⟨true⟩),
        (⟨42, by decide, by decide⟩, ⟨false⟩)] = lowered ∧
      ∃ background pairs, lowered = (uniform background).insertAll pairs ∧
        ∃ piece texts, Spelling "F,42,T, (41),T,42,F" background pairs piece texts := by
  have canonical : lowered.Canonical := ⟨List.pairwise_singleton _ _, by decide⟩
  obtain ⟨updates, gathers, reads, -⟩ := insert_agrees canonical
  refine ⟨canonical, updates _ _, ?_, (reads _ _).mp rfl⟩
  rw [(gathers _).inserted]
  rfl

end Pairs

end WeightedAutomata.SparseTuple
