import WeightedAutomata.Tuple.Basic

namespace WeightedAutomata
variable {W V X : Type} {width : Width}

theorem Key.value_injective {j k : Key width} (same : j.value = k.value) : j = k := by
  cases j
  cases k
  cases same
  rfl

namespace SparseTuple
variable {k : Key width} {e : Key width × X} {entries rest : List (Key width × X)}

def lookup (k : Key width) (entries : List (Key width × X)) : Option X :=
  (entries.find? fun e => e.1 = k).map Prod.snd

def Ascending (entries : List (Key width × X)) : Prop :=
  entries.Pairwise fun e f => e.1.value < f.1.value

@[simp] theorem lookup_nil : lookup k ([] : List (Key width × X)) = none := rfl

theorem lookup_cons_self {value : X} : lookup k ((k, value) :: rest) = some value := by
  simp [lookup]

theorem lookup_cons_ne (other : e.1 ≠ k) : lookup k (e :: rest) = lookup k rest := by
  simp [lookup, other]

theorem lookup_eq_none (absent : ∀ e ∈ entries, e.1 ≠ k) : lookup k entries = none := by
  induction entries with
  | nil => rfl
  | cons e rest ih =>
    rw [lookup_cons_ne (absent e (by simp))]
    exact ih fun f present => absent f (List.mem_cons_of_mem _ present)

theorem lookup_eq_none_of_below (below : ∀ e ∈ entries, k.value < e.1.value) :
    lookup k entries = none := by
  apply lookup_eq_none
  rintro e present rfl
  exact Int.lt_irrefl _ (below e present)

theorem mem_of_lookup {value : X} (found : lookup k entries = some value) :
    (k, value) ∈ entries := by
  obtain ⟨e, search, rfl⟩ := Option.map_eq_some_iff.mp found
  have same : e.1 = k := by simpa using List.find?_some search
  subst same
  exact List.mem_of_find?_eq_some search

theorem lookup_of_mem {value : X} (ascending : Ascending entries) (present : (k, value) ∈ entries) :
    lookup k entries = some value := by
  induction entries with
  | nil => cases present
  | cons e rest ih =>
    obtain ⟨below, restAscending⟩ := List.pairwise_cons.mp ascending
    rcases List.mem_cons.mp present with rfl | later
    · exact lookup_cons_self
    · have other : e.1 ≠ k := by
        rintro rfl
        exact absurd (below _ later) (Int.lt_irrefl _)
      rw [lookup_cons_ne other]
      exact ih restAscending later

theorem lookup_map (f : W → X) (entries : List (Key width × W)) :
    lookup k (entries.map fun e => (e.1, f e.2)) = (lookup k entries).map f := by
  induction entries with
  | nil => rfl
  | cons e rest ih =>
    obtain ⟨j, value⟩ := e
    by_cases same : j = k
    · subst j
      simp [lookup_cons_self]
    · rw [List.map_cons, lookup_cons_ne same, lookup_cons_ne same, ih]

theorem lookup_filter (keep : X → Bool) (ascending : Ascending entries) :
    lookup k (entries.filter fun e => keep e.2) = (lookup k entries).filter keep := by
  induction entries with
  | nil => rfl
  | cons e rest ih =>
    obtain ⟨below, restAscending⟩ := List.pairwise_cons.mp ascending
    obtain ⟨j, value⟩ := e
    by_cases same : j = k
    · subst j
      have absent : lookup k rest = none := lookup_eq_none_of_below below
      rw [lookup_cons_self, List.filter_cons]
      cases kept : keep value with
      | true => simp only [kept, if_true, lookup_cons_self, Option.filter]
      | false => simp [ih restAscending, absent, kept, Option.filter]
    · rw [lookup_cons_ne same, List.filter_cons]
      cases kept : keep value with
      | true =>
        simp only [if_true]
        exact (lookup_cons_ne same).trans (ih restAscending)
      | false => simp [ih restAscending]

theorem lookup_eq_some_iff {value : X} (ascending : Ascending entries) :
    lookup k entries = some value ↔ (k, value) ∈ entries :=
  ⟨mem_of_lookup, lookup_of_mem ascending⟩

theorem Ascending.nodup (ascending : Ascending entries) : entries.Nodup :=
  ascending.imp fun below same => by
    subst same
    exact Int.lt_irrefl _ below

-- Entries in order are told apart by what they hold at each key.
theorem eq_of_lookup {s t : SparseTuple X width} (background : s.background = t.background)
    (left : Ascending s.entries) (right : Ascending t.entries)
    (same : ∀ k, lookup k s.entries = lookup k t.entries) : s = t := by
  have members : ∀ e, e ∈ s.entries ↔ e ∈ t.entries := by
    rintro ⟨k, value⟩
    rw [← lookup_eq_some_iff left, ← lookup_eq_some_iff right, same]
  have perm : s.entries.Perm t.entries :=
    (List.perm_ext_iff_of_nodup left.nodup right.nodup).mpr members
  have entries : s.entries = t.entries :=
    perm.eq_of_pairwise (fun e f _ _ below above => absurd below (Int.lt_asymm above)) left right
  cases s
  cases t
  cases background
  cases entries
  rfl

theorem get_eq_lookup (t : SparseTuple W width) (k : Key width) :
    t.get k = (lookup k t.entries).getD t.background := by
  unfold get lookup
  cases t.entries.find? fun e => e.1 = k <;> rfl

section Equality
variable [BEq W] {background : W} {s t : SparseTuple W width}

theorem ofAscending_canonical {entries : List (Key width × W)} (ascending : Ascending entries) :
    (ofAscending background entries).Canonical := by
  refine ⟨ascending.filter _, ?_⟩
  intro e present
  have kept := (List.mem_filter.mp present).2
  exact Bool.not_eq_true' _ ▸ kept

theorem uniform_canonical (background : W) : (uniform background : SparseTuple W width).Canonical :=
  ⟨List.Pairwise.nil, by simp [uniform]⟩

-- What a tuple reads where it is given a value. One that equals the background is not
-- stored, whatever the equality of the weights may be.
def kept (background value : W) : W :=
  if value == background then background else value

theorem kept_self (background : W) : kept background background = background :=
  ite_self background

def stored (background value : W) : Option W :=
  if value == background then none else some value

theorem getD_stored (background value : W) :
    (stored background value).getD background = kept background value := by
  unfold stored kept
  split <;> rfl

theorem lookup_ofAscending {entries : List (Key width × W)} (ascending : Ascending entries) :
    lookup k (ofAscending background entries).entries =
      (lookup k entries).bind (stored background) := by
  refine Eq.trans (lookup_filter (fun value => !(value == background)) ascending) ?_
  cases lookup k entries with
  | none => rfl
  | some value => cases same : value == background <;> simp [Option.filter, stored, same]

theorem get_ofAscending_kept {entries : List (Key width × W)} (ascending : Ascending entries)
    (k : Key width) : (ofAscending background entries).get k =
      ((lookup k entries).map (kept background)).getD background := by
  rw [get_eq_lookup, lookup_ofAscending ascending]
  cases lookup k entries with
  | none => rfl
  | some value => exact getD_stored background value

variable [LawfulBEq W]

-- An entry that is dropped holds what its key reads without it.
theorem kept_eq (background value : W) : kept background value = value := by
  by_cases same : value = background <;> simp [kept, same]

theorem get_ofAscending {entries : List (Key width × W)} (ascending : Ascending entries)
    (k : Key width) : (ofAscending background entries).get k =
      (lookup k entries).getD background := by
  rw [get_ofAscending_kept ascending]
  cases lookup k entries with
  | none => rfl
  | some value => exact kept_eq background value

theorem mem_entries_iff (canonical : t.Canonical) {value : W} :
    (k, value) ∈ t.entries ↔ t.get k = value ∧ value ≠ t.background := by
  constructor
  · intro present
    refine ⟨?_, by simpa using canonical.sparse _ present⟩
    rw [get_eq_lookup, lookup_of_mem canonical.ascending present, Option.getD_some]
  · rintro ⟨reads, differs⟩
    rw [get_eq_lookup] at reads
    cases found : lookup k t.entries with
    | none =>
      rw [found] at reads
      exact absurd reads.symm differs
    | some other =>
      rw [found] at reads
      cases reads
      exact mem_of_lookup found

theorem Canonical.ext (sCanonical : s.Canonical) (tCanonical : t.Canonical)
    (background : s.background = t.background) (reads : ∀ k, s.get k = t.get k) : s = t := by
  apply eq_of_lookup background sCanonical.ascending tCanonical.ascending
  intro k
  apply Option.ext
  intro value
  rw [lookup_eq_some_iff sCanonical.ascending, lookup_eq_some_iff tCanonical.ascending,
    mem_entries_iff sCanonical, mem_entries_iff tCanonical, background, reads]

end Equality
end SparseTuple
end WeightedAutomata
