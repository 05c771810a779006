import WeightedAutomata.Proofs.Tuple.Scale

namespace WeightedAutomata.SparseTuple
open Weight
variable {W : Type} [Weight W] {width : Width} {P : W → Prop} {s : W}
  {a b c w : SparseTuple W width} {k : Key width} {keys : List (Key width)}

section Values

theorem get_outside (based : c.background = zero) (covers : c.keys ⊆ keys) :
    ∀ k, k ∉ keys → c.get k = zero := by
  intro k absent
  rw [get_of_not_mem_keys fun stored => absent (covers stored), based]

theorem keys_append_perm (canonical : w.Canonical) (distinct : keys.Nodup)
    (within : ∀ k ∈ w.keys, k ∈ keys) : (w.keys ++ keys.filter (· ∉ w.keys)).Perm keys := by
  have stored : (keys.filter (· ∈ w.keys)).Perm w.keys := by
    apply (List.perm_ext_iff_of_nodup (distinct.filter _) canonical.keys_nodup).mpr
    intro k
    simpa using within k
  refine (stored.symm.append_right _).trans ?_
  simpa using List.filter_append_perm (fun k => decide (k ∈ w.keys)) keys

variable [LawfulBEq W]

theorem mem_keys_iff_get (canonical : w.Canonical) : k ∈ w.keys ↔ w.get k ≠ w.background := by
  rw [mem_keys_iff]
  constructor
  · rintro ⟨value, present⟩
    obtain ⟨reads, differs⟩ := (mem_entries_iff canonical).mp present
    rwa [reads]
  · intro differs
    exact ⟨w.get k, (mem_entries_iff canonical).mpr ⟨rfl, differs⟩⟩

theorem values_eq (canonical : w.Canonical) : w.entries.map Prod.snd = w.keys.map w.get := by
  rw [keys, List.map_map]
  exact List.map_congr_left fun e present => ((mem_entries_iff canonical).mp present).1.symm

theorem sum_values [Lawful P] (member : w.Over P) (based : w.background = zero)
    (distinct : keys.Nodup) (outside : ∀ k, k ∉ keys → w.get k = zero) :
    sum (w.entries.map Prod.snd) = sum (keys.map w.get) := by
  have canonical := member.canonical
  have reads : ∀ some : List (Key width), ∀ x ∈ some.map w.get, P x := fun some =>
    List.forall_mem_map.mpr fun k _ => member.part (.key k)
  have within : ∀ k ∈ w.keys, k ∈ keys := by
    intro k stored
    by_contra absent
    exact (mem_keys_iff_get canonical).mp stored ((outside k absent).trans based.symm)
  have rest : sum ((keys.filter (· ∉ w.keys)).map w.get) = zero := by
    apply sum_eq_zero P
    refine List.forall_mem_map.mpr ?_
    intro k present
    have absent : k ∉ w.keys := by simpa using (List.mem_filter.mp present).2
    rw [get_of_not_mem_keys absent, based]
  have perm := keys_append_perm canonical distinct within
  calc sum (w.entries.map Prod.snd) = sum (w.keys.map w.get) := by rw [values_eq canonical]
    _ = plus (sum (w.keys.map w.get)) (sum ((keys.filter (· ∉ w.keys)).map w.get)) := by
      rw [rest, plus_zero (Weight.sum_mem (reads _))]
    _ = sum ((w.keys ++ keys.filter (· ∉ w.keys)).map w.get) := by
      rw [List.map_append, sum_append (reads _) (reads _)]
    _ = sum (keys.map w.get) := sum_perm (perm.map w.get) (reads _)

end Values

section Products
variable [Lawful P]

theorem products_mem (left : a.Over P) (right : b.Over P) :
    ∀ k ∈ keys, P (times (a.get k) (b.get k)) :=
  fun k _ => Lawful.times_mem (left.part (.key k)) (right.part (.key k))

variable [LawfulBEq W]

theorem dotProduct_eq_sum (left : a.Over P) (right : b.Over P)
    (based : times a.background b.background = zero) (distinct : keys.Nodup)
    (outside : ∀ k, k ∉ keys → times (a.get k) (b.get k) = zero) :
    dotProduct a b = sum (keys.map fun k => times (a.get k) (b.get k)) := by
  have product := left.times right
  have reads : ∀ k, (times a b).get k = times (a.get k) (b.get k) :=
    fun k => left.part_times right (.key k)
  have values : ∀ x ∈ (times a b).entries.map Prod.snd, P x :=
    List.forall_mem_map.mpr product.entries
  calc dotProduct a b = ((times a b).entries.map Prod.snd).foldl plus zero := List.foldl_map.symm
    _ = sum ((times a b).entries.map Prod.snd) := by
      rw [foldl_plus (P := P) Lawful.zero_mem values, Lawful.zero_plus (Weight.sum_mem values)]
    _ = sum (keys.map (times a b).get) :=
      sum_values product based distinct fun k absent => (reads k).trans (outside k absent)
    _ = sum (keys.map fun k => times (a.get k) (b.get k)) :=
      sum_map_congr fun k _ => reads k

theorem dotProduct_right (left : a.Over P) (right : c.Over P) (based : c.background = zero)
    (distinct : keys.Nodup) (outside : ∀ k, k ∉ keys → c.get k = zero) :
    dotProduct a c = sum (keys.map fun k => times (a.get k) (c.get k)) := by
  apply dotProduct_eq_sum left right _ distinct
  · intro k absent
    rw [outside k absent]
    exact Lawful.times_zero (left.part (.key k))
  · rw [based]
    exact Lawful.times_zero left.background

theorem dotProduct_left (left : c.Over P) (right : a.Over P) (based : c.background = zero)
    (distinct : keys.Nodup) (outside : ∀ k, k ∉ keys → c.get k = zero) :
    dotProduct c a = sum (keys.map fun k => times (c.get k) (a.get k)) := by
  apply dotProduct_eq_sum left right _ distinct
  · intro k absent
    rw [outside k absent]
    exact Lawful.zero_times (right.part (.key k))
  · rw [based]
    exact Lawful.zero_times right.background

end Products

-- The dot product with one tuple: the sum of the products at any keys that include those
-- it stores, and linear in the other tuple.
structure Linear (P : W → Prop) (c : SparseTuple W width) : Prop where
  sum_right : ∀ {a : SparseTuple W width} {keys : List (Key width)}, a.Over P → keys.Nodup →
    c.keys ⊆ keys → dotProduct a c = sum (keys.map fun k => times (a.get k) (c.get k))
  sum_left : ∀ {a : SparseTuple W width} {keys : List (Key width)}, a.Over P → keys.Nodup →
    c.keys ⊆ keys → dotProduct c a = sum (keys.map fun k => times (c.get k) (a.get k))
  plus_right : RightDistributive P → ∀ {a b : SparseTuple W width}, a.Over P → b.Over P →
    dotProduct (plus a b) c = plus (dotProduct a c) (dotProduct b c)
  plus_left : LeftDistributive P → ∀ {a b : SparseTuple W width}, a.Over P → b.Over P →
    dotProduct c (plus a b) = plus (dotProduct c a) (dotProduct c b)
  scale_before : LeftDistributive P → ∀ {s : W} {a : SparseTuple W width}, P s → a.Over P →
    dotProduct (scalarTimes s a) c = times s (dotProduct a c)
  scale_after : RightDistributive P → ∀ {s : W} {a : SparseTuple W width}, P s → a.Over P →
    dotProduct a (timesScalar c s) = times (dotProduct a c) s
  symmetric : (∀ {x y : W}, P x → P y → times x y = times y x) →
    ∀ {a : SparseTuple W width}, a.Over P → dotProduct a c = dotProduct c a

section Linear
variable [LawfulBEq W] [Lawful P] (member : c.Over P) (based : c.background = zero)
include member based

theorem dotProduct_stored_right (left : a.Over P) :
    dotProduct a c = sum (c.keys.map fun k => times (a.get k) (c.get k)) :=
  dotProduct_right left member based member.canonical.keys_nodup
    (get_outside based (List.Subset.refl c.keys))

theorem dotProduct_stored_left (right : a.Over P) :
    dotProduct c a = sum (c.keys.map fun k => times (c.get k) (a.get k)) :=
  dotProduct_left member right based member.canonical.keys_nodup
    (get_outside based (List.Subset.refl c.keys))

theorem dotProduct_plus_right [RightDistributive P] (left : a.Over P) (right : b.Over P) :
    dotProduct (plus a b) c = plus (dotProduct a c) (dotProduct b c) := by
  have split : ∀ k ∈ c.keys, times ((plus a b).get k) (c.get k) =
      plus (times (a.get k) (c.get k)) (times (b.get k) (c.get k)) := by
    intro k _
    rw [get_plus left.canonical right.canonical]
    exact RightDistributive.plus_times (left.part (.key k)) (right.part (.key k))
      (member.part (.key k))
  rw [dotProduct_stored_right member based (left.plus right), sum_map_congr split,
    sum_map_plus (P := P) (products_mem left member) (products_mem right member),
    ← dotProduct_stored_right member based left, ← dotProduct_stored_right member based right]

theorem dotProduct_plus_left [LeftDistributive P] (left : a.Over P) (right : b.Over P) :
    dotProduct c (plus a b) = plus (dotProduct c a) (dotProduct c b) := by
  have split : ∀ k ∈ c.keys, times (c.get k) ((plus a b).get k) =
      plus (times (c.get k) (a.get k)) (times (c.get k) (b.get k)) := by
    intro k _
    rw [get_plus left.canonical right.canonical]
    exact LeftDistributive.times_plus (left.part (.key k)) (right.part (.key k))
      (member.part (.key k))
  rw [dotProduct_stored_left member based (left.plus right), sum_map_congr split,
    sum_map_plus (P := P) (products_mem member left) (products_mem member right),
    ← dotProduct_stored_left member based left, ← dotProduct_stored_left member based right]

theorem dotProduct_scalarTimes [LeftDistributive P] (scalar : P s) (left : a.Over P) :
    dotProduct (scalarTimes s a) c = times s (dotProduct a c) := by
  have products : ∀ x ∈ c.keys.map fun k => times (a.get k) (c.get k), P x :=
    List.forall_mem_map.mpr (products_mem left member)
  rw [dotProduct_stored_right member based (left.scalarTimes scalar),
    dotProduct_stored_right member based left, times_sum scalar products, List.map_map]
  apply sum_map_congr
  intro k _
  rw [get_scalarTimes left.canonical]
  exact Lawful.times_assoc scalar (left.part (.key k)) (member.part (.key k))

-- The scaled tuple may store fewer keys, so the sum is taken at those of the other.
theorem dotProduct_timesScalar [RightDistributive P] (scalar : P s) (left : a.Over P) :
    dotProduct a (timesScalar c s) = times (dotProduct a c) s := by
  have products : ∀ x ∈ c.keys.map fun k => times (a.get k) (c.get k), P x :=
    List.forall_mem_map.mpr (products_mem left member)
  have vanishes : times zero s = zero := Lawful.zero_times scalar
  have scaledBased : (timesScalar c s).background = zero :=
    (congrArg (times · s) based).trans vanishes
  have outside : ∀ k, k ∉ c.keys → (timesScalar c s).get k = zero := by
    intro k absent
    rw [get_timesScalar member.canonical, get_outside based (List.Subset.refl c.keys) k absent,
      vanishes]
  rw [dotProduct_right left (member.timesScalar scalar) scaledBased member.canonical.keys_nodup
    outside, dotProduct_stored_right member based left, sum_times scalar products, List.map_map]
  apply sum_map_congr
  intro k _
  rw [get_timesScalar member.canonical]
  exact (Lawful.times_assoc (left.part (.key k)) (member.part (.key k)) scalar).symm

theorem dotProduct_comm (commutes : ∀ {x y : W}, P x → P y → times x y = times y x)
    (left : a.Over P) : dotProduct a c = dotProduct c a := by
  rw [dotProduct_stored_right member based left, dotProduct_stored_left member based left]
  exact sum_map_congr fun k _ => commutes (left.part (.key k)) (member.part (.key k))

theorem dotProduct_linear : Linear P c where
  sum_right left distinct covers :=
    dotProduct_right left member based distinct (get_outside based covers)
  sum_left right distinct covers :=
    dotProduct_left member right based distinct (get_outside based covers)
  plus_right _ _ _ left right := dotProduct_plus_right member based left right
  plus_left _ _ _ left right := dotProduct_plus_left member based left right
  scale_before _ _ _ scalar left := dotProduct_scalarTimes member based scalar left
  scale_after _ _ _ scalar left := dotProduct_timesScalar member based scalar left
  symmetric commutes _ left := dotProduct_comm member based commutes left

end Linear

def stops : List (Key .bits32) :=
  [⟨73, by decide, by decide⟩, ⟨71, by decide, by decide⟩, ⟨72, by decide, by decide⟩]

def road : SparseTuple (Tropical Exact) .bits32 :=
  ⟨Tropical.cost (some 1), [(⟨71, by decide, by decide⟩, Tropical.cost none),
    (⟨72, by decide, by decide⟩, Tropical.cost (some 3))]⟩

def detour : SparseTuple (Tropical Exact) .bits32 :=
  ⟨Tropical.cost (some 2), [(⟨72, by decide, by decide⟩, Tropical.cost (some 0))]⟩

def fare : SparseTuple (Tropical Exact) .bits32 :=
  ⟨Tropical.cost none, [(⟨71, by decide, by decide⟩, Tropical.cost (some 4)),
    (⟨73, by decide, by decide⟩, Tropical.cost (some 5))]⟩

theorem fare_linear :
    Lawful (Member (W := Tropical Exact)) ∧ LeftDistributive (Member (W := Tropical Exact)) ∧
      RightDistributive (Member (W := Tropical Exact)) ∧ road.Over Member ∧ detour.Over Member ∧
      fare.Over Member ∧ fare.background = zero ∧ stops.Nodup ∧ fare.keys ⊆ stops ∧
      dotProduct road fare = sum (stops.map fun k => times (road.get k) (fare.get k)) ∧
      dotProduct road fare = Tropical.cost (some 6) ∧
      dotProduct (plus road detour) fare = plus (dotProduct road fare) (dotProduct detour fare) ∧
      dotProduct fare (plus road detour) = plus (dotProduct fare road) (dotProduct fare detour) ∧
      dotProduct road (timesScalar fare (Tropical.cost (some 2))) =
        times (dotProduct road fare) (Tropical.cost (some 2)) ∧
      dotProduct road fare = dotProduct fare road := by
  have lawful : Lawful (Member (W := Tropical Exact)) := inferInstance
  have before : LeftDistributive (Member (W := Tropical Exact)) := inferInstance
  have after : RightDistributive (Member (W := Tropical Exact)) := inferInstance
  have roadMember : road.Over Member := by decide
  have detourMember : detour.Over Member := by decide
  have fareMember : fare.Over Member := by decide
  have distinct : stops.Nodup := by decide
  have covers : fare.keys ⊆ stops := by decide
  have scalar : Member (Tropical.cost (some 2)) := by decide
  have commutes : ∀ {x y : Tropical Exact}, Member x → Member y → times x y = times y x :=
    Truthful.times_comm rfl
  have linear := dotProduct_linear fareMember rfl
  have summed := linear.sum_right roadMember distinct covers
  have paid : dotProduct road fare = Tropical.cost (some 6) := by
    rw [summed]
    decide +kernel
  exact ⟨lawful, before, after, roadMember, detourMember, fareMember, rfl, distinct, covers, summed,
    paid, linear.plus_right after roadMember detourMember,
    linear.plus_left before roadMember detourMember, linear.scale_after after scalar roadMember,
    linear.symmetric commutes roadMember⟩

end WeightedAutomata.SparseTuple
