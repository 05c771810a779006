import WeightedAutomata.Proofs.Tuple.Laws
import WeightedAutomata.Proofs.Tuple.Quotient
import WeightedAutomata.Proofs.Tuple.Merge
import WeightedAutomata.Proofs.Weight.Sum

namespace WeightedAutomata.SparseTuple
open Weight
variable {W : Type} [Weight W] {width : Width} {P : W → Prop} {s t v : W}
  {a b w : SparseTuple W width} {j k : Key width} {keys : List (Key width)}
  {coefficient : Key width → W}

theorem Canonical.keys_nodup (canonical : w.Canonical) : w.keys.Nodup :=
  List.pairwise_map.mpr (canonical.ascending.imp fun below same => by
    rw [same] at below
    exact Int.lt_irrefl _ below)

section Scaling

theorem uniform_times (s t : W) :
    (uniform (times s t) : SparseTuple W width) = times (uniform s) (uniform t) := by
  change _ = combine (fun _ => times) (uniform s) (uniform t)
  simp [combine, align, ofAscending, uniform]

theorem Canonical.plus (left : a.Canonical) (right : b.Canonical) : (plus a b).Canonical :=
  combine_canonical _ left right

theorem Canonical.times (left : a.Canonical) (right : b.Canonical) : (times a b).Canonical :=
  combine_canonical _ left right

theorem Canonical.divide (side : Side) (left : a.Canonical) (right : b.Canonical) :
    (divide side a b).Canonical :=
  combine_canonical _ left right

theorem Canonical.scalarTimes (canonical : a.Canonical) (s : W) : (scalarTimes s a).Canonical :=
  (uniform_canonical s).times canonical

theorem Canonical.timesScalar (canonical : a.Canonical) (s : W) : (timesScalar a s).Canonical :=
  canonical.times (uniform_canonical s)

theorem Canonical.divideScalar (canonical : a.Canonical) (side : Side) (s : W) :
    (divideScalar side a s).Canonical :=
  canonical.divide side (uniform_canonical s)

theorem Over.scalarTimes [Lawful P] (scalar : P s) (member : a.Over P) :
    (scalarTimes s a).Over P :=
  (uniform_over scalar).times member

theorem Over.timesScalar [Lawful P] (member : a.Over P) (scalar : P s) :
    (timesScalar a s).Over P :=
  member.times (uniform_over scalar)

variable [LawfulBEq W]

theorem part_scalarTimes (canonical : a.Canonical) (s : W) (c : Coordinate width) :
    (scalarTimes s a).part c = times s (a.part c) := by
  rw [scalarTimes, part_times (uniform_canonical s) canonical, part_uniform]

theorem part_timesScalar (canonical : a.Canonical) (s : W) (c : Coordinate width) :
    (timesScalar a s).part c = times (a.part c) s := by
  rw [timesScalar, part_times canonical (uniform_canonical s), part_uniform]

theorem part_divideScalar (canonical : a.Canonical) (side : Side) (s : W) (c : Coordinate width) :
    (divideScalar side a s).part c = divide side (a.part c) s := by
  have parts := part_combine (f := divide side) canonical (uniform_canonical s) c
  rwa [part_uniform] at parts

theorem get_plus (left : a.Canonical) (right : b.Canonical) (k : Key width) :
    (plus a b).get k = plus (a.get k) (b.get k) :=
  part_plus left right (.key k)

theorem get_scalarTimes (canonical : a.Canonical) (s : W) (k : Key width) :
    (scalarTimes s a).get k = times s (a.get k) :=
  part_scalarTimes canonical s (.key k)

theorem get_timesScalar (canonical : a.Canonical) (s : W) (k : Key width) :
    (timesScalar a s).get k = times (a.get k) s :=
  part_timesScalar canonical s (.key k)

end Scaling

section Combining

theorem ofPair_canonical (j : Key width) (value : W) : (ofPair j value).Canonical :=
  ofAscending_canonical (List.pairwise_singleton _ _)

theorem ofPair_over [Lawful P] (j : Key width) (member : P v) : (ofPair j v).Over P := by
  refine ⟨ofPair_canonical j v, Lawful.zero_mem, ?_⟩
  intro e present
  rw [List.mem_singleton.mp (List.mem_filter.mp present).1]
  exact member

def combination (keys : List (Key width)) (coefficient : Key width → W) : SparseTuple W width :=
  sum (keys.map fun k => scalarTimes (coefficient k) (ofPair k one))

theorem combination_cons (j : Key width) (keys : List (Key width)) (coefficient : Key width → W) :
    combination (j :: keys) coefficient =
      plus (scalarTimes (coefficient j) (ofPair j one)) (combination keys coefficient) :=
  rfl

theorem term_over [Lawful P] (j : Key width) (scalar : P s) :
    (scalarTimes s (ofPair j one)).Over P :=
  (ofPair_over j Lawful.one_mem).scalarTimes scalar

theorem mem_terms [Lawful P] (coefficients : ∀ k ∈ keys, P (coefficient k)) :
    ∀ a ∈ keys.map fun k => scalarTimes (coefficient k) (ofPair k one), a.Over P :=
  List.forall_mem_map.mpr fun k present => term_over k (coefficients k present)

theorem combination_background [Lawful P] (coefficients : ∀ k ∈ keys, P (coefficient k)) :
    (combination keys coefficient).background = zero := by
  induction keys with
  | nil => rfl
  | cons j keys ih =>
    have later := ih fun k present => coefficients k (by simp [present])
    have first : times (coefficient j) zero = zero := Lawful.times_zero (coefficients j (by simp))
    rw [combination_cons]
    change plus (times (coefficient j) zero) (combination keys coefficient).background = zero
    rw [first, later, Lawful.zero_plus (P := P) Lawful.zero_mem]

variable [LawfulBEq W]

theorem get_ofPair (j k : Key width) (value : W) :
    (ofPair j value).get k = if j = k then value else zero := by
  rw [ofPair, get_ofAscending (List.pairwise_singleton _ _)]
  split
  · subst k
    rw [lookup_cons_self, Option.getD_some]
  · rename_i other
    rw [lookup_cons_ne other, lookup_nil, Option.getD_none]

theorem get_term [Lawful P] (j k : Key width) (scalar : P s) :
    (scalarTimes s (ofPair j one)).get k = if j = k then s else zero := by
  rw [get_scalarTimes (ofPair_canonical j one), get_ofPair]
  split
  · exact Lawful.times_one scalar
  · exact Lawful.times_zero scalar

theorem combination_over [Lawful P] (coefficients : ∀ k ∈ keys, P (coefficient k)) :
    (combination keys coefficient).Over P :=
  Weight.sum_mem (mem_terms coefficients)

-- A key that is not repeated reads its own coefficient, and adds zero everywhere else.
theorem get_combination [Lawful P] (distinct : keys.Nodup)
    (coefficients : ∀ k ∈ keys, P (coefficient k)) (k : Key width) :
    (combination keys coefficient).get k = if k ∈ keys then coefficient k else zero := by
  induction keys with
  | nil => rfl
  | cons j keys ih =>
    obtain ⟨fresh, restDistinct⟩ := List.nodup_cons.mp distinct
    have first : P (coefficient j) := coefficients j (by simp)
    have rest : ∀ k ∈ keys, P (coefficient k) := fun k present => coefficients k (by simp [present])
    rw [combination_cons, get_plus (term_over j first).canonical (combination_over rest).canonical,
      get_term j k first, ih restDistinct rest]
    by_cases same : j = k
    · subst k
      rw [if_pos rfl, if_neg fresh, if_pos (by simp), plus_zero first]
    · rw [if_neg same]
      by_cases later : k ∈ keys
      · rw [if_pos later, if_pos (by simp [later]), Lawful.zero_plus (rest k later)]
      · rw [if_neg later, if_neg (by simp [later, Ne.symm same]),
          Lawful.zero_plus (P := P) Lawful.zero_mem]

end Combining

structure Bisemimodule (P : W → Prop) (width : Width) : Prop where
  scale_sum : LeftDistributive P → ∀ {s : W} {a b : SparseTuple W width}, P s → a.Over P →
    b.Over P → scalarTimes s (plus a b) = plus (scalarTimes s a) (scalarTimes s b)
  sum_scale : RightDistributive P → ∀ {s : W} {a b : SparseTuple W width}, P s → a.Over P →
    b.Over P → timesScalar (plus a b) s = plus (timesScalar a s) (timesScalar b s)
  plus_scale : RightDistributive P → ∀ {s t : W} {a : SparseTuple W width}, P s → P t →
    a.Over P → scalarTimes (plus s t) a = plus (scalarTimes s a) (scalarTimes t a)
  scale_plus : LeftDistributive P → ∀ {s t : W} {a : SparseTuple W width}, P s → P t →
    a.Over P → timesScalar a (plus s t) = plus (timesScalar a s) (timesScalar a t)
  times_scale : Lawful P → ∀ {s t : W} {a : SparseTuple W width}, P s → P t → a.Over P →
    scalarTimes (times s t) a = scalarTimes s (scalarTimes t a)
  scale_times : Lawful P → ∀ {s t : W} {a : SparseTuple W width}, P s → P t → a.Over P →
    timesScalar a (times s t) = timesScalar (timesScalar a s) t
  scale_scale : Lawful P → ∀ {s t : W} {a : SparseTuple W width}, P s → P t → a.Over P →
    timesScalar (scalarTimes s a) t = scalarTimes s (timesScalar a t)
  one_scale : Lawful P → ∀ {a : SparseTuple W width}, a.Over P →
    scalarTimes one a = a ∧ timesScalar a one = a
  zero_scale : Lawful P → ∀ {a : SparseTuple W width}, a.Over P →
    scalarTimes zero a = zero ∧ timesScalar a zero = zero
  divide_right : ∀ {s : W} {a : SparseTuple W width}, P s → a.Over P →
    (∀ {x : W}, P x → divide .right (times x s) s = x) →
      divideScalar .right (timesScalar a s) s = a
  divide_left : ∀ {s : W} {a : SparseTuple W width}, P s → a.Over P →
    (∀ {x : W}, P x → divide .left (times s x) s = x) →
      divideScalar .left (scalarTimes s a) s = a

-- The tuples that are one at a single key are a basis of those over zero.
structure Free (P : W → Prop) (width : Width) : Prop where
  spanned : ∀ {w : SparseTuple W width}, w.Over P → w.background = zero →
    ∀ {keys : List (Key width)}, keys.Perm w.keys → combination keys w.get = w
  unique : ∀ {w : SparseTuple W width} {keys : List (Key width)} {coefficient : Key width → W},
    keys.Nodup → (∀ k ∈ keys, P (coefficient k)) → combination keys coefficient = w →
      (∀ k ∈ keys, coefficient k = w.get k) ∧ ∀ k, k ∉ keys → w.get k = zero

section Laws
variable [LawfulBEq W]

theorem bisemimodule (P : W → Prop) (width : Width) : Bisemimodule P width where
  scale_sum := by
    intro distributive s a b scalar left right
    have aCanonical := left.canonical
    have bCanonical := right.canonical
    apply ((aCanonical.plus bCanonical).scalarTimes s).eq_of_part
      ((aCanonical.scalarTimes s).plus (bCanonical.scalarTimes s))
    intro c
    rw [part_scalarTimes (aCanonical.plus bCanonical), part_plus aCanonical bCanonical,
      part_plus (aCanonical.scalarTimes s) (bCanonical.scalarTimes s),
      part_scalarTimes aCanonical, part_scalarTimes bCanonical]
    exact distributive.times_plus (left.part c) (right.part c) scalar
  sum_scale := by
    intro distributive s a b scalar left right
    have aCanonical := left.canonical
    have bCanonical := right.canonical
    apply ((aCanonical.plus bCanonical).timesScalar s).eq_of_part
      ((aCanonical.timesScalar s).plus (bCanonical.timesScalar s))
    intro c
    rw [part_timesScalar (aCanonical.plus bCanonical), part_plus aCanonical bCanonical,
      part_plus (aCanonical.timesScalar s) (bCanonical.timesScalar s),
      part_timesScalar aCanonical, part_timesScalar bCanonical]
    exact distributive.plus_times (left.part c) (right.part c) scalar
  plus_scale := by
    intro distributive s t a sMember tMember member
    have canonical := member.canonical
    apply (canonical.scalarTimes (plus s t)).eq_of_part
      ((canonical.scalarTimes s).plus (canonical.scalarTimes t))
    intro c
    rw [part_plus (canonical.scalarTimes s) (canonical.scalarTimes t),
      part_scalarTimes canonical, part_scalarTimes canonical, part_scalarTimes canonical]
    exact distributive.plus_times sMember tMember (member.part c)
  scale_plus := by
    intro distributive s t a sMember tMember member
    have canonical := member.canonical
    apply (canonical.timesScalar (plus s t)).eq_of_part
      ((canonical.timesScalar s).plus (canonical.timesScalar t))
    intro c
    rw [part_plus (canonical.timesScalar s) (canonical.timesScalar t),
      part_timesScalar canonical, part_timesScalar canonical, part_timesScalar canonical]
    exact distributive.times_plus sMember tMember (member.part c)
  times_scale := by
    intro lawful s t a sMember tMember member
    rw [scalarTimes, uniform_times]
    exact Lawful.times_assoc (uniform_over sMember) (uniform_over tMember) member
  scale_times := by
    intro lawful s t a sMember tMember member
    rw [timesScalar, uniform_times]
    exact (Lawful.times_assoc member (uniform_over sMember) (uniform_over tMember)).symm
  scale_scale := by
    intro lawful s t a sMember tMember member
    exact Lawful.times_assoc (uniform_over sMember) member (uniform_over tMember)
  one_scale := by
    intro lawful a member
    exact ⟨Lawful.one_times member, Lawful.times_one member⟩
  zero_scale := by
    intro lawful a member
    exact ⟨Lawful.zero_times member, Lawful.times_zero member⟩
  divide_right := by
    intro s a scalar member cancels
    have canonical := member.canonical
    apply ((canonical.timesScalar s).divideScalar .right s).eq_of_part canonical
    intro c
    rw [part_divideScalar (canonical.timesScalar s), part_timesScalar canonical]
    exact cancels (member.part c)
  divide_left := by
    intro s a scalar member cancels
    have canonical := member.canonical
    apply ((canonical.scalarTimes s).divideScalar .left s).eq_of_part canonical
    intro c
    rw [part_divideScalar (canonical.scalarTimes s), part_scalarTimes canonical]
    exact cancels (member.part c)

theorem free [Lawful P] : Free P width where
  spanned := by
    intro w member based keys perm
    have coefficients : ∀ k ∈ keys, P (w.get k) := fun k _ => member.part (.key k)
    have distinct : keys.Nodup := perm.nodup_iff.mpr member.canonical.keys_nodup
    apply (combination_over coefficients).canonical.ext member.canonical
    · rw [combination_background coefficients, based]
    · intro k
      rw [get_combination distinct coefficients]
      split
      · rfl
      · rename_i absent
        have unstored : k ∉ w.keys := fun stored => absent (perm.mem_iff.mpr stored)
        rw [get_of_not_mem_keys unstored, based]
  unique := by
    rintro w keys coefficient distinct coefficients rfl
    have reads := get_combination distinct coefficients
    exact ⟨fun k present => by rw [reads, if_pos present],
      fun k absent => by rw [reads, if_neg absent]⟩

-- Nothing is asked of the weights but the laws that the bisemimodule names, and of
-- division only that it undoes the product with the one scalar.
theorem free_bisemimodule (P : W → Prop) (width : Width) :
    Bisemimodule P width ∧ (Lawful P → Free P width) :=
  ⟨bisemimodule P width, fun _ => free⟩

end Laws

def tariff (background first second : Option Rat) : SparseTuple (Tropical Exact) .bits8 :=
  ⟨Tropical.cost background, [(⟨61, by decide, by decide⟩, Tropical.cost first),
    (⟨62, by decide, by decide⟩, Tropical.cost second)]⟩

theorem tariff_bisemimodule :
    Lawful (Member (W := Tropical Exact)) ∧ LeftDistributive (Member (W := Tropical Exact)) ∧
      Member (Tropical.cost (some 2)) ∧ (tariff (some 1) none (some 3)).Over Member ∧
      (tariff none (some 4) (some 5)).Over Member ∧
      scalarTimes (Tropical.cost (some 2))
          (plus (tariff (some 1) none (some 3)) (tariff none (some 4) (some 5))) =
        plus (scalarTimes (Tropical.cost (some 2)) (tariff (some 1) none (some 3)))
          (scalarTimes (Tropical.cost (some 2)) (tariff none (some 4) (some 5))) ∧
      divideScalar .right (timesScalar (tariff (some 1) none (some 3)) (Tropical.cost (some 2)))
          (Tropical.cost (some 2)) = tariff (some 1) none (some 3) ∧
      combination (tariff none (some 4) (some 5)).keys.reverse (tariff none (some 4) (some 5)).get =
        tariff none (some 4) (some 5) := by
  have lawful : Lawful (Member (W := Tropical Exact)) := inferInstance
  have distributive : LeftDistributive (Member (W := Tropical Exact)) := inferInstance
  have scalar : Member (Tropical.cost (some 2)) := by decide
  have everywhere : (tariff (some 1) none (some 3)).Over Member := by decide
  have atKeys : (tariff none (some 4) (some 5)).Over Member := by decide
  obtain ⟨laws, basis⟩ := free_bisemimodule (Member (W := Tropical Exact)) .bits8
  refine ⟨lawful, distributive, scalar, everywhere, atKeys,
    laws.scale_sum distributive scalar everywhere atKeys,
    laws.divide_right scalar everywhere fun member =>
      Undoing.divide_times_right scalar member (by decide),
    (basis lawful).spanned atKeys rfl (List.reverse_perm _)⟩

end WeightedAutomata.SparseTuple
