import WeightedAutomata.Proofs.Tuple.Coordinate
import WeightedAutomata.Proofs.Weight.Flag

namespace WeightedAutomata.SparseTuple
open Weight
variable {W V U : Type} {width : Width} {k : Key width} {s : SparseTuple W width}
  {t : SparseTuple V width}

theorem mem_keys_iff : k ∈ t.keys ↔ ∃ value, (k, value) ∈ t.entries := by
  constructor
  · intro present
    obtain ⟨e, stored, rfl⟩ := List.mem_map.mp present
    exact ⟨e.2, stored⟩
  · rintro ⟨value, stored⟩
    exact List.mem_map.mpr ⟨(k, value), stored, rfl⟩

section Union

def unionKeys (s : SparseTuple W width) (t : SparseTuple V width) : List (Key width) :=
  (align s.background t.background s.entries t.entries).map Prod.fst

theorem unionKeys_ascending (left : Ascending s.entries) (right : Ascending t.entries) :
    (unionKeys s t).Pairwise fun j k => j.value < k.value :=
  List.pairwise_map.mpr (align_ascending left right)

-- What is aligned at a key is what the two tuples read there.
theorem reads_of_mem_align (left : Ascending s.entries) (right : Ascending t.entries)
    {e : Key width × W × V}
    (aligned : e ∈ align s.background t.background s.entries t.entries) :
    e = (e.1, s.get e.1, t.get e.1) := by
  obtain ⟨key, a, b⟩ := e
  have found := lookup_of_mem (align_ascending left right) aligned
  rw [lookup_align left right] at found
  rw [get_eq_lookup, get_eq_lookup]
  cases fromLeft : lookup key s.entries <;> cases fromRight : lookup key t.entries <;>
    simp_all [meeting]

theorem align_eq (left : Ascending s.entries) (right : Ascending t.entries) :
    align s.background t.background s.entries t.entries =
      (unionKeys s t).map fun k => (k, s.get k, t.get k) := by
  have reads : (align s.background t.background s.entries t.entries).map
      (fun e => (e.1, s.get e.1, t.get e.1)) =
        (align s.background t.background s.entries t.entries).map id :=
    List.map_congr_left fun e aligned => (reads_of_mem_align left right aligned).symm
  rw [unionKeys, List.map_map]
  exact (reads.trans (List.map_id _)).symm

theorem mem_unionKeys (left : Ascending s.entries) (right : Ascending t.entries) :
    k ∈ unionKeys s t ↔ k ∈ s.keys ∨ k ∈ t.keys := by
  rw [mem_keys_iff, mem_keys_iff]
  constructor
  · intro met
    obtain ⟨e, aligned, rfl⟩ := List.mem_map.mp met
    exact (mem_align aligned).2.2
  · intro stored
    have met : ∃ ab, lookup k (align s.background t.background s.entries t.entries) = some ab := by
      rw [lookup_align left right]
      rcases stored with ⟨a, present⟩ | ⟨b, present⟩
      · rw [lookup_of_mem left present]
        cases lookup k t.entries <;> exact ⟨_, rfl⟩
      · rw [lookup_of_mem right present]
        cases lookup k s.entries <;> exact ⟨_, rfl⟩
    obtain ⟨ab, found⟩ := met
    exact List.mem_map.mpr ⟨(k, ab), mem_of_lookup found, rfl⟩

end Union

section Calls

theorem combineM_eq [BEq U] {m : Type → Type} [Monad m] [LawfulMonad m]
    (f : Option (Key width) → W → V → m U) (left : Ascending s.entries)
    (right : Ascending t.entries) :
    combineM f s t = do
      let background ← f none s.background t.background
      let entries ← (unionKeys s t).mapM fun key => do
        let value ← f (some key) (s.get key) (t.get key)
        return (key, value)
      return ofAscending background entries := by
  unfold combineM
  rw [align_eq left right, List.mapM_map]
  rfl

theorem combine_eq [BEq U] (f : Option (Key width) → W → V → U) (left : Ascending s.entries)
    (right : Ascending t.entries) :
    combine f s t = ofAscending (f none s.background t.background)
      ((unionKeys s t).map fun k => (k, f (some k) (s.get k) (t.get k))) := by
  rw [combine, align_eq left right, List.map_map]
  rfl

abbrev Call (W V : Type) (width : Width) : Type :=
  Option (Key width) × W × V

-- Writes a call down before it is answered.
def noted (f : Option (Key width) → W → V → U) (key : Option (Key width)) (a : W) (b : V) :
    StateM (List (Call W V width)) U := do
  modify (· ++ [(key, a, b)])
  return f key a b

theorem mapM_noted (f : Option (Key width) → W → V → U) (s : SparseTuple W width)
    (t : SparseTuple V width) (keys : List (Key width)) (calls : List (Call W V width)) :
    (keys.mapM fun key => do
        let value ← noted f (some key) (s.get key) (t.get key)
        return (key, value)).run calls =
      (keys.map fun k => (k, f (some k) (s.get k) (t.get k)),
        calls ++ keys.map fun k => (some k, s.get k, t.get k)) := by
  induction keys generalizing calls with
  | nil => exact congrArg (Prod.mk []) (List.append_nil calls).symm
  | cons key keys ih =>
    have later := ih (calls ++ [(some key, s.get key, t.get key)])
    rw [List.mapM_cons, List.map_cons, List.map_cons, List.append_cons]
    exact congrArg (fun run => ((key, f (some key) (s.get key) (t.get key)) :: run.1, run.2)) later

theorem combineM_noted [BEq U] (f : Option (Key width) → W → V → U) (left : Ascending s.entries)
    (right : Ascending t.entries) (calls : List (Call W V width)) :
    (combineM (noted f) s t).run calls = (combine f s t,
      calls ++ (none, s.background, t.background) ::
        (unionKeys s t).map fun k => (some k, s.get k, t.get k)) := by
  have later := mapM_noted f s t (unionKeys s t) (calls ++ [(none, s.background, t.background)])
  rw [combineM_eq (noted f) left right, combine_eq f left right, List.append_cons]
  exact congrArg
    (fun run => (ofAscending (f none s.background t.background) run.1, run.2)) later

end Calls

section Reads

theorem lookup_keyed {X : Type} (value : Key width → X) (k : Key width)
    (keys : List (Key width)) :
    lookup k (keys.map fun j => (j, value j)) = if k ∈ keys then some (value k) else none := by
  induction keys with
  | nil => rfl
  | cons j keys ih =>
    rw [List.map_cons]
    by_cases same : j = k
    · subst j
      rw [lookup_cons_self, if_pos (by simp)]
    · rw [lookup_cons_ne same, ih]
      simp [Ne.symm same]

theorem get_combine [BEq U] (f : Option (Key width) → W → V → U) (left : Ascending s.entries)
    (right : Ascending t.entries) (k : Key width) :
    (combine f s t).get k = if k ∈ unionKeys s t
      then kept (f none s.background t.background) (f (some k) (s.get k) (t.get k))
      else f none s.background t.background := by
  have ascending : Ascending
      ((unionKeys s t).map fun k => (k, f (some k) (s.get k) (t.get k))) :=
    List.pairwise_map.mpr (unionKeys_ascending left right)
  rw [combine_eq f left right, get_ofAscending_kept ascending, lookup_keyed]
  split <;> rfl

structure Merged [BEq U] (f : Option (Key width) → W → V → U) (keys : List (Key width))
    (s : SparseTuple W width) (t : SparseTuple V width) (u : SparseTuple U width) : Prop where
  background : u.background = f none s.background t.background
  met : ∀ k ∈ keys, u.get k = kept u.background (f (some k) (s.get k) (t.get k))
  met_lawful : LawfulBEq U → ∀ k ∈ keys, u.get k = f (some k) (s.get k) (t.get k)
  unmet : ∀ k, k ∉ keys → u.get k = u.background

theorem combine_merged [BEq U] (f : Option (Key width) → W → V → U) (left : Ascending s.entries)
    (right : Ascending t.entries) : Merged f (unionKeys s t) s t (combine f s t) where
  background := rfl
  met := by
    intro k present
    rw [get_combine f left right, if_pos present]
    rfl
  met_lawful := by
    intro lawful k present
    rw [get_combine f left right, if_pos present, kept_eq]
  unmet := by
    intro k absent
    rw [get_combine f left right, if_neg absent]
    rfl

structure Pointwise [BEq U] (g : W → V → U) (s : SparseTuple W width) (t : SparseTuple V width)
    (u : SparseTuple U width) : Prop where
  background : u.background = g s.background t.background
  reads : ∀ k, u.get k = kept u.background (g (s.get k) (t.get k))
  reads_lawful : LawfulBEq U → ∀ k, u.get k = g (s.get k) (t.get k)

theorem get_of_not_mem_keys {t : SparseTuple W width} (absent : k ∉ t.keys) :
    t.get k = t.background := by
  have unfound : lookup k t.entries = none := by
    apply lookup_eq_none
    rintro e present rfl
    exact absent (List.mem_map.mpr ⟨e, present, rfl⟩)
  rw [get_eq_lookup, unfound, Option.getD_none]

-- At a key that neither tuple stores the function meets the backgrounds once more.
theorem combine_pointwise [BEq U] (g : W → V → U) (left : Ascending s.entries)
    (right : Ascending t.entries) : Pointwise g s t (combine (fun _ => g) s t) := by
  have reads : ∀ k, (combine (fun _ => g) s t).get k =
      kept (g s.background t.background) (g (s.get k) (t.get k)) := by
    intro k
    rw [get_combine (fun _ => g) left right]
    split
    · rfl
    · rename_i unmet
      have absent := fun stored => unmet ((mem_unionKeys left right).mpr stored)
      rw [get_of_not_mem_keys fun stored => absent (.inl stored),
        get_of_not_mem_keys fun stored => absent (.inr stored), kept_self]
  refine ⟨rfl, reads, ?_⟩
  intro lawful k
  rw [reads, kept_eq]

end Reads

section Weights
variable [Weight W] {s t : SparseTuple W width}

-- Whatever the function does besides, it is called as if the keys were gone through one by
-- one. The operations of tuples and the test for a tolerance are merges by functions of the
-- two values alone.
theorem combineM_visits (left : s.Canonical) (right : t.Canonical) :
    ∃ keys : List (Key width), (keys.Pairwise fun j k => j.value < k.value) ∧
      (∀ k, k ∈ keys ↔ k ∈ s.keys ∨ k ∈ t.keys) ∧
      (∀ {m : Type → Type} [Monad m] [LawfulMonad m] (f : Option (Key width) → W → W → m W),
        combineM f s t = do
          let background ← f none s.background t.background
          let entries ← keys.mapM fun k => do
            let value ← f (some k) (s.get k) (t.get k)
            return (k, value)
          return ofAscending background entries) ∧
      (∀ (f : Option (Key width) → W → W → W) calls, (combineM (noted f) s t).run calls =
        (combine f s t, calls ++ (none, s.background, t.background) ::
          keys.map fun k => (some k, s.get k, t.get k))) ∧
      (∀ f : Option (Key width) → W → W → W, Merged f keys s t (combine f s t)) ∧
      (∀ g : W → W → W, Pointwise g s t (combine (fun _ => g) s t)) ∧
      Pointwise plus s t (plus s t) ∧ Pointwise times s t (times s t) ∧
      (∀ side, Pointwise (divide side) s t (divide side s t)) ∧
      (∀ side, Pointwise (divideOrZero side) s t (divideOrZero side s t)) ∧
      ∀ {Δ : Type} [Rounding W Δ] (delta : Δ), ∃ u : SparseTuple W width,
        Pointwise (fun a b => if Rounding.approxEq delta a b then one else zero) s t u ∧
          (Rounding.approxEq delta s t = true ↔ u.kind = .one) := by
  have pointwise : ∀ g : W → W → W, Pointwise g s t (combine (fun _ => g) s t) :=
    fun g => combine_pointwise g left.ascending right.ascending
  refine ⟨unionKeys s t, unionKeys_ascending left.ascending right.ascending,
    fun k => mem_unionKeys left.ascending right.ascending, ?_, ?_, ?_, pointwise,
    pointwise plus, pointwise times, fun side => pointwise (divide side),
    fun side => pointwise (divideOrZero side),
    fun delta => ⟨_, pointwise _, decide_eq_true_iff⟩⟩
  · intro m _ _ f
    exact combineM_eq f left.ascending right.ascending
  · intro f calls
    exact combineM_noted f left.ascending right.ascending calls
  · intro f
    exact combine_merged f left.ascending right.ascending

end Weights

def worn : SparseTuple Flag .bits16 :=
  ⟨⟨false⟩, [(⟨22, by decide, by decide⟩, ⟨true⟩), (⟨23, by decide, by decide⟩, ⟨true⟩)]⟩

def fresh : SparseTuple Flag .bits16 :=
  ⟨⟨true⟩, [(⟨21, by decide, by decide⟩, ⟨false⟩), (⟨22, by decide, by decide⟩, ⟨false⟩)]⟩

def renewed (key : Option (Key .bits16)) (a b : Flag) : Flag :=
  if key.isSome then b else a

theorem renewed_visits :
    worn.Canonical ∧ fresh.Canonical ∧ ∃ keys : List (Key .bits16),
      keys.map Key.value = [21, 22, 23] ∧
      ((combineM (noted renewed) worn fresh).run []).2 =
        (none, ⟨false⟩, ⟨true⟩) :: keys.map (fun k => (some k, worn.get k, fresh.get k)) ∧
      Merged renewed keys worn fresh (combine renewed worn fresh) := by
  have left : worn.Canonical := ⟨by decide, by decide⟩
  have right : fresh.Canonical := ⟨by decide, by decide⟩
  obtain ⟨keys, -, -, -, calls, merged, -⟩ := combineM_visits left right
  have run := congrArg Prod.snd (calls renewed [])
  have asked : ((combineM (noted renewed) worn fresh).run []).2.tail.map
      (fun call => (call.1.map Key.value).getD 0) = [21, 22, 23] := by
    decide +kernel
  rw [run, List.nil_append, List.tail_cons, List.map_map] at asked
  exact ⟨left, right, keys, asked, run, merged renewed⟩

end WeightedAutomata.SparseTuple
