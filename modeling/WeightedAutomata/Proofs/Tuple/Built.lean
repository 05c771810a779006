import WeightedAutomata.Proofs.Tuple.Coordinate
import WeightedAutomata.Proofs.Tuple.Insert
import WeightedAutomata.Proofs.Weight.Flag
import WeightedAutomata.Tuple.Text

namespace WeightedAutomata.SparseTuple
open Weight
variable {W V U : Type} {width : Width}

section Operations
variable {s t u : SparseTuple W width}

theorem mapValues_canonical [BEq W] [BEq V] (f : W → V) (canonical : t.Canonical) :
    (mapValues f t).Canonical :=
  ofAscending_canonical (List.pairwise_map.mpr canonical.ascending)

theorem insertPairs_canonical [BEq W] [WeightText W] {texts : List (List Char)}
    (canonical : t.Canonical) (read : insertPairs t texts = .ok u) : u.Canonical := by
  induction t, texts using insertPairs.induct with
  | case1 t keyText valueText rest unread =>
    rw [insertPairs, unread] at read
    cases read
  | case2 t keyText valueText rest key keyRead ih =>
    rw [insertPairs, keyRead] at read
    cases parsed : (WeightText.parse (String.ofList valueText) : Except ParseError W) with
    | error fault =>
      simp only [parsed] at read
      cases read
    | ok value =>
      simp only [parsed] at read
      exact ih value (insert_canonical canonical) read
  | case3 texts t short =>
    rw [insertPairs] at read
    · cases read
      exact canonical
    · exact short

theorem parse_canonical [BEq W] [WeightText W] {text : String} (read : parse text = .ok t) :
    t.Canonical := by
  unfold parse at read
  split at read
  · cases read
  · rename_i background rest split
    split at read
    · cases read
    · cases parsed : (WeightText.parse (String.ofList background) : Except ParseError W) with
      | error fault =>
        simp only [parsed] at read
        cases read
      | ok value =>
        simp only [parsed] at read
        exact insertPairs_canonical (uniform_canonical value) read

end Operations

section Merge
variable {σ : Type} {s : SparseTuple W width} {t : SparseTuple V width}

theorem ascending_iff_keys {X : Type} {entries : List (Key width × X)} :
    Ascending entries ↔ (entries.map Prod.fst).Pairwise fun j k => j.value < k.value := by
  rw [List.pairwise_map]
  rfl

-- A merge that remembers what it has seen still meets the keys in their order.
theorem keys_mapM {X Y : Type} (f : Key width × X → StateM σ Y) (aligned : List (Key width × X))
    (state : σ) :
    ((aligned.mapM fun e => do
      let value ← f e
      return (e.1, value)).run state).1.map Prod.fst = aligned.map Prod.fst := by
  induction aligned generalizing state with
  | nil => rfl
  | cons e rest ih =>
    rw [List.mapM_cons, List.map_cons, ← ih ((f e).run state).2]
    rfl

theorem combineM_canonical [BEq W] [BEq V] [BEq U] (f : Option (Key width) → W → V → StateM σ U)
    (state : σ) (left : s.Canonical) (right : t.Canonical) :
    ((combineM f s t).run state).1.Canonical := by
  have keys := keys_mapM (fun e : Key width × W × V => f (some e.1) e.2.1 e.2.2)
    (align s.background t.background s.entries t.entries)
    ((f none s.background t.background).run state).2
  have ordered := ascending_iff_keys.mp
    (align_ascending (A := s.background) (B := t.background) left.ascending right.ascending)
  rw [← keys] at ordered
  exact ofAscending_canonical (ascending_iff_keys.mpr ordered)

end Merge

-- What is made by a sequence of operations on tuples. A merge may depend on the keys and
-- on what it has met before, and the reverse of a weight may be a weight of another type.
inductive Built : {W : Type} → [Weight W] → SparseTuple W width → Prop where
  | empty {W : Type} [Weight W] : Built (default : SparseTuple W width)
  | zero {W : Type} [Weight W] : Built (zero : SparseTuple W width)
  | one {W : Type} [Weight W] : Built (one : SparseTuple W width)
  | noWeight {W : Type} [Weight W] : Built (noWeight : SparseTuple W width)
  | uniform {W : Type} [Weight W] (background : W) :
    Built (uniform background : SparseTuple W width)
  | ofPair {W : Type} [Weight W] (key : Key width) (value : W) : Built (ofPair key value)
  | ofPairs {W : Type} [Weight W] (pairs : List (Key width × W)) : Built (ofPairs pairs)
  | parse {W : Type} [Weight W] [WeightText W] {text : String} {t : SparseTuple W width}
    (read : WeightText.parse text = .ok t) : Built t
  | insert {W : Type} [Weight W] {t : SparseTuple W width} (built : Built t) (key : Key width)
    (value : W) : Built (t.insert key value)
  | map {W : Type} [Weight W] {s t : SparseTuple W width} (f : Option (Key width) → W → W → W)
    (left : Built s) (right : Built t) : Built (combine f s t)
  | mapM {W : Type} [Weight W] {s t : SparseTuple W width} {σ : Type}
    (f : Option (Key width) → W → W → StateM σ W) (state : σ) (left : Built s)
    (right : Built t) : Built ((combineM f s t).run state).1
  | plus {W : Type} [Weight W] {s t : SparseTuple W width} (left : Built s) (right : Built t) :
    Built (plus s t)
  | times {W : Type} [Weight W] {s t : SparseTuple W width} (left : Built s) (right : Built t) :
    Built (times s t)
  | divide {W : Type} [Weight W] {s t : SparseTuple W width} (side : Side) (left : Built s)
    (right : Built t) : Built (divide side s t)
  | divideOrZero {W : Type} [Weight W] {s t : SparseTuple W width} (side : Side) (left : Built s)
    (right : Built t) : Built (divideOrZero side s t)
  | quantize {W Δ : Type} [Weight W] [Rounding W Δ] {t : SparseTuple W width} (delta : Δ)
    (built : Built t) : Built (Rounding.quantize delta t)
  | reverse {W R : Type} [Weight W] [Weight R] [Reversible W R] {t : SparseTuple W width}
    (built : Built t) : Built (Reversible.reverse t : SparseTuple R width)
  | scalarTimes {W : Type} [Weight W] {t : SparseTuple W width} (scalar : W) (built : Built t) :
    Built (scalarTimes scalar t)
  | timesScalar {W : Type} [Weight W] {t : SparseTuple W width} (built : Built t) (scalar : W) :
    Built (timesScalar t scalar)
  | divideScalar {W : Type} [Weight W] {t : SparseTuple W width} (side : Side) (built : Built t)
    (scalar : W) : Built (divideScalar side t scalar)

theorem Built.canonical [Weight W] {t : SparseTuple W width} (built : Built t) : t.Canonical := by
  induction built with
  | empty | zero | one | noWeight => exact uniform_canonical _
  | uniform background => exact uniform_canonical background
  | ofPair key value => exact ofAscending_canonical (List.pairwise_singleton _ _)
  | ofPairs pairs => exact ofPairs_canonical pairs
  | parse read => exact parse_canonical read
  | insert built key value ih => exact insert_canonical ih
  | map f left right leftIh rightIh => exact combine_canonical f leftIh rightIh
  | mapM f state left right leftIh rightIh => exact combineM_canonical f state leftIh rightIh
  | plus left right leftIh rightIh | times left right leftIh rightIh
  | divide side left right leftIh rightIh | divideOrZero side left right leftIh rightIh =>
    exact combine_canonical _ leftIh rightIh
  | quantize delta built ih => exact mapValues_canonical _ ih
  | reverse built ih => exact mapValues_canonical _ ih
  | scalarTimes scalar built ih =>
    exact combine_canonical (fun _ => Weight.times) (uniform_canonical scalar) ih
  | timesScalar built scalar ih =>
    exact combine_canonical (fun _ => Weight.times) ih (uniform_canonical scalar)
  | divideScalar side built scalar ih =>
    exact combine_canonical (fun _ => Weight.divide side) ih (uniform_canonical scalar)

theorem built_told_apart [Weight W] [LawfulBEq W] {s : SparseTuple W width} (built : Built s) :
    s.Canonical ∧ ∀ t : SparseTuple W width, Built t →
      ((s == t) = true ↔
        (s.background == t.background) = true ∧ ∀ k, (s.get k == t.get k) = true) := by
  refine ⟨built.canonical, ?_⟩
  intro t other
  constructor
  · intro same
    cases eq_of_beq same
    exact ⟨beq_self_eq_true _, fun k => beq_self_eq_true _⟩
  · rintro ⟨background, reads⟩
    have same := built.canonical.ext other.canonical (eq_of_beq background)
      fun k => eq_of_beq (reads k)
    exact beq_iff_eq.mpr same

def summed : SparseTuple Flag .bits8 :=
  plus (ofPair ⟨8, by decide, by decide⟩ ⟨true⟩) (ofPair ⟨9, by decide, by decide⟩ ⟨false⟩)

theorem summed_told_apart :
    ∃ t : SparseTuple Flag .bits8, WeightText.parse "F,9,T,8,T,9,F" = .ok t ∧ Built summed ∧
      Built t ∧ summed.Canonical ∧ (summed == t) = true ∧
      (summed.background == t.background) = true ∧ ∀ k, (summed.get k == t.get k) = true := by
  have read : WeightText.parse "F,9,T,8,T,9,F" =
      .ok (ofPair ⟨8, by decide, by decide⟩ ⟨true⟩ : SparseTuple Flag .bits8) := rfl
  have sum : Built summed := .plus (.ofPair _ _) (.ofPair _ _)
  have same : (summed == ofPair ⟨8, by decide, by decide⟩ ⟨true⟩) = true := by
    with_unfolding_all rfl
  obtain ⟨canonical, toldApart⟩ := built_told_apart sum
  exact ⟨_, read, sum, .parse read, canonical, same, (toldApart _ (.parse read)).mp same⟩

end WeightedAutomata.SparseTuple
