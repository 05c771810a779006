import Mathlib.Order.Bounds.Basic
import WeightedAutomata.Potential
import WeightedAutomata.Proofs.Automaton.Read
import WeightedAutomata.Proofs.LineFile

namespace WeightedAutomata.Potential
variable {W : Type}

namespace Entry
variable [WeightText W]

inductive Listed : List String → Entry W → Prop where
  | entry {state weight : String} {s : Nat} {w : W}
      (stateNumeral : Text.Numeral stateLimit state.toList s)
      (parsed : WeightText.parse weight = .ok w) : Listed [state, weight] ⟨s, w⟩

theorem ofColumns_eq_ok_iff (columns : List String) (entry : Entry W) :
    ofColumns columns = .ok entry ↔ Listed columns entry := by
  constructor
  · intro accepted
    unfold ofColumns at accepted
    split at accepted
    · obtain ⟨s, stateRead, accepted⟩ := ok_bind accepted
      obtain ⟨w, weightRead, accepted⟩ := ok_bind accepted
      cases accepted
      exact .entry (LineFile.state_eq_ok_iff.mp stateRead) (LineFile.weight_eq_ok_iff.mp weightRead)
    · cases accepted
  · intro listed
    cases listed with
    | entry stateNumeral parsed =>
      rw [ofColumns, LineFile.state_eq_ok_iff.mpr stateNumeral,
        LineFile.weight_eq_ok_iff.mpr parsed]
      rfl

end Entry

def Entry.weight? (s : Nat) (entry : Entry W) : Option W :=
  if entry.state = s then some entry.weight else none

theorem filterMap_unlisted {entries : List (Entry W)} {s : Nat}
    (unlisted : ∀ entry ∈ entries, entry.state ≠ s) : entries.filterMap (Entry.weight? s) = [] :=
  List.filterMap_eq_nil_iff.mpr fun entry present => if_neg (unlisted entry present)

theorem filterMap_weight? (s : Nat) (entries : List (Entry W)) :
    entries.filterMap (Entry.weight? s) =
      (entries.filter fun entry => entry.state = s).map Entry.weight := by
  induction entries with
  | nil => rfl
  | cons entry rest ih => by_cases own : entry.state = s <;> simp [Entry.weight?, own, ih]

variable [Weight W] {potentials others : Array W} {entry : Entry W} {entries : List (Entry W)}
  {s n : Nat}

theorem eq_of_get (size : potentials.size = others.size)
    (same : ∀ s, get potentials s = get others s) : potentials = others := by
  apply Array.ext size
  intro s left right
  have here := same s
  rwa [get, get, Array.getElem?_eq_getElem left, Array.getElem?_eq_getElem right,
    Option.getD_some, Option.getD_some] at here

theorem getElem?_eq_get (inside : s < potentials.size) :
    potentials[s]? = some (get potentials s) := by
  rw [get, Array.getElem?_eq_getElem inside, Option.getD_some]

theorem extend_size (potentials : Array W) (entry : Entry W) :
    (extend potentials entry).size = max potentials.size (entry.state + 1) := by
  simp only [extend, Array.size_setIfInBounds, Array.size_append, Array.size_replicate]
  omega

-- The entry's state has the entry's weight, and every other state the potential it had,
-- which is zero where it had none.
theorem get_extend (potentials : Array W) (entry : Entry W) (s : Nat) :
    get (extend potentials entry) s = if entry.state = s then entry.weight else get potentials s := by
  have size := extend_size potentials entry
  unfold get extend
  unfold extend at size
  rw [Array.getElem?_setIfInBounds]
  split
  · rw [if_pos]
    · rfl
    · rw [Array.size_setIfInBounds] at size
      omega
  · by_cases old : s < potentials.size
    · rw [Array.getElem?_append_left old]
    · have beyond : potentials.size ≤ s := Nat.le_of_not_lt old
      rw [Array.getElem?_append_right beyond, Array.getElem?_eq_none beyond,
        Array.getElem?_replicate]
      split <;> rfl

theorem foldl_extend_size_le (potentials : Array W) (entries : List (Entry W)) :
    (entries.foldl extend potentials).size ≤ n ↔
      potentials.size ≤ n ∧ ∀ entry ∈ entries, entry.state < n := by
  induction entries generalizing potentials with
  | nil => simp
  | cons entry rest ih =>
    rw [List.foldl_cons, ih, extend_size, List.forall_mem_cons, ← and_assoc]
    refine and_congr_left fun _ => ?_
    omega

theorem get_foldl_extend (potentials : Array W) (entries : List (Entry W)) (s : Nat) :
    get (entries.foldl extend potentials) s =
      (entries.filterMap (Entry.weight? s)).getLast?.getD (get potentials s) := by
  induction entries generalizing potentials with
  | nil => rfl
  | cons entry rest ih =>
    rw [List.foldl_cons, ih, get_extend, List.filterMap_cons]
    by_cases own : entry.state = s
    · simp [Entry.weight?, own, List.getLast?_cons]
    · simp [Entry.weight?, own]

theorem ofEntries_toArray (entries : List (Entry W)) :
    ofEntries entries.toArray = entries.foldl extend #[] := by
  simp [ofEntries]

-- What entries make of potentials of which nothing is known before.
structure Gathered (entries : List (Entry W)) (potentials : Array W) : Prop where
  size : entries = [] ∧ potentials = #[] ∨
    ∃ last, IsGreatest {s | ∃ entry ∈ entries, entry.state = s} last ∧ potentials.size = last + 1
  listed : ∀ before entry after, entries = before ++ entry :: after →
    (∀ later ∈ after, later.state ≠ entry.state) → potentials[entry.state]? = some entry.weight
  unlisted : ∀ s < potentials.size, (∀ entry ∈ entries, entry.state ≠ s) →
    potentials[s]? = some Weight.zero

theorem ofEntries_gathered (entries : List (Entry W)) :
    Gathered entries (ofEntries entries.toArray) := by
  rw [ofEntries_toArray]
  have bound := fun n => foldl_extend_size_le (n := n) (#[] : Array W) entries
  have reads := get_foldl_extend (#[] : Array W) entries
  generalize entries.foldl extend #[] = potentials at bound reads
  have inside := ((bound potentials.size).mp (Nat.le_refl _)).2
  refine ⟨?_, ?_, ?_⟩
  · by_cases empty : potentials.size = 0
    · refine .inl ⟨?_, Array.eq_empty_of_size_eq_zero empty⟩
      refine List.eq_nil_iff_forall_not_mem.mpr fun entry present => ?_
      have below := inside entry present
      omega
    · -- Were every listed state below the last, the last would not have come into being.
      have last : ∃ entry ∈ entries, entry.state = potentials.size - 1 := by
        refine Classical.byContradiction fun none => ?_
        have smaller := (bound (potentials.size - 1)).mpr ⟨Nat.zero_le _, fun entry present => by
          have below := inside entry present
          have other : entry.state ≠ potentials.size - 1 := fun same => none ⟨entry, present, same⟩
          omega⟩
        omega
      refine .inr ⟨potentials.size - 1, ⟨last, ?_⟩, by omega⟩
      rintro s ⟨entry, present, rfl⟩
      have below := inside entry present
      omega
  · intro before entry after split last
    have present : entry ∈ entries := by simp [split]
    have own : Entry.weight? entry.state entry = some entry.weight := if_pos rfl
    rw [getElem?_eq_get (inside entry present), reads, split, List.filterMap_append,
      List.filterMap_cons_some own, filterMap_unlisted last]
    simp
  · intro s within unlisted
    rw [getElem?_eq_get within, reads, filterMap_unlisted unlisted]
    rfl

-- The entries of every state are in the same order, whatever order the states are in.
def Reordered (entries others : List (Entry W)) : Prop :=
  ∀ s, others.filter (fun entry => entry.state = s) = entries.filter fun entry => entry.state = s

theorem ofEntries_reordered {others : List (Entry W)} (same : Reordered entries others) :
    ofEntries others.toArray = ofEntries entries.toArray := by
  have listed : ∀ entry, entry ∈ others ↔ entry ∈ entries := by
    intro entry
    have here := congrArg (entry ∈ ·) (same entry.state)
    simpa using here
  rw [ofEntries_toArray, ofEntries_toArray]
  apply eq_of_get
  · apply Nat.le_antisymm
    · rw [foldl_extend_size_le]
      simp only [listed]
      exact (foldl_extend_size_le _ _).mp (Nat.le_refl _)
    · rw [foldl_extend_size_le]
      simp only [← listed]
      exact (foldl_extend_size_le _ _).mp (Nat.le_refl _)
  · intro s
    rw [get_foldl_extend, get_foldl_extend, filterMap_weight?, filterMap_weight?, same]

end WeightedAutomata.Potential
