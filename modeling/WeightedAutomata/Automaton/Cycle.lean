import WeightedAutomata.Automaton.Basic

namespace WeightedAutomata.Automaton
variable {W : Type}

structure Search where
  seen : Array Bool
  waiting : List Nat

namespace Search

-- A round takes one state from those that wait, and a state waits only when it is first
-- seen, so the rounds come to an end.
def size (search : Search) : Nat :=
  2 * search.seen.count false + search.waiting.length

def visit (search : Search) (s : Nat) : Except MissingState Search :=
  match search.seen[s]? with
  | none => .error ⟨s⟩
  | some true => .ok search
  | some false => .ok ⟨search.seen.setIfInBounds s true, s :: search.waiting⟩

def follow (start : Nat) : Search → List (Arc W) → Except MissingState (Option Search)
  | search, [] => .ok (some search)
  | search, arc :: rest =>
    if arc.target = start then .ok none
    else match search.visit arc.target with
      | .error missing => .error missing
      | .ok next => follow start next rest

theorem count_mark {seen : Array Bool} {s : Nat} (unseen : seen[s]? = some false) :
    (seen.setIfInBounds s true).count false + 1 = seen.count false := by
  obtain ⟨inside, value⟩ := Array.getElem?_eq_some_iff.mp unseen
  have present : 0 < seen.count false :=
    Array.count_pos_iff.mpr (value ▸ Array.getElem_mem inside)
  simp only [Array.setIfInBounds, inside, dif_pos, Array.count_set, value]
  simp
  omega

theorem visit_size {search next : Search} {s : Nat} (visited : search.visit s = .ok next) :
    next.size ≤ search.size := by
  unfold visit at visited
  split at visited
  · cases visited
  · cases visited
    exact Nat.le_refl _
  · rename_i unseen
    cases visited
    have fewer := count_mark unseen
    simp only [size, List.length_cons]
    omega

theorem follow_size {start : Nat} {arcs : List (Arc W)} {search next : Search}
    (followed : follow start search arcs = .ok (some next)) : next.size ≤ search.size := by
  induction arcs generalizing search with
  | nil =>
    cases followed
    exact Nat.le_refl _
  | cons arc rest ih =>
    unfold follow at followed
    split at followed
    · cases followed
    · split at followed
      · cases followed
      · rename_i visited
        exact Nat.le_trans (ih followed) (visit_size visited)

theorem round_size {start s : Nat} {rest : List Nat} {arcs : List (Arc W)} {search next : Search}
    (waiting : search.waiting = s :: rest)
    (followed : follow start ⟨search.seen, rest⟩ arcs = .ok (some next)) :
    next.size < search.size := by
  have bound := follow_size followed
  simp only [size, waiting, List.length_cons] at bound ⊢
  omega

end Search

def searchFrom (a : Automaton W) (start : Nat) (search : Search) : Except MissingState Bool :=
  match waiting : search.waiting with
  | [] => .ok true
  | s :: rest =>
    match a.state s with
    | .error missing => .error missing
    | .ok state =>
      match followed : Search.follow start ⟨search.seen, rest⟩ state.arcs.toList with
      | .error missing => .error missing
      | .ok none => .ok false
      | .ok (some next) =>
        have := Search.round_size waiting followed
        a.searchFrom start next
termination_by search.size

def initialAcyclic (a : Automaton W) : Except MissingState Bool :=
  match a.start with
  | none => .ok true
  | some start => do
    let search ← Search.visit ⟨Array.replicate a.states.size false, []⟩ start
    a.searchFrom start search

end WeightedAutomata.Automaton
