import WeightedAutomata.Automaton.Cycle
import WeightedAutomata.Proofs.Automaton.Path

namespace WeightedAutomata.Automaton
variable {W : Type} {a : Automaton W}

namespace Search
variable {start s : Nat} {arcs : List (Arc W)} {search next : Search}

def Seen (search : Search) (s : Nat) : Prop :=
  search.seen[s]? = some true

theorem visit_spec (search : Search) (inside : s < search.seen.size) :
    ∃ next, search.visit s = .ok next ∧ next.seen.size = search.seen.size ∧
      (∀ q, next.Seen q ↔ search.Seen q ∨ s = q) ∧
      ∀ q, q ∈ next.waiting ↔ q ∈ search.waiting ∨ ¬ search.Seen q ∧ s = q := by
  have found : search.seen[s]? = some search.seen[s] := Array.getElem?_eq_getElem inside
  cases value : search.seen[s] with
  | true =>
    have seen : search.Seen s := by rw [Seen, found, value]
    refine ⟨search, by simp [visit, found, value], rfl, ?_, ?_⟩
    · intro q
      constructor
      · exact .inl
      · rintro (old | rfl)
        · exact old
        · exact seen
    · intro q
      constructor
      · exact .inl
      · rintro (old | ⟨unseen, rfl⟩)
        · exact old
        · exact absurd seen unseen
  | false =>
    have unseen : ¬ search.Seen s := by simp [Seen, found, value]
    refine ⟨⟨search.seen.setIfInBounds s true, s :: search.waiting⟩, ?_, by simp, ?_, ?_⟩
    · simp only [visit, found, value]
    · intro q
      by_cases same : s = q
      · subst q
        simp [Seen, inside]
      · simp [Seen, same]
    · intro q
      rw [List.mem_cons]
      constructor
      · rintro (rfl | old)
        · exact .inr ⟨unseen, rfl⟩
        · exact .inl old
      · rintro (old | ⟨-, rfl⟩)
        · exact .inr old
        · exact .inl rfl

structure Followed (start : Nat) (arcs : List (Arc W)) (search next : Search) : Prop where
  size : next.seen.size = search.seen.size
  away : ∀ arc ∈ arcs, arc.target ≠ start
  seen : ∀ q, next.Seen q ↔ search.Seen q ∨ ∃ arc ∈ arcs, arc.target = q
  waiting : ∀ q, q ∈ next.waiting ↔
    q ∈ search.waiting ∨ ¬ search.Seen q ∧ ∃ arc ∈ arcs, arc.target = q

theorem follow_cases (start : Nat) (inside : ∀ arc ∈ arcs, arc.target < search.seen.size) :
    (follow start search arcs = .ok none ∧ ∃ arc ∈ arcs, arc.target = start) ∨
      ∃ next, follow start search arcs = .ok (some next) ∧ Followed start arcs search next := by
  induction arcs generalizing search with
  | nil => exact .inr ⟨search, rfl, rfl, by simp, by simp, by simp⟩
  | cons arc rest ih =>
    by_cases back : arc.target = start
    · exact .inl ⟨by simp [follow, back], arc, by simp, back⟩
    · obtain ⟨middle, visited, size, seen, waiting⟩ := visit_spec search (inside arc (by simp))
      have restInside : ∀ later ∈ rest, later.target < middle.seen.size := by
        intro later present
        rw [size]
        exact inside later (List.mem_cons_of_mem _ present)
      have step : follow start search (arc :: rest) = follow start middle rest := by
        simp [follow, back, visited]
      rw [step]
      rcases ih restInside with ⟨returned, later, present, same⟩ | ⟨next, followed, facts⟩
      · exact .inl ⟨returned, later, List.mem_cons_of_mem _ present, same⟩
      · refine .inr ⟨next, followed, facts.size.trans size, ?_, ?_, ?_⟩
        · intro later present
          rcases List.mem_cons.mp present with rfl | old
          · exact back
          · exact facts.away later old
        · intro q
          rw [facts.seen, seen, or_assoc]
          simp
        · intro q
          rw [facts.waiting, waiting, seen]
          simp only [List.mem_cons, exists_eq_or_imp]
          by_cases here : arc.target = q <;> simp [here]

-- What a search under way knows. The states that were followed lead only to states
-- that have been seen, none of them the start; so once no state waits, all that the
-- start leads to has been followed.
structure Explored (a : Automaton W) (start : Nat) (search : Search) : Prop where
  size : search.seen.size = a.states.size
  begun : search.Seen start
  waits : ∀ s ∈ search.waiting, search.Seen s
  found : ∀ s, search.Seen s → Relation.ReflTransGen a.Step start s
  followed : ∀ s, search.Seen s → s ∈ search.waiting ∨ ∀ t, a.Step s t → search.Seen t ∧ t ≠ start

theorem Explored.bounded (explored : Explored a start search) (seen : search.Seen s) :
    s < a.states.size := by
  obtain ⟨inside, -⟩ := Array.getElem?_eq_some_iff.mp seen
  exact explored.size ▸ inside

theorem step_of_mem {state : State W} {arc : Arc W} (found : a.states[s]? = some state)
    (present : arc ∈ state.arcs) : a.Step s arc.target := by
  obtain ⟨i, inside, rfl⟩ := Array.mem_iff_getElem.mp present
  exact ⟨i, _, arc?_eq_some.mpr ⟨state, found, Array.getElem?_eq_getElem inside⟩, rfl⟩

theorem step_iff_mem {state : State W} {t : Nat} (found : a.states[s]? = some state) :
    a.Step s t ↔ ∃ arc ∈ state.arcs.toList, arc.target = t := by
  constructor
  · rintro ⟨i, arc, arcFound, rfl⟩
    obtain ⟨other, otherFound, position⟩ := arc?_eq_some.mp arcFound
    cases found.symm.trans otherFound
    exact ⟨arc, Array.mem_def.mp (Array.mem_of_getElem? position), rfl⟩
  · rintro ⟨arc, present, rfl⟩
    exact step_of_mem found (Array.mem_def.mpr present)

theorem Explored.round {state : State W} {rest : List Nat} (explored : Explored a start search)
    (waiting : search.waiting = s :: rest) (stateFound : a.states[s]? = some state)
    (facts : Followed start state.arcs.toList ⟨search.seen, rest⟩ next) :
    Explored a start next := by
  have current : search.Seen s := explored.waits s (by simp [waiting])
  have same : ∀ q, Seen ⟨search.seen, rest⟩ q ↔ search.Seen q := fun _ => Iff.rfl
  refine ⟨facts.size.trans explored.size, ?_, ?_, ?_, ?_⟩
  · exact (facts.seen start).mpr (.inl explored.begun)
  · intro q present
    rw [facts.seen]
    rcases (facts.waiting q).mp present with old | ⟨-, target⟩
    · exact .inl (explored.waits q (by simp [waiting, show q ∈ rest from old]))
    · exact .inr target
  · intro q seen
    rcases (facts.seen q).mp seen with old | target
    · exact explored.found q old
    · exact (explored.found s current).tail ((step_iff_mem stateFound).mpr target)
  · intro q seen
    have grows : ∀ t, search.Seen t → next.Seen t := fun t old => (facts.seen t).mpr (.inl old)
    by_cases old : search.Seen q
    · by_cases followedNow : q = s
      · subst q
        refine .inr fun t step => ?_
        obtain ⟨arc, present, target⟩ := (step_iff_mem stateFound).mp step
        exact ⟨(facts.seen t).mpr (.inr ⟨arc, present, target⟩), target ▸ facts.away arc present⟩
      · rcases explored.followed q old with waits | done
        · have inRest : q ∈ rest := by simpa [waiting, followedNow] using waits
          exact .inl ((facts.waiting q).mpr (.inl inRest))
        · exact .inr fun t step => ⟨grows t (done t step).1, (done t step).2⟩
    · rcases (facts.seen q).mp seen with impossible | target
      · exact absurd impossible old
      · exact .inl ((facts.waiting q).mpr (.inr ⟨old, target⟩))

theorem Explored.not_onCycle (explored : Explored a start search) (settled : search.waiting = []) :
    ¬ a.OnCycle start := by
  have away : ∀ s, search.Seen s → ∀ t, a.Step s t → search.Seen t ∧ t ≠ start := by
    intro s seen
    rcases explored.followed s seen with waits | done
    · simp [settled] at waits
    · exact done
  have kept : ∀ t, Relation.TransGen a.Step start t → search.Seen t ∧ t ≠ start := by
    intro t path
    induction path with
    | single step => exact away start explored.begun _ step
    | tail _ step ih => exact away _ ih.1 _ step
  intro cycle
  exact (kept start cycle).2 rfl

end Search
open Search
variable {start : Nat} {search : Search}

theorem searchFrom_cases (closed : a.Closed) (explored : Explored a start search) :
    (a.searchFrom start search = .ok true ∧ ¬ a.OnCycle start) ∨
      (a.searchFrom start search = .ok false ∧ a.OnCycle start) := by
  induction rounds : search.size using Nat.strongRecOn generalizing search with
  | ind n ih =>
    rw [searchFrom]
    split
    · rename_i settled
      exact .inl ⟨rfl, explored.not_onCycle settled⟩
    · rename_i s rest waiting
      have seen : search.Seen s := explored.waits s (by simp [waiting])
      have bound := explored.bounded seen
      have stateFound := Array.getElem?_eq_getElem bound
      have inside : ∀ arc ∈ a.states[s].arcs.toList,
          arc.target < (Search.mk search.seen rest).seen.size := by
        intro arc present
        change arc.target < search.seen.size
        rw [explored.size]
        exact closed.targets _ (Array.getElem_mem _) arc (Array.mem_def.mpr present)
      simp only [state, stateFound]
      rcases follow_cases start inside with ⟨returned, target⟩ | ⟨next, followed, facts⟩
      · refine .inr ⟨by split <;> simp_all, ?_⟩
        exact .tail' (explored.found s seen) ((step_iff_mem stateFound).mpr target)
      · have fewer := Search.round_size waiting followed
        have result := ih next.size (rounds ▸ fewer) (explored.round waiting stateFound facts) rfl
        split <;> simp_all

theorem initialAcyclic_cases (closed : a.Closed) (begins : a.start = some start) :
    (a.initialAcyclic = .ok true ∧ ¬ a.OnCycle start) ∨
      (a.initialAcyclic = .ok false ∧ a.OnCycle start) := by
  have inside : start < (Array.replicate a.states.size false).size := by
    simpa using closed.start start begins
  obtain ⟨search, visited, size, seen, waiting⟩ :=
    visit_spec ⟨Array.replicate a.states.size false, []⟩ inside
  have fresh : ∀ q, ¬ Seen ⟨Array.replicate a.states.size false, []⟩ q := by
    intro q
    simp [Seen, Array.getElem?_replicate]
  have onlyStart : ∀ q, search.Seen q ↔ start = q := by
    intro q
    rw [seen]
    simp [fresh]
  have explored : Explored a start search := by
    refine ⟨by simpa using size, (onlyStart start).mpr rfl, ?_, ?_, ?_⟩
    · intro q present
      rcases (waiting q).mp present with old | ⟨-, same⟩
      · cases old
      · exact (onlyStart q).mpr same
    · intro q present
      cases (onlyStart q).mp present
      exact .refl
    · intro q present
      exact .inl ((waiting q).mpr (.inr ⟨fresh q, (onlyStart q).mp present⟩))
  have runs : a.initialAcyclic = a.searchFrom start search := by
    simp [initialAcyclic, begins, visited, bind, Except.bind]
  rw [runs]
  exact searchFrom_cases closed explored

end WeightedAutomata.Automaton
