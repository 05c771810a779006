import WeightedAutomata.Proofs.Automaton.Cycle
import WeightedAutomata.Proofs.Weight.Flag

namespace WeightedAutomata.Automaton
variable {W V : Type} {a : Automaton W} {b : Automaton V} {start s t : Nat}

namespace Search
variable {search next : Search} {arcs : List (Arc W)} {state : State W} {rest visited : List Nat}
  {acyclic : Bool}

-- The rounds that are left at most: one for each state that waits or has not been seen.
def budget (search : Search) : Nat :=
  search.seen.count false + search.waiting.length

-- A state that begins to wait has been unseen, so that it is counted either way.
theorem visit_budget (ran : search.visit s = .ok next) : next.budget = search.budget := by
  unfold visit at ran
  split at ran
  · cases ran
  · cases ran
    rfl
  · rename_i unseen
    cases ran
    have fewer := count_mark unseen
    simp only [budget, List.length_cons]
    omega

theorem follow_budget (ran : follow start search arcs = .ok (some next)) :
    next.budget = search.budget := by
  induction arcs generalizing search with
  | nil =>
    cases ran
    rfl
  | cons arc rest ih =>
    unfold follow at ran
    split at ran
    · cases ran
    · split at ran
      · cases ran
      · rename_i middle entered
        exact (ih ran).trans (visit_budget entered)

inductive Run (a : Automaton W) (start : Nat) : Search → List Nat → Bool → Prop where
  | settled {search : Search} (settled : search.waiting = []) : Run a start search [] true
  | back {search : Search} {s : Nat} {rest : List Nat} {state : State W}
      (waiting : search.waiting = s :: rest) (found : a.states[s]? = some state)
      (ran : follow start ⟨search.seen, rest⟩ state.arcs.toList = .ok none) :
      Run a start search [s] false
  | onward {search next : Search} {s : Nat} {rest visited : List Nat} {state : State W}
      {acyclic : Bool} (waiting : search.waiting = s :: rest) (found : a.states[s]? = some state)
      (ran : follow start ⟨search.seen, rest⟩ state.arcs.toList = .ok (some next))
      (later : Run a start next visited acyclic) : Run a start search (s :: visited) acyclic

theorem Run.length_le (run : Run a start search visited acyclic) :
    visited.length ≤ search.budget := by
  induction run with
  | settled => exact Nat.zero_le _
  | back waiting _ _ =>
    simp only [budget, waiting, List.length_cons, List.length_nil]
    omega
  | onward waiting _ ran _ ih =>
    have kept := follow_budget ran
    simp only [budget, waiting, List.length_cons] at kept ih ⊢
    omega

theorem searchFrom_settled (settled : search.waiting = []) :
    a.searchFrom start search = .ok true := by
  rw [searchFrom]
  split
  · rfl
  · rename_i waiting
    rw [settled] at waiting
    cases waiting

theorem searchFrom_waiting (waiting : search.waiting = s :: rest)
    (found : a.states[s]? = some state) : a.searchFrom start search =
      match follow start ⟨search.seen, rest⟩ state.arcs.toList with
      | .error missing => .error missing
      | .ok none => .ok false
      | .ok (some next) => a.searchFrom start next := by
  rw [searchFrom]
  split
  · rename_i settled
    rw [settled] at waiting
    cases waiting
  · rename_i other tail taken
    rw [waiting] at taken
    cases taken
    simp only [Automaton.state, found]
    split <;> simp_all

theorem Run.searchFrom (run : Run a start search visited acyclic) :
    a.searchFrom start search = .ok acyclic := by
  induction run with
  | settled settled => exact searchFrom_settled settled
  | back waiting found ran => rw [searchFrom_waiting waiting found, ran]
  | onward waiting found ran _ ih =>
    rw [searchFrom_waiting waiting found, ran]
    exact ih

theorem exists_run (ran : a.searchFrom start search = .ok acyclic) :
    ∃ visited, Run a start search visited acyclic := by
  induction left : search.budget using Nat.strongRecOn generalizing search with
  | ind n ih =>
    cases waiting : search.waiting with
    | nil =>
      rw [searchFrom_settled waiting] at ran
      cases ran
      exact ⟨[], .settled waiting⟩
    | cons s rest =>
      cases found : a.states[s]? with
      | none =>
        rw [searchFrom] at ran
        split at ran <;> simp_all [Automaton.state]
      | some state =>
        rw [searchFrom_waiting waiting found] at ran
        split at ran
        · cases ran
        · rename_i followed
          cases ran
          exact ⟨[s], .back waiting found followed⟩
        · rename_i next followed
          have kept := follow_budget followed
          have fewer : next.budget < n := by
            simp only [budget, waiting, List.length_cons] at kept left ⊢
            omega
          obtain ⟨visited, later⟩ := ih next.budget fewer ran rfl
          exact ⟨s :: visited, .onward waiting found followed later⟩

def begun (a : Automaton W) (start : Nat) : Search :=
  ⟨(Array.replicate a.states.size false).setIfInBounds start true, [start]⟩

theorem visit_begun (inside : start < a.states.size) :
    visit ⟨Array.replicate a.states.size false, []⟩ start = .ok (begun a start) := by
  simp [visit, begun, inside]

theorem begun_budget (inside : start < a.states.size) : (begun a start).budget = a.states.size := by
  rw [visit_budget (visit_begun inside)]
  simp [budget]

end Search
open Search

def Returns (a : Automaton W) (s : Nat) : Prop :=
  ∃ path arcs, path ≠ [] ∧ a.walk? s path = some arcs ∧ reached s arcs = s

theorem reached_of_walk {path : Path} {arcs : List (Arc W)} (some : path ≠ [])
    (walked : a.walk? s path = .some arcs) : Relation.TransGen a.Step s (reached s arcs) := by
  induction path generalizing s arcs with
  | nil => exact absurd rfl some
  | cons i path ih =>
    obtain ⟨arc, rest, found, onward, rfl⟩ := walk?_cons.mp walked
    have first : a.Step s arc.target := ⟨i, arc, found, rfl⟩
    cases path with
    | nil =>
      cases onward
      exact .single first
    | cons j path => exact .head first (ih (by simp) onward)

theorem walk_of_transGen (steps : Relation.TransGen a.Step s t) :
    ∃ path arcs, path ≠ [] ∧ a.walk? s path = some arcs ∧ reached s arcs = t := by
  induction steps using Relation.TransGen.head_induction_on with
  | single step =>
    obtain ⟨i, arc, found, same⟩ := step
    exact ⟨[i], [arc], by simp, walk?_cons.mpr ⟨arc, [], found, rfl, rfl⟩, same⟩
  | head step _ ih =>
    obtain ⟨i, arc, found, rfl⟩ := step
    obtain ⟨path, arcs, _, walked, same⟩ := ih
    exact ⟨i :: path, arc :: arcs, by simp, walk?_cons.mpr ⟨arc, arcs, found, walked, rfl⟩, same⟩

theorem returns_iff : a.Returns s ↔ a.OnCycle s := by
  constructor
  · rintro ⟨path, arcs, some, walked, same⟩
    have steps := reached_of_walk some walked
    rwa [same] at steps
  · exact walk_of_transGen

-- Another automaton that keeps all ways from `start` and adds only such that come by, from a
-- state in reach, at another one in reach: arcs beside others, loops and cycles elsewhere.
-- Of states out of reach nothing is said.
structure Detoured (start : Nat) (a : Automaton W) (b : Automaton V) : Prop where
  kept : ∀ s t, Relation.ReflTransGen a.Step start s → a.Step s t → b.Step s t
  added : ∀ s t, Relation.ReflTransGen a.Step start s → b.Step s t →
    a.Step s t ∨ t ≠ start ∧ Relation.ReflTransGen a.Step start t

namespace Detoured

theorem inReach (detoured : Detoured start a b) (steps : Relation.TransGen b.Step start t) :
    Relation.ReflTransGen a.Step start t ∧ (t = start → a.OnCycle start) := by
  have onward : ∀ s t, Relation.ReflTransGen a.Step start s → b.Step s t →
      Relation.ReflTransGen a.Step start t ∧ (t = start → a.OnCycle start) := by
    intro s t reach step
    rcases detoured.added s t reach step with old | ⟨other, known⟩
    · refine ⟨reach.tail old, ?_⟩
      rintro rfl
      exact .tail' reach old
    · exact ⟨known, fun same => absurd same other⟩
  induction steps with
  | single step => exact onward start _ .refl step
  | tail _ step ih => exact onward _ _ ih.1 step

theorem onCycle_iff (detoured : Detoured start a b) : b.OnCycle start ↔ a.OnCycle start := by
  constructor
  · intro cycle
    exact (detoured.inReach cycle).2 rfl
  · intro cycle
    have kept : ∀ t, Relation.TransGen a.Step start t → Relation.TransGen b.Step start t := by
      intro t steps
      induction steps with
      | single step => exact .single (detoured.kept _ _ .refl step)
      | tail before step ih => exact ih.tail (detoured.kept _ _ before.to_reflTransGen step)
    exact kept start cycle

end Detoured

theorem initialAcyclic_run (inside : start < a.states.size) (begins : a.start = some start) :
    a.initialAcyclic = a.searchFrom start (begun a start) := by
  simp [initialAcyclic, begins, visit_begun inside, bind, Except.bind]

theorem initialAcyclic_started (closed : a.Closed) (begins : a.start = some start) :
    ∃ acyclic, a.initialAcyclic = .ok acyclic ∧ (acyclic = true ↔ ¬ a.OnCycle start) := by
  rcases initialAcyclic_cases closed begins with ⟨found, away⟩ | ⟨found, cycle⟩
  · exact ⟨true, found, by simp [away]⟩
  · exact ⟨false, found, by simp [cycle]⟩

theorem initialAcyclic_unstarted (unstarted : a.start = none) : a.initialAcyclic = .ok true := by
  rw [initialAcyclic, unstarted]

-- The search ends after a round for each state at the latest, and it answers whether no
-- arcs lead from the start back to it.
theorem initialAcyclic_exact (closed : a.Closed) :
    ∃ acyclic, a.initialAcyclic = .ok acyclic ∧
      (acyclic = true ↔ ∀ start, a.start = some start → ¬ a.Returns start) ∧
      (∀ start, a.start = some start →
        ∃ visited, Run a start (begun a start) visited acyclic ∧
          visited.length ≤ a.states.size) ∧
      ∀ {V : Type} (b : Automaton V), b.Closed → b.start = a.start →
        (∀ start, a.start = some start → Detoured start a b) → b.initialAcyclic = .ok acyclic := by
  cases begins : a.start with
  | none =>
    refine ⟨true, initialAcyclic_unstarted begins, by simp, by simp, ?_⟩
    intro V b _ same _
    exact initialAcyclic_unstarted same
  | some start =>
    have inside := closed.start start begins
    obtain ⟨acyclic, answered, exact⟩ := initialAcyclic_started closed begins
    refine ⟨acyclic, answered, ?_, ?_, ?_⟩
    · simp [exact, returns_iff]
    · intro other same
      cases same
      rw [initialAcyclic_run inside begins] at answered
      obtain ⟨visited, run⟩ := exists_run answered
      exact ⟨visited, run, begun_budget inside ▸ run.length_le⟩
    · intro V b bClosed bBegins detoured
      obtain ⟨other, bAnswered, bExact⟩ := initialAcyclic_started bClosed bBegins
      have same : other = true ↔ acyclic = true := by
        rw [bExact, exact, (detoured start rfl).onCycle_iff]
      rw [bAnswered, Bool.eq_iff_iff.mpr same]

theorem step_inside (closed : a.Closed) (step : a.Step s t) :
    s < a.states.size ∧ t < a.states.size := by
  obtain ⟨i, arc, found, rfl⟩ := step
  exact ⟨arc?_source found, arc?_target closed found⟩

instance : DecidableRel a.Step :=
  fun s t => decidable_of_iff
    (∃ state ∈ a.states[s]?, ∃ arc ∈ state.arcs.toList, arc.target = t) (by
      constructor
      · rintro ⟨state, found, target⟩
        exact (step_iff_mem found).mpr target
      · rintro ⟨i, arc, found, target⟩
        obtain ⟨state, stateFound, _⟩ := arc?_eq_some.mp found
        exact ⟨state, stateFound, (step_iff_mem stateFound).mp ⟨i, arc, found, target⟩⟩)

def straight : Automaton Flag where
  states := #[⟨⟨false⟩, #[⟨1, 1, ⟨true⟩, 1⟩]⟩, ⟨⟨false⟩, #[⟨2, 2, ⟨true⟩, 2⟩]⟩, ⟨⟨true⟩, #[]⟩]
  start := some 0

-- The same with a second arc to the state in the middle, a loop there and a way back to it,
-- and with a state out of reach that leads to the start.
def roundabout : Automaton Flag where
  states := #[⟨⟨false⟩, #[⟨1, 1, ⟨true⟩, 1⟩, ⟨3, 3, ⟨true⟩, 1⟩]⟩,
    ⟨⟨false⟩, #[⟨4, 4, ⟨true⟩, 1⟩, ⟨2, 2, ⟨true⟩, 2⟩]⟩, ⟨⟨true⟩, #[⟨5, 5, ⟨true⟩, 1⟩]⟩,
    ⟨⟨false⟩, #[⟨6, 6, ⟨true⟩, 0⟩]⟩]
  start := some 0

theorem straight_exact :
    straight.Closed ∧ roundabout.Closed ∧ Detoured 0 straight roundabout ∧
      straight.initialAcyclic = .ok true ∧ ¬ straight.Returns 0 ∧
      roundabout.initialAcyclic = .ok true := by
  have closed : straight.Closed := by decide
  have otherClosed : roundabout.Closed := by decide
  have middle : Relation.ReflTransGen straight.Step 0 1 :=
    .single (show straight.Step 0 1 by decide)
  have last : Relation.ReflTransGen straight.Step 0 2 :=
    middle.tail (show straight.Step 1 2 by decide)
  have inside : ∀ s, Relation.ReflTransGen straight.Step 0 s → s < 3 := by
    intro s reach
    cases reach with
    | refl => decide
    | tail _ step => exact (step_inside closed step).2
  have keeps : ∀ s < 3, ∀ t < 3, straight.Step s t → roundabout.Step s t := by decide
  have leads : ∀ s < 3, ∀ t < 4, roundabout.Step s t → t = 1 ∨ t = 2 := by decide
  have detoured : Detoured 0 straight roundabout := by
    refine ⟨?_, ?_⟩
    · intro s t _ step
      obtain ⟨source, target⟩ := step_inside closed step
      exact keeps s source t target step
    · intro s t reach step
      rcases leads s (inside s reach) t (step_inside otherClosed step).2 step with rfl | rfl
      · exact .inr ⟨by decide, middle⟩
      · exact .inr ⟨by decide, last⟩
  obtain ⟨acyclic, answered, exact, -, same⟩ := initialAcyclic_exact closed
  have others : roundabout.initialAcyclic = .ok acyclic :=
    same roundabout otherClosed rfl (by rintro start begins; cases begins; exact detoured)
  have away : ¬ straight.Returns 0 := by
    have unentered : ∀ s < 3, ¬ straight.Step s 0 := by decide
    rw [returns_iff]
    intro cycle
    cases cycle with
    | single step => exact unentered 0 (by decide) step
    | tail _ step => exact unentered _ (step_inside closed step).1 step
  have found : acyclic = true := exact.mpr fun start begins => by
    cases begins
    exact away
  subst found
  exact ⟨closed, otherClosed, detoured, answered, away, others⟩

end WeightedAutomata.Automaton
