import Mathlib.Logic.Function.Basic
import WeightedAutomata.Command.Files

namespace WeightedAutomata.Command
variable {σ Place Draft ε ε' α β : Type}

-- A path leads to a place whether or not a file is there, and the same place is read and
-- replaced by it. A path of a directory leads to none.
structure Disk (Place : Type) where
  file : Place → Option ByteArray
  leads : String → Option Place

namespace Disk
variable [DecidableEq Place] {disk : Disk Place} {place : Place}

def content (disk : Disk Place) (path : String) : Option ByteArray :=
  (disk.leads path).bind disk.file

def set (disk : Disk Place) (place : Place) (content : Option ByteArray) : Disk Place :=
  { disk with file := Function.update disk.file place content }

@[simp] theorem set_same (content : Option ByteArray) :
    (disk.set place content).file place = content := by
  simp [set]

@[simp] theorem set_set (first content : Option ByteArray) :
    (disk.set place first).set place content = disk.set place content := by
  simp [set]

theorem set_of_eq {content : Option ByteArray} (same : disk.file place = content) :
    disk.set place content = disk := by
  simp [set, ← same]

end Disk

class Observed (σ : Type) (Place : outParam Type) where
  disk : σ → Disk Place
  printed : σ → String

export Observed (disk printed)

def Unchanged [Observed σ Place] (s t : σ) : Prop :=
  disk t = disk s ∧ printed t = printed s

theorem Unchanged.refl [Observed σ Place] (s : σ) : Unchanged s s :=
  ⟨rfl, rfl⟩

theorem Unchanged.trans [Observed σ Place] {s t u : σ} (before : Unchanged s t)
    (after : Unchanged t u) : Unchanged s u :=
  ⟨after.1.trans before.1, after.2.trans before.2⟩

def Ends (action : StateM σ (Except ε α)) (s : σ) (done : α → σ → Prop) (failed : ε → σ → Prop) :
    Prop :=
  match (action.run s : Except ε α × σ) with
  | (.ok value, t) => done value t
  | (.error error, t) => failed error t

namespace Ends
variable {s t : σ} {done done' : α → σ → Prop} {failed failed' : ε → σ → Prop}

theorem result {action : StateM σ (Except ε α)} {value : α} (ends : Ends action s done failed)
    (ran : action.run s = (.ok value, t)) : done value t := by
  rw [Ends, ran] at ends
  exact ends

theorem error {action : StateM σ (Except ε α)} {error : ε} (ends : Ends action s done failed)
    (ran : action.run s = (.error error, t)) : failed error t := by
  rw [Ends, ran] at ends
  exact ends

theorem of_run {action : StateM σ (Except ε α)}
    (succeeds : ∀ value t, action.run s = (.ok value, t) → done value t)
    (fails : ∀ error t, action.run s = (.error error, t) → failed error t) :
    Ends action s done failed := by
  unfold Ends
  cases ran : action.run s with
  | mk result t =>
    cases result with
    | ok value => exact succeeds value t ran
    | error error => exact fails error t ran

theorem mono {action : StateM σ (Except ε α)} (ends : Ends action s done failed)
    (onDone : ∀ value t, done value t → done' value t)
    (onFailed : ∀ error t, failed error t → failed' error t) : Ends action s done' failed' :=
  of_run (fun value t ran => onDone value t (ends.result ran))
    fun error t ran => onFailed error t (ends.error ran)

theorem always {action : StateM σ (Except ε α)} {P : σ → Prop}
    (ends : Ends action s (fun _ t => P t) fun _ t => P t) : P (action.run s).2 := by
  revert ends
  unfold Ends
  cases action.run s with
  | mk result t => cases result <;> exact id

theorem bind {action : ExceptT ε (StateM σ) α} {next : α → ExceptT ε (StateM σ) β}
    {done : β → σ → Prop}
    (ends : Ends action.run s (fun value t => Ends (next value).run t done failed) failed) :
    Ends (action >>= next).run s done failed := by
  revert ends
  simp only [Ends, ExceptT.run_bind, StateT.run_bind]
  cases StateT.run action.run s with
  | mk result t => cases result <;> exact id

theorem attempt {action : StateM σ (Except ε' α)} {next : Except ε' α → ExceptT ε (StateM σ) β}
    {done : β → σ → Prop}
    (ends : Ends action s (fun value t => Ends (next (.ok value)).run t done failed)
      (fun error t => Ends (next (.error error)).run t done failed)) :
    Ends (do let result ← action; next result : ExceptT ε (StateM σ) β).run s done failed := by
  have ran : (do let result ← action; next result : ExceptT ε (StateM σ) β).run.run s =
      (next (action.run s).1).run.run (action.run s).2 := rfl
  revert ends
  rw [Ends, Ends, ran]
  cases action.run s with
  | mk result t => cases result <;> exact id

theorem ofExcept {result : Except ε α} (succeeds : ∀ value, result = .ok value → done value s)
    (fails : ∀ error, result = .error error → failed error s) :
    Ends (liftM result : ExceptT ε (StateM σ) α).run s done failed := by
  cases result with
  | ok value => exact succeeds value rfl
  | error error => exact fails error rfl

theorem adapt {action : ExceptT ε' (StateM σ) α} {rename : ε' → ε}
    (ends : Ends action.run s done (fun error t => failed (rename error) t)) :
    Ends (action.adapt rename).run s done failed := by
  have ran : (action.adapt rename).run.run s =
      ((action.run.run s).1.mapError rename, (action.run.run s).2) := rfl
  revert ends
  rw [Ends, Ends, ran]
  cases StateT.run action.run s with
  | mk result t => cases result <;> exact id

end Ends

-- Nothing is said of when the actions come off. A draft is a new file; it disappears when
-- it is discarded, and it replaces another in one step or not at all. Only drafts and what
-- is printed can be left half done.
class Machine (σ : Type) (Place Draft : outParam Type) [DecidableEq Place] [Files (StateM σ) Draft]
    extends Observed σ Place where
  place : Draft → Place
  Open : Draft → σ → Prop
  read_ends : ∀ path s, Ends (Files.read path : StateM σ _) s
    (fun content t => Unchanged s t ∧ (disk s).content path = some content)
    (fun _ t => Unchanged s t)
  openDraft_ends : ∀ directory s, Ends (Files.openDraft directory : StateM σ _) s
    (fun draft t => Open draft t ∧ (disk s).file (place draft) = none ∧
      disk t = (disk s).set (place draft) (some ByteArray.empty) ∧ printed t = printed s)
    (fun _ t => Unchanged s t)
  fill_ends : ∀ draft text s, Open draft s → Ends (Files.fill draft text : StateM σ _) s
    (fun _ t => Open draft t ∧ disk t = (disk s).set (place draft) (some text.toUTF8) ∧
      printed t = printed s)
    (fun _ t => Open draft t ∧ (∃ content, disk t = (disk s).set (place draft) (some content)) ∧
      printed t = printed s)
  publish_ends : ∀ draft path s, Open draft s → Ends (Files.publish draft path : StateM σ _) s
    (fun _ t => (∃ target, (disk s).leads path = some target ∧
        disk t = ((disk s).set (place draft) none).set target ((disk s).file (place draft))) ∧
      printed t = printed s)
    (fun _ t => Open draft t ∧ Unchanged s t)
  discard_ends : ∀ draft s, Open draft s →
    let t := ((Files.discard draft : StateM σ Unit).run s).2
    disk t = (disk s).set (place draft) none ∧ printed t = printed s
  print_ends : ∀ text s, Ends (Files.print text : StateM σ _) s
    (fun _ t => disk t = disk s ∧ printed t = printed s ++ text)
    (fun _ t => disk t = disk s)

-- Something that goes wrong, and how many characters of a text are written before.
structure Mishap where
  fault : FileFault
  written : Nat

-- A machine on which any action can go wrong, by a list of what happens to each in turn.
structure Faulty (σ : Type) where
  machine : σ
  mishaps : List (Option Mishap)

namespace Faulty
variable {s : Faulty σ}

def hinder (refuse : FileFault → ε) (action : StateM σ (Except ε α)) (part : Nat → σ → σ) :
    StateM (Faulty σ) (Except ε α) := fun s =>
  match s.mishaps.head?.join with
  | none =>
    let (result, next) := action.run s.machine
    (result, ⟨next, s.mishaps.tail⟩)
  | some mishap => (.error (refuse mishap.fault), ⟨part mishap.written s.machine, s.mishaps.tail⟩)

theorem hinder_ends {refuse : FileFault → ε} {action : StateM σ (Except ε α)}
    {part : Nat → σ → σ} {done : α → σ → Prop} {failed : σ → Prop}
    (ends : Ends action s.machine done fun _ t => failed t)
    (parts : ∀ n, failed (part n s.machine)) :
    Ends (hinder refuse action part) s (fun value t => done value t.machine)
      (fun _ t => failed t.machine) := by
  unfold Ends at ends ⊢
  cases next : s.mishaps.head?.join with
  | none =>
    have ran : (hinder refuse action part).run s =
        ((action.run s.machine).1, ⟨(action.run s.machine).2, s.mishaps.tail⟩) := by
      simp only [hinder, StateT.run, next]
      rfl
    revert ends
    rw [ran]
    cases action.run s.machine with
    | mk result t => cases result <;> exact id
  | some mishap =>
    have ran : (hinder refuse action part).run s =
        (.error (refuse mishap.fault), ⟨part mishap.written s.machine, s.mishaps.tail⟩) := by
      simp only [hinder, StateT.run, next]
    rw [ran]
    exact parts mishap.written

variable [DecidableEq Place] [Files (StateM σ) Draft]

def someOf (n : Nat) (text : String) : String :=
  String.ofList (text.toList.take n)

instance : Files (StateM (Faulty σ)) Draft where
  read path := hinder id (Files.read path) fun _ s => s
  openDraft directory := hinder (DraftFault.mk directory) (Files.openDraft directory) fun _ s => s
  draftName draft := Files.draftName (StateM σ) draft
  fill draft text := hinder id (Files.fill draft text) fun n s =>
    ((Files.fill draft (someOf n text) : StateM σ _).run s).2
  publish draft path := hinder id (Files.publish draft path) fun _ s => s
  discard draft := fun s =>
    ((), { s with machine := ((Files.discard draft : StateM σ _).run s.machine).2 })
  print text := hinder id (Files.print text) fun n s =>
    ((Files.print (someOf n text) : StateM σ _).run s).2

variable [machine : Machine σ Place Draft]

instance : Machine (Faulty σ) Place Draft where
  disk s := disk s.machine
  printed s := printed s.machine
  place := Machine.place σ
  Open draft s := machine.Open draft s.machine
  read_ends path s :=
    hinder_ends (machine.read_ends path s.machine) fun _ => Unchanged.refl s.machine
  openDraft_ends directory s :=
    hinder_ends (machine.openDraft_ends directory s.machine) fun _ => Unchanged.refl s.machine
  fill_ends draft text s opened := by
    apply hinder_ends (machine.fill_ends draft text s.machine opened)
    intro n
    apply Ends.always (P := fun t => machine.Open draft t ∧
      (∃ content, disk t = (disk s.machine).set (machine.place draft) (some content)) ∧
      printed t = printed s.machine)
    apply (machine.fill_ends draft (someOf n text) s.machine opened).mono
    · rintro _ t ⟨still, filled, shown⟩
      exact ⟨still, ⟨_, filled⟩, shown⟩
    · exact fun _ _ half => half
  publish_ends draft path s opened :=
    hinder_ends (machine.publish_ends draft path s.machine opened)
      fun _ => ⟨opened, Unchanged.refl s.machine⟩
  discard_ends draft s opened := machine.discard_ends draft s.machine opened
  print_ends text s := by
    apply hinder_ends (machine.print_ends text s.machine)
    intro n
    apply Ends.always (P := fun t => disk t = disk s.machine)
    apply (machine.print_ends (someOf n text) s.machine).mono
    · exact fun _ _ shown => shown.1
    · exact fun _ _ same => same

end Faulty
end WeightedAutomata.Command
