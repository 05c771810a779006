import Mathlib.Data.List.Nodup
import Mathlib.Data.List.Perm.Subperm
import WeightedAutomata.Command.Store
import WeightedAutomata.Proofs.Automaton.Read
import WeightedAutomata.Proofs.Command.Machine
import WeightedAutomata.Proofs.Text.Integer

namespace WeightedAutomata.Command
variable {ε α : Type}

namespace Store
variable {store other : Store} {location q : Location} {path : String}

def Found.outline : Found → Bool × Location
  | .directory location => (true, location)
  | .file location _ | .absent location => (false, location)

def Found.place? : Found → Option Location
  | .directory _ => none
  | .file location _ | .absent location => some location

def leads (store : Store) (path : String) : Option Location :=
  (store.resolve path).toOption.bind Found.place?

def held (store : Store) (location : Location) : Option ByteArray :=
  (store.files.find? fun file => file.1 == location).map (·.2)

def isDirectory (store : Store) (location : Location) : Bool :=
  location.isPrefixOf store.home || store.directories.contains location

inductive Stands (store : Store) (location : Location) : Found → Prop where
  | file {content : ByteArray} (held : store.held location = some content) :
      Stands store location (.file location content)
  | directory (unheld : store.held location = none) (listed : store.isDirectory location = true) :
      Stands store location (.directory location)
  | absent (unheld : store.held location = none) (unlisted : store.isDirectory location = false) :
      Stands store location (.absent location)

theorem look_stands (store : Store) (location : Location) :
    store.Stands location (store.look location) := by
  have looked : store.look location = match store.held location with
      | some content => .file location content
      | none => if store.isDirectory location then .directory location else .absent location := by
    unfold look held isDirectory
    cases store.files.find? fun file => file.1 == location <;> rfl
  rw [looked]
  cases held : store.held location with
  | some content => exact .file held
  | none =>
    cases directory : store.isDirectory location with
    | true => exact .directory held directory
    | false => exact .absent held directory

theorem held_remove (store : Store) (location q : Location) :
    (store.remove location).held q = if q = location then none else store.held q := by
  simp only [held, remove, List.find?_filter]
  split
  · rename_i same
    subst q
    simp
  · rename_i apart
    congr 2
    funext file
    by_cases here : file.1 = q
    · simp [here, apart]
    · simp [here]

theorem held_put (store : Store) (location q : Location) (content : ByteArray) :
    (store.put location content).held q =
      if q = location then some content else store.held q := by
  have others : (store.remove location).held q = _ := held_remove store location q
  unfold held put at *
  rw [List.find?_append]
  simp only [remove] at others
  split
  · rename_i same
    rw [if_pos same, Option.map_eq_none_iff] at others
    rw [others]
    simp [same]
  · rename_i apart
    rw [if_neg apart] at others
    simp [← others, Ne.symm apart]

-- Following paths depends on where directories are, and not on what is in files.
theorem follow_outline (same : ∀ l, (other.look l).outline = (store.look l).outline)
    {place place' : Found} (alike : place'.outline = place.outline) (part : String) :
    (other.follow place' part).toOption.map Found.outline =
      (store.follow place part).toOption.map Found.outline := by
  cases place with
  | directory location =>
    cases place' with
    | directory location' =>
      obtain rfl : location' = location := (Prod.mk.inj alike).2
      simp only [follow]
      split
      · rfl
      · split
        · rfl
        · split
          · rfl
          · exact congrArg some (same _)
    | file _ _ => cases (Prod.mk.inj alike).1
    | absent _ => cases (Prod.mk.inj alike).1
  | file _ _ =>
    cases place' with
    | directory _ => cases (Prod.mk.inj alike).1
    | file _ _ => rfl
    | absent _ => rfl
  | absent _ =>
    cases place' with
    | directory _ => cases (Prod.mk.inj alike).1
    | file _ _ => rfl
    | absent _ => rfl

theorem foldlM_follow_outline (same : ∀ l, (other.look l).outline = (store.look l).outline)
    {place place' : Found} (alike : place'.outline = place.outline) (parts : List String) :
    (parts.foldlM other.follow place').toOption.map Found.outline =
      (parts.foldlM store.follow place).toOption.map Found.outline := by
  induction parts generalizing place place' with
  | nil => exact congrArg some alike
  | cons part rest ih =>
    have step := follow_outline same alike part
    rw [List.foldlM_cons, List.foldlM_cons]
    cases here : store.follow place part with
    | error fault =>
      cases there : other.follow place' part with
      | error fault' => rfl
      | ok next' => simp [here, there, Except.toOption] at step
    | ok next =>
      cases there : other.follow place' part with
      | error fault' => simp [here, there, Except.toOption] at step
      | ok next' =>
        simp only [here, there, Except.toOption, Option.map_some, Option.some.injEq] at step
        exact ih step

theorem place?_outline (found : Found) :
    found.place? = if found.outline.1 then none else some found.outline.2 := by
  cases found <;> rfl

theorem leads_eq (home : other.home = store.home)
    (same : ∀ l, (other.look l).outline = (store.look l).outline) : other.leads = store.leads := by
  funext path
  have resolved : (other.resolve path).toOption.map Found.outline =
      (store.resolve path).toOption.map Found.outline := by
    unfold resolve
    split
    · rfl
    · split
      · rfl
      · split
        · rfl
        · exact foldlM_follow_outline same rfl _
        · rw [home]
          exact foldlM_follow_outline same rfl _
  have outlined : ∀ result : Except FileFault Found, result.toOption.bind Found.place? =
      (result.toOption.map Found.outline).bind
        fun outline => if outline.1 then none else some outline.2 := by
    intro result
    cases result with
    | error fault => rfl
    | ok found => exact place?_outline found
  rw [leads, leads, outlined, outlined, resolved]

theorem look_place? {l : Location} (found : (store.look l).place? = some location) :
    l = location := by
  have stands := store.look_stands l
  generalize store.look l = place at stands found
  cases stands with
  | file _ => exact Option.some.inj found
  | directory _ _ => cases found
  | absent _ _ => exact Option.some.inj found

theorem follow_looked {place next : Found} {part : String}
    (followed : store.follow place part = .ok next) (found : next.place? = some location) :
    store.look location = next := by
  cases place with
  | file _ _ => cases followed
  | absent _ => cases followed
  | directory _ =>
    simp only [follow] at followed
    split at followed
    · cases followed
      cases found
    · split at followed
      · cases followed
        cases found
      · split at followed
        · cases followed
        · cases followed
          rw [look_place? found]

theorem foldlM_follow_looked {place next : Found} {parts : List String}
    (known : place.place? = some location → store.look location = place)
    (followed : parts.foldlM store.follow place = .ok next) (found : next.place? = some location) :
    store.look location = next := by
  induction parts generalizing place with
  | nil =>
    cases followed
    exact known found
  | cons part rest ih =>
    rw [List.foldlM_cons] at followed
    cases step : store.follow place part with
    | error fault => simp [step, bind, Except.bind] at followed
    | ok middle =>
      rw [step] at followed
      exact ih (fun here => follow_looked step here) followed

-- A path that leads to a place has looked there last.
theorem resolve_looked {place : Found} (resolved : store.resolve path = .ok place)
    (found : place.place? = some location) : store.look location = place := by
  unfold resolve at resolved
  split at resolved
  · cases resolved
  · split at resolved
    · cases resolved
    · split at resolved
      · cases resolved
      · exact foldlM_follow_looked (fun none => by cases none) resolved found
      · exact foldlM_follow_looked (fun none => by cases none) resolved found

theorem leads_of_resolve {place : Found} (resolved : store.resolve path = .ok place) :
    store.leads path = place.place? := by
  rw [leads, resolved]
  rfl

theorem look_file {content : ByteArray} (found : store.look location = .file location content) :
    store.held location = some content := by
  have stands := store.look_stands location
  rw [found] at stands
  cases stands with
  | file held => exact held

theorem look_absent (found : store.look location = .absent location) :
    store.held location = none ∧ store.isDirectory location = false := by
  have stands := store.look_stands location
  rw [found] at stands
  cases stands with
  | absent unheld unlisted => exact ⟨unheld, unlisted⟩

theorem draftName_injective {m n : Nat} (same : draftName m = draftName n) : m = n := by
  have digits : ∀ n, (draftName n).toList =
      ".tmp".toList ++ (List.replicate (6 - (toString n).length) '0' ++ Text.naturalText n) := by
    intro n
    simp [draftName, Text.naturalText]
  have tails := congrArg String.toList same
  rw [digits, digits, List.append_cancel_left_eq] at tails
  have values := congrArg Text.digitsValue tails
  rwa [Text.digitsValue_zeros, Text.digitsValue_zeros, Text.digitsValue_naturalText,
    Text.digitsValue_naturalText] at values

-- Where something stands there is a file, a directory, or a directory above the working one.
theorem mem_of_not_isFree (taken : store.isFree location = false) :
    location ∈ store.files.map (·.1) ++ store.directories ++ [store.home.take location.length] := by
  have stands := store.look_stands location
  unfold isFree at taken
  generalize store.look location = place at stands taken
  cases stands with
  | file held =>
    obtain ⟨file, found, _⟩ := Option.map_eq_some_iff.mp held
    have present := List.mem_of_find?_eq_some found
    have here : file.1 = location := by simpa using List.find?_some found
    simp only [List.mem_append, List.mem_map]
    exact .inl (.inl ⟨file, present, here⟩)
  | directory _ listed =>
    rcases Bool.or_eq_true_iff.mp listed with above | listed
    · have start := List.prefix_iff_eq_take.mp (List.isPrefixOf_iff_prefix.mp above)
      simp [← start]
    · simp [List.contains_iff_mem.mp listed]
  | absent _ _ => cases taken

-- As more names are tried than there are files and directories, one of them is free.
theorem exists_free_name (store : Store) (directory : Location) :
    ∃ name ∈ (List.range (store.files.length + store.directories.length + 2)).map draftName,
      store.isFree (directory ++ [name]) = true := by
  by_contra taken
  simp only [not_exists, not_and, Bool.not_eq_true] at taken
  have distinct : ((List.range (store.files.length + store.directories.length + 2)).map
      fun n => directory ++ [draftName n]).Nodup := by
    apply List.Nodup.map _ List.nodup_range
    intro m n same
    exact draftName_injective (by simpa using same)
  have covered : ((List.range (store.files.length + store.directories.length + 2)).map
      fun n => directory ++ [draftName n]) ⊆
        store.files.map (·.1) ++ store.directories ++ [store.home.take (directory.length + 1)] := by
    intro l listed
    obtain ⟨n, inside, rfl⟩ := List.mem_map.mp listed
    have stands := mem_of_not_isFree (taken _ (List.mem_map.mpr ⟨n, inside, rfl⟩))
    simpa using stands
  have few := (List.subperm_of_subset distinct covered).length_le
  simp only [List.length_map, List.length_range, List.length_append, List.length_singleton] at few
  omega

theorem isFree_freshName (store : Store) (directory : Location) :
    store.isFree (directory ++ [store.freshName directory]) = true := by
  obtain ⟨name, tried, free⟩ := store.exists_free_name directory
  unfold freshName
  cases found : List.find? (fun name => store.isFree (directory ++ [name]))
      ((List.range (store.files.length + store.directories.length + 2)).map draftName) with
  | some first => simpa [found] using List.find?_some found
  | none => exact absurd free (List.find?_eq_none.mp found name tried)

theorem unheld_of_isFree (free : store.isFree location = true) :
    store.held location = none ∧ store.isDirectory location = false := by
  have stands := store.look_stands location
  unfold isFree at free
  generalize store.look location = place at stands free
  cases stands with
  | file _ => cases free
  | directory _ _ => cases free
  | absent unheld unlisted => exact ⟨unheld, unlisted⟩

theorem look_outline (store : Store) (location : Location) :
    (store.look location).outline =
      ((store.held location).isNone && store.isDirectory location, location) := by
  have stands := store.look_stands location
  generalize store.look location = place at stands
  cases stands with
  | file held => simp [held, Found.outline]
  | directory unheld listed => simp [unheld, listed, Found.outline]
  | absent unheld unlisted => simp [unheld, unlisted, Found.outline]

instance : Observed Store Location where
  disk store := ⟨store.held, store.leads⟩
  printed store := store.printed

theorem disk_put (content : ByteArray)
    (plain : (store.held location).isSome ∨ store.isDirectory location = false) :
    disk (store.put location content) = (disk store).set location (some content) := by
  have leads : (store.put location content).leads = store.leads := by
    refine leads_eq (by rfl) fun l => ?_
    rw [look_outline, look_outline, held_put]
    split
    · rename_i same
      subst l
      change (false && _, _) = _
      rcases plain with file | free
      · simp [Option.isNone_eq_false_iff.mpr file]
      · simp [free]
    · rfl
  have file : (store.put location content).held =
      Function.update store.held location (some content) := by
    funext l
    rw [held_put, Function.update_apply]
  simp only [disk, Disk.set, leads, file]

theorem disk_remove (free : store.isDirectory location = false) :
    disk (store.remove location) = (disk store).set location none := by
  have leads : (store.remove location).leads = store.leads := by
    refine leads_eq (by rfl) fun l => ?_
    rw [look_outline, look_outline, held_remove]
    split
    · rename_i same
      subst l
      change (true && store.isDirectory _, _) = _
      simp [free]
    · rfl
  have file : (store.remove location).held = Function.update store.held location none := by
    funext l
    rw [held_remove, Function.update_apply]
  simp only [disk, Disk.set, leads, file]

theorem content_found {content : ByteArray} (found : store.content path = .ok content) :
    (disk store).content path = some content := by
  obtain ⟨place, resolved, found⟩ := ok_bind found
  cases place with
  | directory _ => cases found
  | absent _ => cases found
  | file location bytes =>
    cases found
    have held := look_file (resolve_looked resolved rfl)
    have leads := leads_of_resolve resolved
    simp [disk, Disk.content, leads, Found.place?, held]

theorem openDraft_found {draft : Location} {next : Store}
    (opened : store.openDraft path = .ok (draft, next)) :
    store.held draft = none ∧ store.isDirectory draft = false ∧
      next = store.put draft ByteArray.empty := by
  unfold openDraft at opened
  split at opened
  · cases opened
  · rename_i location _
    simp only at opened
    split at opened
    · cases opened
    · cases opened
      obtain ⟨unheld, unlisted⟩ := unheld_of_isFree (isFree_freshName store location)
      exact ⟨unheld, unlisted, rfl⟩

-- A draft goes to a place that no directory has: one with a file or one with nothing.
theorem disk_move {draft target : Location} {content : ByteArray}
    (free : store.isDirectory draft = false) (held : store.held draft = some content)
    (plain : (store.held target).isSome ∨ store.isDirectory target = false) :
    disk ((store.remove draft).put target content) =
      ((disk store).set draft none).set target (store.held draft) := by
  rw [disk_put, disk_remove free, held]
  rw [held_remove]
  split
  · rename_i same
    exact .inr (same ▸ free)
  · exact plain

theorem publish_found {draft : Location} {next : Store} (free : store.isDirectory draft = false)
    (published : store.publish draft path = .ok next) :
    ∃ target, store.leads path = some target ∧
      disk next = ((disk store).set draft none).set target (store.held draft) ∧
      next.printed = store.printed := by
  have stands := store.look_stands draft
  unfold publish at published
  generalize store.look draft = place at stands published
  cases stands with
  | directory _ _ => cases published
  | absent _ _ => cases published
  | file held =>
    obtain ⟨_, read, published⟩ := ok_bind published
    cases read
    obtain ⟨place, resolved, published⟩ := ok_bind published
    have leads := leads_of_resolve resolved
    cases place with
    | directory _ => cases published
    | file target old =>
      cases published
      have there := look_file (resolve_looked resolved rfl)
      exact ⟨target, leads, disk_move free held (.inl (by simp [there])), rfl⟩
    | absent target =>
      cases published
      have there := look_absent (resolve_looked resolved rfl)
      exact ⟨target, leads, disk_move free held (.inr there.2), rfl⟩

end Store

theorem onStore_ends {action : Store → Except ε (α × Store)} {store : Store}
    {done : α → Store → Prop} {failed : Store → Prop}
    (succeeds : ∀ value next, action store = .ok (value, next) → done value next)
    (fails : failed store) :
    Ends (onStore action) store done fun _ => failed := by
  cases ended : action store with
  | error fault =>
    have ran : (onStore action).run store = (.error fault, store) := by
      simp only [onStore, StateT.run, ended]
    rw [Ends, ran]
    exact fails
  | ok result =>
    have ran : (onStore action).run store = (.ok result.1, result.2) := by
      simp only [onStore, StateT.run, ended]
    rw [Ends, ran]
    exact succeeds result.1 result.2 ended

instance : Machine Store Location Location where
  place draft := draft
  Open draft store := (∃ content, store.held draft = some content) ∧ store.isDirectory draft = false
  read_ends path store := by
    apply onStore_ends
    · intro content next found
      obtain ⟨bytes, read, found⟩ := ok_bind found
      cases found
      exact ⟨Unchanged.refl store, Store.content_found read⟩
    · exact Unchanged.refl store
  openDraft_ends directory store := by
    apply onStore_ends
    · intro draft next opened
      obtain ⟨absent, free, rfl⟩ := Store.openDraft_found opened
      have held := Store.held_put store draft draft ByteArray.empty
      exact ⟨⟨⟨_, held.trans (if_pos rfl)⟩, free⟩, absent, Store.disk_put _ (.inr free), rfl⟩
    · exact Unchanged.refl store
  fill_ends draft text store opened := by
    obtain ⟨⟨content, old⟩, free⟩ := opened
    apply onStore_ends
    · intro _ next filled
      cases filled
      have held := Store.held_put store draft draft text.toUTF8
      exact ⟨⟨⟨_, held.trans (if_pos rfl)⟩, free⟩, Store.disk_put _ (.inr free), rfl⟩
    · exact ⟨⟨⟨content, old⟩, free⟩, ⟨content, (Disk.set_of_eq old).symm⟩, rfl⟩
  publish_ends draft path store opened := by
    apply onStore_ends
    · intro _ next published
      obtain ⟨other, moved, published⟩ := ok_bind published
      cases published
      obtain ⟨target, leads, replaced, shown⟩ := Store.publish_found opened.2 moved
      exact ⟨⟨target, leads, replaced⟩, shown⟩
    · exact ⟨opened, Unchanged.refl store⟩
  discard_ends draft store opened := ⟨Store.disk_remove opened.2, rfl⟩
  print_ends text store := by
    apply onStore_ends
    · intro _ next shown
      cases shown
      exact ⟨rfl, rfl⟩
    · rfl

end WeightedAutomata.Command
