import WeightedAutomata.Command.Run
import WeightedAutomata.Proofs.Command.Store

namespace WeightedAutomata

namespace Path

-- What paths are compared by: whether one begins at the root, and its parts without those
-- that stay where they are. A dot at the front counts.
def components (path : String) : Bool × List String :=
  match parts path with
  | [] => (false, [])
  | first :: rest =>
    let names := rest.filter fun part => !isIdle part
    if first = "" then (!rest.isEmpty, names) else (false, first :: names)

theorem isDash_iff {path : String} : isDash path = true ↔ components path = components "-" := by
  have dash : components "-" = (false, ["-"]) := by decide
  rw [dash, isDash, components]
  cases parts path with
  | nil => simp
  | cons first rest =>
    by_cases empty : first = ""
    · cases rest <;> simp [empty]
    · simp [empty]

end Path

namespace Command
variable {σ Place Draft : Type} [DecidableEq Place] [Files (StateM σ) Draft]
  [machine : Machine σ Place Draft] {α : Type}

def CommandError.Quiet (error : CommandError) : Prop :=
  ∀ fault, error ≠ .printing fault

theorem readWith_ends (parse : ByteArray → Except ReadError α) (path : String) (s : σ) :
    Ends (readWith parse path : ExceptT ReadError (StateM σ) α).run s
      (fun value t => Unchanged s t ∧
        ∃ content, (disk s).content path = some content ∧ parse content = .ok value)
      (fun _ t => Unchanged s t) := by
  unfold readWith
  apply Ends.attempt
  apply (Machine.read_ends path s).mono
  · rintro content t ⟨same, found⟩
    apply Ends.ofExcept
    · exact fun value parsed => ⟨same, content, found, parsed⟩
    · exact fun _ _ => same
  · exact fun _ _ same => same

def renderedAs (W : Type) [Weight W] [WeightText W] (arguments : Arguments)
    (automaton potentials : ByteArray) : Except CommandError String := do
  let a : Automaton W ← (Automaton.read arguments.input automaton).mapError
    (.automaton arguments.input)
  let v : Array W ← (Potential.read arguments.weightType arguments.potentials potentials).mapError
    (.potentials arguments.potentials)
  reweightedText (Direction.ofFlag arguments.toFinal) a v

def rendered (arguments : Arguments) (automaton potentials : ByteArray) :
    Except CommandError String :=
  match WeightKind.ofName? arguments.weightType with
  | none => .error (.unsupportedWeightType arguments.weightType)
  | some .tropical => renderedAs (Tropical Binary64) arguments automaton potentials
  | some .log => renderedAs (Log Binary64) arguments automaton potentials
  | some .tropicalPower =>
    renderedAs (SparseTuple (Tropical Binary64) .bits32) arguments automaton potentials
  | some .logPower => renderedAs (SparseTuple (Log Binary64) .bits32) arguments automaton potentials

theorem error_mapError {ε ε' : Type} {x : Except ε α} {f : ε → ε'} {error : ε'}
    (failed : x.mapError f = .error error) : ∃ cause, f cause = error := by
  cases x with
  | error cause => exact ⟨cause, Except.error.inj failed⟩
  | ok value => cases failed

theorem reweightedText_quiet {W : Type} [Weight W] [WeightText W] {direction : Direction}
    {a : Automaton W} {v : Array W} {error : CommandError}
    (failed : reweightedText direction a v = .error error) : error.Quiet := by
  rintro fault rfl
  unfold reweightedText at failed
  cases moved : (a.reweight direction v).mapError CommandError.reweighting with
  | error error =>
    obtain ⟨cause, rfl⟩ := error_mapError moved
    rw [moved] at failed
    cases failed
  | ok b =>
    rw [moved] at failed
    obtain ⟨cause, other⟩ := error_mapError failed
    cases other

theorem reweightFiles_ends (W : Type) [Weight W] [WeightText W] (arguments : Arguments) (s : σ) :
    Ends (reweightFiles W arguments : ExceptT CommandError (StateM σ) String).run s
      (fun text t => Unchanged s t ∧ ∃ automaton potentials,
        (disk s).content arguments.input = some automaton ∧
        (disk s).content arguments.potentials = some potentials ∧
        renderedAs W arguments automaton potentials = .ok text)
      (fun error t => Unchanged s t ∧ error.Quiet) := by
  unfold reweightFiles
  apply Ends.bind
  apply Ends.adapt
  apply (readWith_ends _ _ s).mono
  · rintro a t ⟨first, automaton, found, parsed⟩
    apply Ends.bind
    apply Ends.adapt
    apply (readWith_ends _ _ t).mono
    · rintro v u ⟨second, potentials, found', parsed'⟩
      rw [first.1] at found'
      have same := first.trans second
      apply Ends.ofExcept
      · intro text written
        refine ⟨same, automaton, potentials, found, found', ?_⟩
        rw [renderedAs, parsed, parsed']
        exact written
      · exact fun error failed => ⟨same, reweightedText_quiet failed⟩
    · exact fun _ u second => ⟨first.trans second, fun _ => by simp⟩
  · exact fun _ t same => ⟨same, fun _ => by simp⟩

theorem render_ends (arguments : Arguments) (s : σ) :
    Ends (render arguments : ExceptT CommandError (StateM σ) String).run s
      (fun text t => Unchanged s t ∧ ∃ automaton potentials,
        (disk s).content arguments.input = some automaton ∧
        (disk s).content arguments.potentials = some potentials ∧
        rendered arguments automaton potentials = .ok text)
      (fun error t => Unchanged s t ∧ error.Quiet) := by
  unfold render rendered
  cases WeightKind.ofName? arguments.weightType with
  | none => exact ⟨Unchanged.refl s, fun _ => by simp⟩
  | some kind =>
    cases kind with
    | tropical => exact reweightFiles_ends (Tropical Binary64) arguments s
    | log => exact reweightFiles_ends (Log Binary64) arguments s
    | tropicalPower =>
      exact reweightFiles_ends (SparseTuple (Tropical Binary64) .bits32) arguments s
    | logPower => exact reweightFiles_ends (SparseTuple (Log Binary64) .bits32) arguments s

-- What a failure leaves: everything as it was, but for a draft that it keeps where the
-- last step did not come off. The draft goes when the failure is dropped.
structure Spared (s : σ) (failure : Failure Draft) (t : σ) : Prop where
  quiet : failure.error.Quiet → printed t = printed s
  plain : failure.draft? = none → disk t = disk s
  kept : ∀ draft, failure.draft? = some draft →
    (∃ path fault, failure.error = .publishing path fault) ∧
      (disk s).file (machine.place draft) = none ∧
      ∃ content, disk t = (disk s).set (machine.place draft) (some content)
  dropped : let u := ((failure.drop : StateM σ Unit).run t).2
    disk u = disk s ∧ printed u = printed t

theorem Spared.of_plain {error : CommandError} {s t : σ} (same : disk t = disk s)
    (quiet : error.Quiet → printed t = printed s) : Spared s ⟨error, none⟩ t where
  quiet := quiet
  plain _ := same
  kept _ keeps := by cases keeps
  dropped := ⟨same, rfl⟩

theorem discarded {draft : Draft} {s t : σ} (opened : machine.Open draft t)
    (absent : (disk s).file (machine.place draft) = none)
    (drafted : ∃ content, disk t = (disk s).set (machine.place draft) (some content)) :
    let u := ((Files.discard draft : StateM σ Unit).run t).2
    disk u = disk s ∧ printed u = printed t := by
  obtain ⟨content, drafted⟩ := drafted
  obtain ⟨gone, still⟩ := machine.discard_ends draft t opened
  rw [drafted, Disk.set_set, Disk.set_of_eq absent] at gone
  exact ⟨gone, still⟩

theorem Spared.of_draft {draft : Draft} {path : String} {fault : FileFault} {s t : σ}
    (opened : machine.Open draft t) (absent : (disk s).file (machine.place draft) = none)
    (drafted : ∃ content, disk t = (disk s).set (machine.place draft) (some content))
    (shown : printed t = printed s) : Spared s ⟨.publishing path fault, some draft⟩ t where
  quiet _ := shown
  plain keeps := by cases keeps
  kept _ keeps := by
    cases keeps
    exact ⟨⟨path, fault, rfl⟩, absent, drafted⟩
  dropped := discarded opened absent drafted

theorem Spared.after {failure : Failure Draft} {s t u : σ} (same : Unchanged s t)
    (spared : Spared t failure u) : Spared s failure u where
  quiet silent := (spared.quiet silent).trans same.2
  plain keeps := (spared.plain keeps).trans same.1
  kept := by
    rw [← same.1]
    exact spared.kept
  dropped := ⟨spared.dropped.1.trans same.1, spared.dropped.2⟩

-- The draft is the only file that is touched before the last step, which either replaces
-- the file at the path or leaves the draft to the failure.
theorem writeFile_ends (path text : String) (s : σ) :
    Ends (writeFile path text : ExceptT (Failure Draft) (StateM σ) Unit).run s
      (fun _ t => (∃ place, (disk s).leads path = some place ∧
        disk t = (disk s).set place (some text.toUTF8)) ∧ printed t = printed s)
      (fun failure t => Spared s failure t ∧ failure.error.Quiet) := by
  unfold writeFile
  apply Ends.attempt
  apply (machine.openDraft_ends (Path.parent path) s).mono
  · rintro draft t ⟨opened, absent, drafted, shown⟩
    apply Ends.attempt
    apply (machine.fill_ends draft text t opened).mono
    · rintro _ u ⟨still, filled, shown'⟩
      rw [drafted, Disk.set_set] at filled
      apply Ends.attempt
      apply (machine.publish_ends draft path u still).mono
      · rintro _ v ⟨⟨place, leads, replaced⟩, shown''⟩
        rw [filled] at leads replaced
        rw [Disk.set_set, Disk.set_of_eq absent, Disk.set_same] at replaced
        exact ⟨⟨place, leads, replaced⟩, shown''.trans (shown'.trans shown)⟩
      · rintro fault v ⟨again, same⟩
        exact ⟨.of_draft again absent ⟨_, same.1.trans filled⟩
          (same.2.trans (shown'.trans shown)), fun _ => by simp⟩
    · rintro fault u ⟨still, ⟨content, filled⟩, shown'⟩
      rw [drafted, Disk.set_set] at filled
      obtain ⟨gone, quiet⟩ := discarded still absent ⟨content, filled⟩
      exact ⟨.of_plain gone fun _ => quiet.trans (shown'.trans shown), fun _ => by simp⟩
  · exact fun fault t same => ⟨.of_plain same.1 fun _ => same.2, fun _ => by simp⟩

theorem named_iff {output : Option String} {path : String} :
    output.filter (fun path => !Path.isDash path) = some path ↔
      output = some path ∧ Path.components path ≠ Path.components "-" := by
  rw [Option.filter_eq_some_iff, Bool.not_eq_true', ← Bool.not_eq_true, Path.isDash_iff]

theorem unnamed_iff {output : Option String} :
    output.filter (fun path => !Path.isDash path) = none ↔
      ∀ path, output = some path → Path.components path = Path.components "-" := by
  rw [Option.filter_eq_none_iff]
  simp only [Bool.not_eq_true', Bool.not_eq_false, Path.isDash_iff]

theorem print_ends (text : String) (s : σ) :
    Ends (writeOutput none text : ExceptT (Failure Draft) (StateM σ) Unit).run s
      (fun _ t => disk t = disk s ∧ printed t = printed s ++ text)
      (fun failure t => disk t = disk s ∧ ∃ fault, failure = ⟨.printing fault, none⟩) := by
  unfold writeOutput
  apply Ends.attempt
  apply (machine.print_ends text s).mono
  · exact fun _ t shown => shown
  · exact fun fault t same => ⟨same, fault, rfl⟩

def execute (arguments : Arguments) : StateM σ (Except CommandError Unit) :=
  (run arguments : ExceptT CommandError (StateM σ) Unit).run

omit machine in
theorem execute_ends {arguments : Arguments} {s : σ} {done : Unit → σ → Prop}
    {failed : CommandError → σ → Prop}
    (ends : Ends (carryOut arguments : ExceptT (Failure Draft) (StateM σ) Unit).run s done
      fun failure t => failed failure.error ((failure.drop : StateM σ Unit).run t).2) :
    Ends (execute arguments) s done failed := by
  unfold execute run
  apply Ends.attempt
  apply ends.mono
  · exact fun _ _ finished => finished
  · exact fun _ _ dropped => dropped

omit machine in
theorem execute_of_render {arguments : Arguments} {s : σ} {done : Unit → σ → Prop}
    {failed : CommandError → σ → Prop}
    (ends : Ends (render arguments : ExceptT CommandError (StateM σ) String).run s
      (fun text t => Ends (writeOutput arguments.output text :
          ExceptT (Failure Draft) (StateM σ) Unit).run t done
        fun failure u => failed failure.error ((failure.drop : StateM σ Unit).run u).2)
      failed) :
    Ends (execute arguments) s done failed := by
  apply execute_ends
  unfold carryOut
  apply Ends.bind
  apply Ends.adapt
  exact ends

def Arguments.unnamed (arguments : Arguments) : Arguments :=
  { arguments with output := none }

theorem unnamed_ends {arguments : Arguments} {s u : σ} {automaton potentials : ByteArray}
    {text : String} (inputHeld : (disk s).content arguments.input = some automaton)
    (potentialsHeld : (disk s).content arguments.potentials = some potentials)
    (written : rendered arguments automaton potentials = .ok text) (same : disk u = disk s) :
    Ends (execute arguments.unnamed) u
      (fun _ v => disk v = disk u ∧ printed v = printed u ++ text)
      (fun _ v => disk v = disk u) := by
  apply execute_of_render
  apply (render_ends arguments.unnamed u).mono
  · rintro other v ⟨unchanged, automaton', potentials', inputHeld', potentialsHeld', written'⟩
    rw [same] at inputHeld' potentialsHeld'
    cases inputHeld.symm.trans inputHeld'
    cases potentialsHeld.symm.trans potentialsHeld'
    cases written.symm.trans written'
    apply (print_ends text v).mono
    · rintro _ w ⟨kept, shown⟩
      exact ⟨kept.trans unchanged.1, shown.trans (by rw [unchanged.2])⟩
    · rintro _ w ⟨kept, fault, rfl⟩
      exact kept.trans unchanged.1
  · exact fun _ v failed => failed.1.1

include machine in
-- What is rendered does not depend on the output path, so only printing is left to fail.
theorem unnamed_printing {arguments : Arguments} {s t : σ} {text : String}
    (ran : (render arguments : ExceptT CommandError (StateM σ) String).run.run s = (.ok text, t)) :
    Ends (execute arguments.unnamed) s (fun _ _ => True)
      (fun error _ => ∃ fault, error = .printing fault) := by
  have same : (render arguments.unnamed : ExceptT CommandError (StateM σ) String).run.run s =
      (.ok text, t) := ran
  apply execute_of_render
  apply Ends.of_run
  · intro other v rerun
    cases same.symm.trans rerun
    apply (print_ends text t).mono
    · exact fun _ _ _ => trivial
    · rintro _ w ⟨-, fault, rfl⟩
      exact ⟨fault, rfl⟩
  · intro error v rerun
    cases same.symm.trans rerun

-- How the command leaves the machine when it succeeds. What it would print without an
-- output path is its text, wherever the files are the same; here only printing could fail.
structure Finished (arguments : Arguments) (text : String) (s t : σ) : Prop where
  shown : ∀ u : σ, disk u = disk s → Ends (execute arguments.unnamed) u
    (fun _ v => disk v = disk u ∧ printed v = printed u ++ text) (fun _ v => disk v = disk u)
  showable : Ends (execute arguments.unnamed) s (fun _ _ => True)
    (fun error _ => ∃ fault, error = .printing fault)
  named : ∀ path, arguments.output = some path → Path.components path ≠ Path.components "-" →
    printed t = printed s ∧ ∃ place, (disk s).leads path = some place ∧
      disk t = (disk s).set place (some text.toUTF8)
  unnamed : (∀ path, arguments.output = some path → Path.components path = Path.components "-") →
    disk t = disk s ∧ printed t = printed s ++ text

def Arguments.Silences (arguments : Arguments) (error : CommandError) : Prop :=
  ∀ path, arguments.output = some path → Path.components path ≠ Path.components "-" → error.Quiet

theorem carryOut_ends (arguments : Arguments) (s : σ) :
    Ends (carryOut arguments : ExceptT (Failure Draft) (StateM σ) Unit).run s
      (fun _ t => ∃ text, Finished arguments text s t)
      (fun failure t => Spared s failure t ∧ arguments.Silences failure.error) := by
  unfold carryOut
  apply Ends.bind
  apply Ends.adapt
  apply Ends.of_run
  · intro text t ran
    obtain ⟨same, automaton, potentials, inputHeld, potentialsHeld, written⟩ :=
      (render_ends arguments s).result ran
    have shown := fun u (alike : disk u = disk s) =>
      unnamed_ends inputHeld potentialsHeld written alike
    have showable := unnamed_printing ran
    cases output : arguments.output.filter fun path => !Path.isDash path with
    | some path =>
      obtain ⟨named, apart⟩ := named_iff.mp output
      unfold writeOutput
      rw [output]
      apply (writeFile_ends path text t).mono
      · rintro _ u ⟨⟨place, leads, replaced⟩, quiet⟩
        rw [same.1] at leads replaced
        refine ⟨text, shown, showable, ?_, ?_⟩
        · rintro other found _
          cases named.symm.trans found
          exact ⟨quiet.trans same.2, place, leads, replaced⟩
        · intro dash
          exact absurd (dash path named) apart
      · rintro failure u ⟨spared, quiet⟩
        exact ⟨spared.after same, fun _ _ _ => quiet⟩
    | none =>
      have dash := unnamed_iff.mp output
      unfold writeOutput
      rw [output]
      apply (print_ends text t).mono
      · rintro _ u ⟨kept, added⟩
        refine ⟨text, shown, showable, ?_, ?_⟩
        · intro path found apart
          exact absurd (dash path found) apart
        · exact fun _ => ⟨kept.trans same.1, added.trans (by rw [same.2])⟩
      · rintro _ u ⟨kept, fault, rfl⟩
        refine ⟨.of_plain (kept.trans same.1) fun quiet => absurd rfl (quiet fault), ?_⟩
        intro path found apart
        exact absurd (dash path found) apart
  · intro error t ran
    obtain ⟨same, quiet⟩ := (render_ends arguments s).error ran
    exact ⟨.of_plain same.1 fun _ => same.2, fun _ _ _ => quiet⟩

-- When the command succeeds with an output path, the file there has changed and no other,
-- even if the path leads to an input, and nothing is printed. When it fails, all files are
-- as they were once the failure is dropped, and nothing is printed unless it is printing
-- that fails. Before that there is at most the draft that the failure keeps.
theorem run_atomic (arguments : Arguments) (s : σ) :
    Ends (carryOut arguments : ExceptT (Failure Draft) (StateM σ) Unit).run s
      (fun _ t => ∃ text, Finished arguments text s t)
      (fun failure t => Spared s failure t ∧ arguments.Silences failure.error) ∧
    Ends (execute arguments) s (fun _ t => ∃ text, Finished arguments text s t)
      (fun error t => disk t = disk s ∧ (error.Quiet → printed t = printed s) ∧
        arguments.Silences error) := by
  have ends := carryOut_ends arguments s
  refine ⟨ends, execute_ends (ends.mono ?_ ?_)⟩
  · exact fun _ _ finished => finished
  · rintro failure t ⟨spared, silences⟩
    obtain ⟨gone, still⟩ := spared.dropped
    exact ⟨gone, fun quiet => still.trans (spared.quiet quiet), silences⟩

def shelf : Store where
  directories := [["out"]]
  files := [
    (["a.fst"], "0\t1\t1\t1\t1\n1\t2\t2\t2\t2\n0\t2\t3\t3\t4\n2\t0.5\n".toUTF8),
    (["v.txt"], "0 3.5\n1 2.5\n2 0.5\n".toUTF8)]

def replacing : Arguments :=
  ⟨false, "tropical", "a.fst", "v.txt", some "./a.fst"⟩

def misplacing : Arguments :=
  ⟨false, "tropical", "a.fst", "v.txt", some "out"⟩

def calm : Faulty Store :=
  ⟨shelf, []⟩

def full : Faulty Store :=
  ⟨shelf, [none, none, none, some ⟨.other "No space left on device (os error 28)", 9⟩]⟩

def unplaced : Failure Location :=
  ⟨.publishing "out" .isDirectory, some [".tmp000000"]⟩

theorem replacing_atomic :
    (∃ t, (execute replacing).run calm = (.ok (), t) ∧ printed t = "" ∧
      disk t = (disk calm).set ["a.fst"]
        (some "0\t1\t1\t1\t3.5\n0\t2\t3\t3\t4.5\n1\t2\t2\t2\n2\n".toUTF8)) ∧
    (∃ t, (execute replacing).run full = (.error (.filling ⟨"/.tmp000000",
        .other "No space left on device (os error 28)"⟩), t) ∧
      printed t = "" ∧ disk t = disk full) ∧
    ∃ t, (carryOut misplacing : ExceptT (Failure Location) (StateM (Faulty Store)) Unit).run.run
        calm = (.error unplaced, t) ∧
      printed t = "" ∧ (disk t).file [".tmp000000"] ≠ none ∧
      disk ((unplaced.drop : StateM (Faulty Store) Unit).run t).2 = disk calm := by
  refine ⟨?_, ?_, ?_⟩
  · have succeeds : ((execute replacing).run calm).1 = .ok () := by decide +kernel
    have ran : (execute replacing).run calm = (.ok (), ((execute replacing).run calm).2) :=
      Prod.ext succeeds rfl
    obtain ⟨text, finished⟩ := (run_atomic replacing calm).2.result ran
    obtain ⟨quiet, place, leads, replaced⟩ :=
      finished.named "./a.fst" rfl (by decide)
    have here : (disk calm).leads "./a.fst" = some ["a.fst"] := by decide
    cases here.symm.trans leads
    have prints : ((execute replacing.unnamed).run calm).1 = .ok () := by decide +kernel
    have output : printed ((execute replacing.unnamed).run calm).2 =
        "0\t1\t1\t1\t3.5\n0\t2\t3\t3\t4.5\n1\t2\t2\t2\n2\n" := by
      decide +kernel
    have same := ((finished.shown calm rfl).result (Prod.ext prints rfl)).2
    rw [output, show printed calm = "" from rfl, String.empty_append] at same
    exact ⟨_, ran, quiet, same ▸ replaced⟩
  · have fails : ((execute replacing).run full).1 = .error (.filling ⟨"/.tmp000000",
        .other "No space left on device (os error 28)"⟩) := by
      decide +kernel
    have ran : (execute replacing).run full = (.error _, ((execute replacing).run full).2) :=
      Prod.ext fails rfl
    obtain ⟨kept, quiet, -⟩ := (run_atomic replacing full).2.error ran
    exact ⟨_, ran, quiet fun _ => by simp, kept⟩
  · let attempted := (carryOut misplacing :
      ExceptT (Failure Location) (StateM (Faulty Store)) Unit).run.run calm
    have fails : attempted.1 = .error unplaced := by decide +kernel
    have ran : attempted = (.error unplaced, attempted.2) := Prod.ext fails rfl
    obtain ⟨spared, silences⟩ := (run_atomic misplacing calm).1.error ran
    have quiet := silences "out" rfl (by decide)
    obtain ⟨-, -, content, drafted⟩ := spared.kept [".tmp000000"] rfl
    refine ⟨_, ran, spared.quiet quiet, ?_, spared.dropped.1⟩
    rw [drafted]
    simp [Machine.place]

end Command
end WeightedAutomata
