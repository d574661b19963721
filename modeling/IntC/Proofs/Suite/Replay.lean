import IntC.Proofs.Suite.Dispatch
import IntC.Proofs.Suite.Golden

namespace IntC.Suite

/-- What a build says about itself is consistent: a failed one has run nothing, and no other one has a compilation that
did not end with zero. -/
structure Build.Proper (build : Build) : Prop where
  unrun : build.failed = true → build.trial.run = none
  compiled : build.failed = false → build.trial.compile.exitCode = 0

section Building
variable {World : Type} {bench : Bench (StateM World)}

/-- Exit codes and durations are words, whatever is run. -/
def Bench.Fits (bench : Bench (StateM World)) : Prop :=
  ∀ program args world, (bench.execute program args world).1.Fits

theorem execute_fits (fits : bench.Fits) (options : Options) (program : String) (args : List String) :
    (execute bench options program args).Always Execution.Fits := by
  intro session world
  unfold execute
  split
  · exact ⟨rfl, rfl⟩
  · exact fits program args world

theorem build_fits (fits : bench.Fits) (options : Options) (compiler : String) (args : List String)
    (source name : String) : (build bench options compiler args source name).Always (·.trial.Fits) := by
  unfold build
  refine .bind (execute_fits fits _ _ _) fun compile compiled => ?_
  have unrun : Trial.Fits { compile } := ⟨compiled, fun _ absent => by cases absent⟩
  split
  · exact .pure unrun
  · refine .after _ fun made => ?_
    split
    · exact .pure unrun
    · refine .bind (execute_fits fits _ _ _) fun run ran => .pure ⟨compiled, ?_⟩
      rintro _ ⟨⟩
      exact ran

theorem build_proper (bench : Bench (StateM World)) (options : Options) (compiler : String) (args : List String)
    (source name : String) : (build bench options compiler args source name).Always Build.Proper := by
  unfold build
  refine .after _ fun compile => ?_
  have failed : Build.Proper ⟨{ compile }, true⟩ := ⟨fun _ => rfl, fun made => absurd made (by simp)⟩
  split
  case isTrue => exact .pure failed
  case isFalse compiled =>
    refine .after _ fun made => ?_
    split
    · exact .pure failed
    · refine .after _ fun run => .pure ⟨fun failed => absurd failed (by simp), fun _ => ?_⟩
      by_contra nonzero
      exact compiled (by simp [nonzero])

end Building

section Apart
variable {World α β : Type}

/-- A piece of work that neither looks at the session nor changes it. -/
def Work.Apart (work : Work (StateM World) α) : Prop :=
  ∃ act : World → α × World, ∀ session world, work session world = (((act world).1, session), (act world).2)

namespace Work.Apart
variable {work : Work (StateM World) α}

theorem pure (a : α) : Apart (pure a : Work (StateM World) α) := ⟨fun world => (a, world), fun _ _ => rfl⟩

theorem lift (act : StateM World α) : Apart (liftM act : Work (StateM World) α) := ⟨act, fun _ _ => rfl⟩

theorem bind {f : α → Work (StateM World) β} (first : Apart work) (later : ∀ a, Apart (f a)) :
    Apart (work >>= f) := by
  obtain ⟨act, acts⟩ := first
  choose next follows using later
  refine ⟨fun world => next (act world).1 (act world).2, fun session world => ?_⟩
  change f (work session world).1.1 (work session world).1.2 (work session world).2 = _
  rw [acts, follows]

theorem session (apart : Apart work) (session : Session) (world : World) : (work session world).1.2 = session := by
  obtain ⟨act, acts⟩ := apart
  rw [acts]

theorem result (apart : Apart work) (session other : Session) (world : World) :
    (work session world).1.1 = (work other world).1.1 := by
  obtain ⟨act, acts⟩ := apart
  rw [acts, acts]

theorem world (apart : Apart work) (session other : Session) (world : World) :
    (work session world).2 = (work other world).2 := by
  obtain ⟨act, acts⟩ := apart
  rw [acts, acts]

end Work.Apart

theorem execute_apart (bench : Bench (StateM World)) (options : Options) (program : String) (args : List String) :
    (execute bench options program args).Apart := by
  unfold execute
  split
  · exact .pure _
  · exact .lift _

theorem build_apart (bench : Bench (StateM World)) (options : Options) (compiler : String) (args : List String)
    (source name : String) : (build bench options compiler args source name).Apart := by
  unfold build
  refine .bind (execute_apart ..) fun compile => ?_
  split
  · exact .pure _
  · refine .bind (.lift _) fun made => ?_
    split
    · exact .pure _
    · exact .bind (execute_apart ..) fun run => .pure _

theorem buildReference_apart (bench : Bench (StateM World)) (options : Options) (source hash : String) :
    (buildReference bench options source hash).Apart := build_apart ..

theorem buildTarget_apart (bench : Bench (StateM World)) (options : Options) (source hash : String) :
    (buildTarget bench options source hash).Apart := build_apart ..

end Apart

section Judging
variable {file : String} {ignored : List String} {reference target : Build}

theorem judge_status : (judge file ignored reference target).status =
    if reference.failed && target.failed then .pass
    else if target.failed || reference.failed then .fail
    else if compare ignored reference.trial target.trial = "" then .pass else .fail := by
  unfold judge
  cases reference.failed <;> cases target.failed
  case false.false =>
    simp only [Bool.false_and, Bool.or_self, Bool.false_eq_true, if_false]
    split <;> rfl
  all_goals rfl

/-- A build that failed although its compilation ended with zero. Its record looks like that of a success. -/
def Build.isLost (build : Build) : Bool := build.failed && build.trial.compile.exitCode = 0

/-- A recorded build is judged like the build itself, unless it is lost and the other one failed too. -/
theorem judge_ofRecord_status (proper : reference.Proper) (kept : ¬(reference.isLost = true ∧ target.failed = true)) :
    (judge file ignored (.ofRecord reference.trial) target).status = (judge file ignored reference target).status := by
  have recorded : (Build.ofRecord reference.trial).failed = decide (reference.trial.compile.exitCode ≠ 0) := rfl
  have trial : (Build.ofRecord reference.trial).trial = reference.trial := rfl
  rw [judge_status, judge_status, recorded, trial]
  cases failed : reference.failed with
  | false => simp [proper.compiled failed]
  | true =>
    by_cases zero : reference.trial.compile.exitCode = 0
    · -- The target compiler has made a program, so both are compared with a run that is missing.
      have made : target.failed = false := by simpa [Build.isLost, failed, zero] using kept
      have missing : compare ignored reference.trial target.trial = "Missing run result.\n" := by
        simp only [compare, proper.unrun failed]
      simp [zero, missing, made]
    · simp [zero]

theorem judge_status_of_isLost (lost : reference.isLost = true) (failed : target.failed = true) :
    (judge file ignored reference target).status = .pass ∧
      (judge file ignored (.ofRecord reference.trial) target).status = .fail := by
  obtain ⟨refused, zero⟩ : reference.failed = true ∧ reference.trial.compile.exitCode = 0 := by
    simpa [Build.isLost] using lost
  have recorded : (Build.ofRecord reference.trial).failed = false := by simp [Build.ofRecord, zero]
  constructor
  · rw [judge_status]
    simp [refused, failed]
  · rw [judge_status]
    simp [recorded, failed]

end Judging

/-- The reference behaviour on a file as it was recorded. -/
structure Recording (World : Type) where
  bench : Bench (StateM World)
  options : Options
  file : String
  hash : String
  before : Session
  world : World
  after : Session
  worldAfter : World
  hashed : hashOf before.files file = .ok hash
  made : generate bench options [file] before world = ((0, after), worldAfter)

namespace Recording
variable {World : Type} (recording : Recording World)

/-- What the reference compiler made of the file at that time. -/
def reference : Build :=
  (buildReference recording.bench recording.options recording.file recording.hash recording.before recording.world).1.1

def path : String := Golden.path (recording.options.text "dir") recording.file

/-- A later test of a file whose text and recording are still there. -/
structure Rerun where
  options : Options
  found : Bool
  session : Session
  world : World
  dir : options.text "dir" = recording.options.text "dir"
  hashed : hashOf session.files recording.file = .ok recording.hash
  kept : session.files.read recording.path = recording.after.files.read recording.path
  locks : (Golden.lock session.files (Golden.folder (options.text "dir") recording.file)).isOk = true

namespace Rerun
variable {recording} (rerun : recording.Rerun)

/-- Whether the recording is used in place of the reference compiler. -/
def isReplay : Bool := rerun.options.isOn "cached" || !rerun.found

def result : FileResult :=
  (testFile recording.bench rerun.options rerun.found recording.file rerun.session rerun.world).1.1

def ignored : List String := (ignoredTexts (rerun.options.text "ignore-lines")).getD []

def buildsReference : (Build × Session) × World :=
  buildReference recording.bench rerun.options recording.file recording.hash rerun.session rerun.world

/-- What the target compiler makes of the file, after the reference compiler if that one is used. -/
def target : Build :=
  let world := if rerun.isReplay then rerun.world else rerun.buildsReference.2
  (buildTarget recording.bench rerun.options recording.file recording.hash rerun.session world).1.1

end Rerun

/-- A recording holds the whole trial, under the hash of the source. -/
theorem read_after : recording.after.files.read recording.path =
    .ok (Golden.toJson ⟨recording.hash, some recording.reference.trial⟩).indented := by
  have looks : ∀ (f : Session → Work (StateM World) Nat) session, (get >>= f) session = f session session :=
    fun _ _ => rfl
  have runs : ∀ (work : Work (StateM World) Build) (f : Build → Work (StateM World) Nat) session world,
      (work >>= f) session world =
        f (work session world).1.1 (work session world).1.2 (work session world).2 := fun _ _ _ _ => rfl
  have apart := buildReference_apart recording.bench recording.options recording.file recording.hash
  have made := recording.made
  unfold generate at made
  rw [looks, recording.hashed] at made
  dsimp only at made
  rw [runs, apart.session, looks] at made
  cases stored : Golden.store recording.before.files (recording.options.text "dir") recording.file
      ⟨recording.hash, some recording.reference.trial⟩ with
  | error why =>
    unfold reference at stored
    simp only [stored] at made
    cases made
  | ok files =>
    have written := Golden.read_store stored
    unfold reference at stored
    simp only [stored] at made
    have same : files = recording.after.files := congrArg (·.1.2.files) made
    rw [← same]
    exact written

theorem load_eq (fits : recording.bench.Fits) (rerun : recording.Rerun) : ∃ locked,
    Golden.load rerun.session.files (rerun.options.text "dir") recording.file recording.hash =
      (locked, .ok (some recording.reference.trial)) := by
  have text := rerun.kept.trans recording.read_after
  have whole : recording.reference.trial.Fits := build_fits fits _ _ _ _ _ recording.before recording.world
  have locks := rerun.locks
  rw [path, ← rerun.dir] at text
  cases taken : Golden.lock rerun.session.files (Golden.folder (rerun.options.text "dir") recording.file) with
  | error why =>
    rw [taken] at locks
    cases locks
  | ok locked =>
    refine ⟨locked, Golden.load_eq text ?_ taken⟩
    rintro _ ⟨⟩
    exact whole

namespace Rerun
variable {recording}

/-- A test with the recording in reach: it is replayed, or else the reference compiler comes first. -/
theorem result_eq (fits : recording.bench.Fits) (rerun : recording.Rerun) :
    rerun.result = judge recording.file rerun.ignored
      (if rerun.isReplay then .ofRecord recording.reference.trial else rerun.buildsReference.1.1) rerun.target := by
  have looks : ∀ (f : Session → Work (StateM World) FileResult) session, (get >>= f) session = f session session :=
    fun _ _ => rfl
  obtain ⟨locked, loaded⟩ := recording.load_eq fits rerun
  have reference := buildReference_apart recording.bench rerun.options recording.file recording.hash
  have target := buildTarget_apart recording.bench rerun.options recording.file recording.hash
  unfold result testFile
  rw [looks, rerun.hashed]
  simp only [loaded]
  -- The builds do not see that the lock has been taken.
  let taken : Session := { rerun.session with files := locked }
  cases replays : rerun.isReplay with
  | true =>
    have chosen : Source.choose (rerun.options.isOn "cached") rerun.found (some recording.reference.trial) =
        .recorded recording.reference.trial := if_pos replays
    have builds := target.result taken rerun.session rerun.world
    simp only [chosen, if_true, Rerun.target, replays, ← builds]
    rfl
  | false =>
    have chosen : Source.choose (rerun.options.isOn "cached") rerun.found (some recording.reference.trial) = .live :=
      if_neg (Bool.eq_false_iff.mp replays)
    let ran := buildReference recording.bench rerun.options recording.file recording.hash taken rerun.world
    have first := reference.result taken rerun.session rerun.world
    have between := reference.world taken rerun.session rerun.world
    have builds := target.result ran.1.2 rerun.session ran.2
    simp only [chosen, Bool.false_eq_true, if_false, Rerun.target, replays, buildsReference]
    rw [← first, ← between, ← builds]
    rfl

end Rerun

/-- A replay reports what a test with the reference compiler reports, with one exception: if that compiler made no
program and ended with zero all the same, a target compiler that fails passes the test and fails the replay. -/
theorem replay_status (fits : recording.bench.Fits) (live replay : recording.Rerun)
    (lives : live.isReplay = false) (replays : replay.isReplay = true)
    (reference : live.buildsReference.1.1 = recording.reference) (target : live.target = replay.target)
    (ignored : live.ignored = replay.ignored) :
    (¬(recording.reference.isLost = true ∧ replay.target.failed = true) → replay.result.status = live.result.status) ∧
    (recording.reference.isLost = true ∧ replay.target.failed = true →
      live.result.status = .pass ∧ replay.result.status = .fail) := by
  have proper : recording.reference.Proper := build_proper _ _ _ _ _ _ recording.before recording.world
  rw [Rerun.result_eq fits live, Rerun.result_eq fits replay, lives, replays, reference, target, ignored]
  exact ⟨judge_ofRecord_status proper, fun lost => judge_status_of_isLost lost.1 lost.2⟩

end Recording

/-- A machine on which both compilers and the programs they make behave as given. -/
def steadyBench (reference target run : Execution) (made : Bool) : Bench (StateM Unit) where
  scratch := "/tmp"
  canRun _ := pure true
  execute program _ := pure (if program = "cc" then reference else if program = "./nqcc" then target else run)
  isMade _ := pure made

theorem steadyBench_fits {reference target run : Execution} {made : Bool} (first : reference.Fits) (second : target.Fits)
    (third : run.Fits) : (steadyBench reference target run made).Fits := by
  intro program args world
  change Execution.Fits (if program = "cc" then reference else if program = "./nqcc" then target else run)
  split_ifs
  · exact first
  · exact second
  · exact third

def loneSession : Session where
  files := { files := [(["a.c"], "int x;")] }

/-- A source on its own, recorded with the default options. -/
def loneRecording (bench : Bench (StateM Unit)) (ended : (generate bench {} ["a.c"] loneSession ()).1.1 = 0) :
    Recording Unit where
  bench
  options := {}
  file := "a.c"
  hash := Digest.ofText "int x;"
  before := loneSession
  world := ()
  after := (generate bench {} ["a.c"] loneSession ()).1.2
  worldAfter := ()
  hashed := by decide +kernel
  made := by
    rw [← ended]
    rfl

/-- The compilers make programs that print a line. -/
def answering : Recording Unit :=
  loneRecording (steadyBench {} {} { stdout := "1\n", exitCode := 3, duration := 40 } true) (by decide +kernel)

/-- The reference compiler ends with zero and makes nothing, and the target compiler fails. -/
def fruitless : Recording Unit := loneRecording (steadyBench {} { exitCode := 1 } {} false) (by decide +kernel)

/-- A test right after the recording. -/
def Recording.next (recording : Recording Unit) (options : Options)
    (dir : options.text "dir" = recording.options.text "dir")
    (hashed : hashOf recording.after.files recording.file = .ok recording.hash)
    (locks : (Golden.lock recording.after.files (Golden.folder (options.text "dir") recording.file)).isOk = true) :
    recording.Rerun where
  options
  found := true
  session := recording.after
  world := ()
  dir
  hashed
  kept := rfl
  locks

def cached : Options := ({} : Options).put "cached" (.switch true)

/-- A replay of what the reference program printed passes like the test itself. -/
theorem replay_status_answering :
    ∃ live replay : answering.Rerun, answering.bench.Fits ∧ live.isReplay = false ∧ replay.isReplay = true ∧
      live.buildsReference.1.1 = answering.reference ∧ live.target = replay.target ∧ live.ignored = replay.ignored ∧
      answering.reference.isLost = false ∧ replay.result.status = live.result.status := by
  have fits : answering.bench.Fits := steadyBench_fits ⟨rfl, rfl⟩ ⟨rfl, rfl⟩ ⟨rfl, rfl⟩
  let live := answering.next {} rfl (by decide +kernel) (by decide +kernel)
  let replay := answering.next cached (by decide +kernel) (by decide +kernel) (by decide +kernel)
  have lost : answering.reference.isLost = false := by decide +kernel
  have lives : live.isReplay = false := by decide +kernel
  have replays : replay.isReplay = true := by decide +kernel
  have target : live.target = replay.target := by decide +kernel
  refine ⟨live, replay, fits, lives, replays, rfl, target, rfl, lost, ?_⟩
  exact (answering.replay_status fits live replay lives replays rfl target rfl).1 (by simp [lost])

/-- Both compilers fail, so the test passes. The recording tells only of the exit code, so the replay does not. -/
theorem fruitless_replay_fails :
    ∃ live replay : fruitless.Rerun, fruitless.bench.Fits ∧ live.isReplay = false ∧ replay.isReplay = true ∧
      live.buildsReference.1.1 = fruitless.reference ∧ live.target = replay.target ∧ live.ignored = replay.ignored ∧
      live.result.status = .pass ∧ replay.result.status = .fail := by
  have fits : fruitless.bench.Fits := steadyBench_fits ⟨rfl, rfl⟩ ⟨rfl, rfl⟩ ⟨rfl, rfl⟩
  let live := fruitless.next {} rfl (by decide +kernel) (by decide +kernel)
  let replay := fruitless.next cached (by decide +kernel) (by decide +kernel) (by decide +kernel)
  refine ⟨live, replay, fits, ?_, ?_, rfl, ?_, rfl, ?_, ?_⟩
  · decide +kernel
  · decide +kernel
  · decide +kernel
  · rw [Recording.Rerun.result_eq fits live]
    decide +kernel
  · rw [Recording.Rerun.result_eq fits replay]
    decide +kernel

end IntC.Suite
