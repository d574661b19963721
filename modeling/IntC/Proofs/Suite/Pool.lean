import IntC.Proofs.Suite.Dispatch
import Mathlib.Algebra.Ring.Nat
import Mathlib.Data.List.Perm.Subperm
import Mathlib.Logic.Relation

namespace IntC.Suite

/-! Workers that test the files of a suite side by side. One process hands the files out through a queue, the workers
send their results through another, and no queue holds more than there are files. -/

/-- What a worker is doing. -/
inductive Worker where
  | waiting
  | testing (file : String)
  | sending (result : FileResult)
  | done
deriving DecidableEq

/-- How far the process that hands out the files is: it goes through the files, waits until every worker is done, empties
the queue of the results and reports them. -/
inductive Phase where
  | giving (seen : List (String × String)) (rest : List String)
  | awaiting
  | gathering (got : List FileResult)
  | reported (results : List FileResult)
deriving DecidableEq

structure Pool where
  phase : Phase
  tasks : List String
  results : List FileResult
  workers : List Worker
deriving DecidableEq

/-- A suite to be run by a pool. -/
structure Batch (World : Type) where
  bench : Bench (StateM World)
  options : Options
  found : Bool
  hashOf : String → Except FileFault String
  skipped : List String
  files : List String
  jobs : Int
  /-- The circumstances in which a test may be made. -/
  around : Session → World → Prop

def Phase.isClosed : Phase → Bool
  | .giving .. => false
  | _ => true

/-- Whether the workers are no longer waited for. -/
def Phase.isPast : Phase → Bool
  | .gathering _ | .reported _ => true
  | _ => false

namespace Batch
variable {World : Type} (batch : Batch World)

def test (file : String) (session : Session) (world : World) : (FileResult × Session) × World :=
  testFile batch.bench batch.options batch.found file session world

def start : Pool := ⟨.giving [] batch.files, [], [], List.replicate (max batch.jobs 1).toNat .waiting⟩

/-- What one process of the pool can do next. A send takes place only if there is room in the queue. The sort at the end
may put results for the same file in any order. -/
inductive Step : Pool → Pool → Prop
  | settle {seen after rest file result tasks results workers}
      (settled : settle batch.hashOf batch.skipped seen file = (some result, after))
      (room : results.length < batch.files.length) :
      Step ⟨.giving seen (file :: rest), tasks, results, workers⟩
        ⟨.giving after rest, tasks, results ++ [result], workers⟩
  | give {seen after rest file tasks results workers}
      (fresh : Suite.settle batch.hashOf batch.skipped seen file = (none, after))
      (room : tasks.length < batch.files.length) :
      Step ⟨.giving seen (file :: rest), tasks, results, workers⟩ ⟨.giving after rest, tasks ++ [file], results, workers⟩
  | close {seen tasks results workers} :
      Step ⟨.giving seen [], tasks, results, workers⟩ ⟨.awaiting, tasks, results, workers⟩
  | take {phase file tasks results before after} :
      Step ⟨phase, file :: tasks, results, before ++ .waiting :: after⟩
        ⟨phase, tasks, results, before ++ .testing file :: after⟩
  | test {phase file tasks results before after session world} (around : batch.around session world) :
      Step ⟨phase, tasks, results, before ++ .testing file :: after⟩
        ⟨phase, tasks, results, before ++ .sending (batch.test file session world).1.1 :: after⟩
  | send {phase result tasks results before after} (room : results.length < batch.files.length) :
      Step ⟨phase, tasks, results, before ++ .sending result :: after⟩
        ⟨phase, tasks, results ++ [result], before ++ .waiting :: after⟩
  | leave {phase : Phase} {results before after} (closed : phase.isClosed = true) :
      Step ⟨phase, [], results, before ++ .waiting :: after⟩ ⟨phase, [], results, before ++ .done :: after⟩
  | gather {tasks results workers} (left : ∀ worker ∈ workers, worker = .done) :
      Step ⟨.awaiting, tasks, results, workers⟩ ⟨.gathering [], tasks, results, workers⟩
  | collect {got result tasks results workers} :
      Step ⟨.gathering got, tasks, result :: results, workers⟩ ⟨.gathering (got ++ [result]), tasks, results, workers⟩
  | report {got sorted tasks workers} (order : sorted.Pairwise fun a b => ¬b.file < a.file) (same : sorted.Perm got) :
      Step ⟨.gathering got, tasks, [], workers⟩ ⟨.reported sorted, tasks, [], workers⟩

/-- The pools that a suite can come to. -/
abbrev Reaches (pool : Pool) : Prop := Relation.ReflTransGen batch.Step batch.start pool

/-- Tests can be made, and what a test of a file gives depends on the file alone. -/
structure Steady (outcome : String → FileResult) : Prop where
  possible : ∃ session world, batch.around session world
  gives : ∀ file ∈ batch.files, ∀ session world, batch.around session world →
    (batch.test file session world).1.1 = outcome file

/-- Tests leave the circumstances in which they may be made. -/
def Lasting : Prop := ∀ file ∈ batch.files, ∀ session world, batch.around session world →
  batch.around (batch.test file session world).1.2 (batch.test file session world).2

def expected (outcome : String → FileResult) : List FileResult :=
  (dispatch batch.hashOf batch.skipped [] batch.files).map (resultOf outcome)

end Batch

namespace Worker

def file? : Worker → Option String
  | testing file => some file
  | _ => none

def owed (outcome : String → FileResult) : Worker → List FileResult
  | testing file => [outcome file]
  | sending result => [result]
  | _ => []

def labor : Worker → Nat
  | waiting => 1
  | testing _ => 4
  | sending _ => 3
  | done => 0

end Worker

namespace Pool
variable {World : Type} (batch : Batch World) (outcome : String → FileResult)

/-- The files in the hands of the workers or on the way to them. -/
def inHand (pool : Pool) : List String := pool.tasks ++ pool.workers.filterMap Worker.file?

def remaining (pool : Pool) : List String :=
  (match pool.phase with
    | .giving seen rest => toTest batch.hashOf batch.skipped seen rest
    | _ => []) ++ pool.inHand

/-- The results there are, together with those that will come of the files that have none. -/
def pending (pool : Pool) : List FileResult :=
  (match pool.phase with
    | .giving seen rest => (dispatch batch.hashOf batch.skipped seen rest).map (resultOf outcome)
    | .awaiting => []
    | .gathering got => got
    | .reported results => results) ++
    pool.results ++ pool.tasks.map outcome ++ pool.workers.flatMap (Worker.owed outcome)

/-- What is left to do. Every step does some of it. -/
def labor (pool : Pool) : Nat :=
  (match pool.phase with
    | .giving _ rest => 6 * rest.length + 3
    | .awaiting => 2
    | .gathering _ => 1
    | .reported _ => 0) + 4 * pool.tasks.length + pool.results.length + (pool.workers.map Worker.labor).sum

end Pool

namespace Batch
variable {World : Type} {batch : Batch World} {outcome : String → FileResult} {pool next : Pool}

theorem Step.labor (step : batch.Step pool next) : next.labor < pool.labor := by
  cases step <;> simp only [Pool.labor, Worker.labor, List.map_append, List.map_cons, List.sum_append, List.sum_cons,
    List.length_append, List.length_cons, List.length_nil] <;> omega

theorem Step.remaining (step : batch.Step pool next) : (next.remaining batch).Subperm (pool.remaining batch) := by
  refine List.subperm_ext_iff.mpr fun name _ => ?_
  cases step with
  | settle settled room => simp [Pool.remaining, Pool.inHand, toTest_of_some settled]
  | give fresh room =>
    simp only [Pool.remaining, Pool.inHand, toTest_of_none fresh, List.count_append, List.count_cons, List.count_nil]
    omega
  | take | test around =>
    simp only [Pool.remaining, Pool.inHand, Worker.file?, List.filterMap_append, List.filterMap_cons,
      List.count_append, List.count_cons]
    omega
  | _ => simp [Pool.remaining, Pool.inHand, Worker.file?, List.filterMap_cons]

/-- Results come about and change places, but none is lost and none is made twice. -/
theorem Step.pending (steady : batch.Steady outcome) (inside : ∀ file ∈ pool.inHand, file ∈ batch.files)
    (step : batch.Step pool next) : (next.pending batch outcome).Perm (pool.pending batch outcome) := by
  refine List.perm_iff_count.mpr fun result => ?_
  cases step with
  | settle settled room =>
    simp only [Pool.pending, dispatch_cons, settled, resultOf, List.map_cons, Option.getD_some, List.count_append,
      List.count_cons, List.count_nil]
    omega
  | give fresh room =>
    simp only [Pool.pending, dispatch_cons, fresh, resultOf, List.map_cons, List.map_append, List.map_nil,
      Option.getD_none, List.count_append, List.count_cons, List.count_nil]
    omega
  | close => simp [Pool.pending, dispatch]
  | @test phase file tasks results before after session world around =>
    have known : (batch.test file session world).1.1 = outcome file :=
      steady.gives file (inside file (by simp [Pool.inHand, Worker.file?])) session world around
    simp [Pool.pending, Worker.owed, known]
  | take | send room =>
    simp only [Pool.pending, Worker.owed, List.map_cons, List.flatMap_append, List.flatMap_cons, List.count_append,
      List.count_cons, List.count_nil]
    omega
  | report order same => simp [Pool.pending, same.count_eq]
  | _ => simp [Pool.pending, Worker.owed]

end Batch

/-- There are workers. One that is done has seen that there is nothing left to take, results are gathered only when all
are done, and a report is sorted and leaves no result behind. -/
structure Pool.Orderly (pool : Pool) : Prop where
  staffed : pool.workers ≠ []
  idle : .done ∈ pool.workers → pool.phase.isClosed = true ∧ pool.tasks = []
  past : pool.phase.isPast = true → ∀ worker ∈ pool.workers, worker = .done
  sorted : ∀ results, pool.phase = .reported results →
    pool.results = [] ∧ results.Pairwise fun a b => ¬b.file < a.file

/-- A worker that is not done turns to something else. As long as one works, the pool is not past its workers. -/
theorem Pool.Orderly.turn {phase : Phase} {tasks : List String} {results : List FileResult} {worker : Worker}
    {before after : List Worker} (orderly : Pool.Orderly ⟨phase, tasks, results, before ++ worker :: after⟩)
    (busy : worker ≠ .done) {other : Worker} {left : List String}
    (idle : .done ∈ before ++ other :: after → phase.isClosed = true ∧ left = []) (sent : List FileResult) :
    Pool.Orderly ⟨phase, left, sent, before ++ other :: after⟩ := by
  have early : phase.isPast ≠ true := fun past => busy (orderly.past past worker (by simp))
  refine ⟨by simp, idle, fun past => absurd past early, ?_⟩
  rintro results rfl
  exact absurd rfl early

namespace Batch
variable {World : Type} {batch : Batch World} {outcome : String → FileResult} {pool next : Pool}

theorem start_orderly : batch.start.Orderly where
  staffed := by
    have some : (max batch.jobs 1).toNat ≠ 0 := by omega
    exact mt (List.replicate_eq_nil_iff _).mp some
  idle member := by simp [start] at member
  past closed := by cases closed
  sorted _ reported := by cases reported

theorem Step.orderly (orderly : pool.Orderly) (step : batch.Step pool next) : next.Orderly := by
  cases step with
  | settle settled room | give fresh room | close =>
    refine ⟨orderly.staffed, fun member => ?_, nofun, nofun⟩
    exact (Bool.false_ne_true (orderly.idle member).1).elim
  | take =>
    refine orderly.turn nofun (fun member => ?_) _
    exact (List.cons_ne_nil _ _ (orderly.idle (by simpa using member)).2).elim
  | test around | send room => exact orderly.turn nofun (fun member => orderly.idle (by simpa using member)) _
  | leave closed => exact orderly.turn nofun (fun _ => ⟨closed, rfl⟩) _
  | gather left => exact ⟨orderly.staffed, fun member => ⟨rfl, (orderly.idle member).2⟩, fun _ => left, nofun⟩
  | collect => exact ⟨orderly.staffed, orderly.idle, orderly.past, nofun⟩
  | report order same =>
    refine ⟨orderly.staffed, orderly.idle, orderly.past, ?_⟩
    rintro results ⟨⟩
    exact ⟨rfl, order⟩

theorem Reaches.orderly (reaches : batch.Reaches pool) : pool.Orderly := by
  induction reaches with
  | refl => exact start_orderly
  | tail _ step ih => exact step.orderly ih

theorem Reaches.remaining (reaches : batch.Reaches pool) :
    (pool.remaining batch).Subperm (toTest batch.hashOf batch.skipped [] batch.files) := by
  induction reaches with
  | refl =>
    have all : batch.start.remaining batch = toTest batch.hashOf batch.skipped [] batch.files := by
      simp [start, Pool.remaining, Pool.inHand, Worker.file?]
    exact all ▸ List.Subperm.refl _
  | tail _ step ih => exact step.remaining.trans ih

theorem Reaches.inHand (reaches : batch.Reaches pool) :
    pool.inHand.Subperm (toTest batch.hashOf batch.skipped [] batch.files) :=
  (List.sublist_append_right _ _).subperm.trans reaches.remaining

theorem Reaches.pending (steady : batch.Steady outcome) (reaches : batch.Reaches pool) :
    (pool.pending batch outcome).Perm (batch.expected outcome) := by
  induction reaches with
  | refl =>
    have nothing : (List.replicate (max batch.jobs 1).toNat .waiting).flatMap (Worker.owed outcome) = [] :=
      List.flatMap_eq_nil_iff.mpr fun worker member => (List.eq_of_mem_replicate member).symm ▸ rfl
    simp [start, Pool.pending, expected, nothing]
  | tail earlier step ih =>
    refine (step.pending steady fun file member => ?_).trans ih
    exact toTest_subset _ ((Reaches.inHand earlier).subset member)

end Batch

/-- Wherever a send is due, there is room in the queue. -/
structure Pool.HasRoom {World : Type} (batch : Batch World) (pool : Pool) : Prop where
  settled : ∀ seen file rest result after, pool.phase = .giving seen (file :: rest) →
    settle batch.hashOf batch.skipped seen file = (some result, after) → pool.results.length < batch.files.length
  given : ∀ seen file rest after, pool.phase = .giving seen (file :: rest) →
    settle batch.hashOf batch.skipped seen file = (none, after) → pool.tasks.length < batch.files.length
  sent : ∀ result, .sending result ∈ pool.workers → pool.results.length < batch.files.length

namespace Batch
variable {World : Type} {batch : Batch World} {outcome : String → FileResult} {pool next : Pool}

theorem Reaches.length_pending (steady : batch.Steady outcome) (reaches : batch.Reaches pool) :
    (pool.pending batch outcome).length = batch.files.length := by
  rw [(reaches.pending steady).length_eq, expected, List.length_map, length_dispatch]

theorem Reaches.hasRoom (steady : batch.Steady outcome) (reaches : batch.Reaches pool) : pool.HasRoom batch := by
  have all := reaches.length_pending steady
  simp only [Pool.pending, List.length_append, List.length_map] at all
  refine ⟨fun seen file rest result after phase settled => ?_, fun seen file rest after phase fresh => ?_,
    fun result sending => ?_⟩
  · rw [phase] at all
    simp only [List.length_map, length_dispatch, List.length_cons] at all
    omega
  · rw [phase] at all
    simp only [List.length_map, length_dispatch, List.length_cons] at all
    omega
  · obtain ⟨before, after, split⟩ := List.append_of_mem sending
    rw [split] at all
    simp only [List.flatMap_append, List.flatMap_cons, Worker.owed, List.length_append, List.length_singleton] at all
    omega

/-- As long as there is no report, something can be done. -/
theorem Reaches.exists_step (steady : batch.Steady outcome) (reaches : batch.Reaches pool)
    (unfinished : ∀ results, pool.phase ≠ .reported results) : ∃ next, batch.Step pool next := by
  have room := reaches.hasRoom steady
  obtain ⟨phase, tasks, results, workers⟩ := pool
  cases phase with
  | giving seen rest =>
    cases rest with
    | nil => exact ⟨_, .close⟩
    | cons file rest =>
      obtain ⟨result, settled, -⟩ | ⟨hash, -, -, fresh⟩ := settle_cases batch.hashOf batch.skipped seen file
      · exact ⟨_, .settle settled (room.settled _ _ _ _ _ rfl settled)⟩
      · exact ⟨_, .give fresh (room.given _ _ _ _ rfl fresh)⟩
  | awaiting =>
    by_cases left : ∀ worker ∈ workers, worker = .done
    · exact ⟨_, .gather left⟩
    · obtain ⟨worker, member, busy⟩ : ∃ worker ∈ workers, worker ≠ .done := by simpa using left
      obtain ⟨before, after, rfl⟩ := List.append_of_mem member
      cases worker with
      | waiting =>
        cases tasks with
        | nil => exact ⟨_, .leave rfl⟩
        | cons file tasks => exact ⟨_, .take⟩
      | testing file =>
        obtain ⟨session, world, around⟩ := steady.possible
        exact ⟨_, .test around⟩
      | sending result => exact ⟨_, .send (room.sent result (by simp))⟩
      | done => exact absurd rfl busy
  | gathering got =>
    cases results with
    | nil => exact ⟨_, .report (pairwise_sortByFile got) (sortByFile_perm got)⟩
    | cons result results => exact ⟨_, .collect⟩
  | reported results => exact absurd rfl (unfinished results)

theorem wellFounded_step (batch : Batch World) : WellFounded fun next pool => batch.Step pool next :=
  Subrelation.wf (fun step => step.labor) (measure Pool.labor).wf

/-- Every run can be brought to its end, and it cannot be kept from it. -/
theorem Reaches.exists_reported (steady : batch.Steady outcome) (reaches : batch.Reaches pool) :
    ∃ last results, Relation.ReflTransGen batch.Step pool last ∧ last.phase = .reported results := by
  induction pool using batch.wellFounded_step.induction with
  | _ pool ih =>
    by_cases finished : ∃ results, pool.phase = .reported results
    · obtain ⟨results, phase⟩ := finished
      exact ⟨pool, results, .refl, phase⟩
    · obtain ⟨next, step⟩ := reaches.exists_step steady (not_exists.mp finished)
      obtain ⟨last, results, run, phase⟩ := ih next step (reaches.tail step)
      exact ⟨last, results, .head step run, phase⟩

theorem Steady.map_file_expected (steady : batch.Steady outcome) :
    (batch.expected outcome).map FileResult.file = batch.files := by
  refine map_file_resultOf fun file member => ?_
  obtain ⟨session, world, around⟩ := steady.possible
  rw [← steady.gives file member session world around]
  exact testFile_file batch.bench batch.options batch.found file session world

/-- Whatever the order of things was, the report is the sorted list of one result for each file. -/
theorem Reaches.eq_of_reported (distinct : batch.files.Nodup) (steady : batch.Steady outcome)
    (reaches : batch.Reaches pool) {results : List FileResult} (phase : pool.phase = .reported results) :
    results = sortByFile (batch.expected outcome) := by
  have orderly := reaches.orderly
  obtain ⟨gathered, order⟩ := orderly.sorted results phase
  have left : ∀ worker ∈ pool.workers, worker = .done := orderly.past (by rw [phase]; rfl)
  obtain ⟨worker, member⟩ := List.exists_mem_of_ne_nil _ orderly.staffed
  have taken : pool.tasks = [] := (orderly.idle (left worker member ▸ member)).2
  have nothing : pool.workers.flatMap (Worker.owed outcome) = [] :=
    List.flatMap_eq_nil_iff.mpr fun worker member => (left worker member).symm ▸ rfl
  have all : pool.pending batch outcome = results := by
    simp [Pool.pending, phase, gathered, taken, nothing]
  refine eq_sortByFile order (all ▸ reaches.pending steady) ?_
  rw [steady.map_file_expected]
  exact distinct

/-- Two files have different hashes, so that tests of them have no programs in common. A slash in a hash would be taken
for one in a path. -/
def Apart (batch : Batch World) (file other : String) : Prop :=
  ∃ hash next, batch.hashOf file = .ok hash ∧ batch.hashOf other = .ok next ∧ hash ≠ next ∧
    ('/' ∉ hash.toList → '/' ∉ next.toList → (batch.bench.binaries hash).Disjoint (batch.bench.binaries next))

theorem pairwise_toTest (batch : Batch World) :
    (toTest batch.hashOf batch.skipped [] batch.files).Pairwise batch.Apart := by
  have differ : ((toTest batch.hashOf batch.skipped [] batch.files).map batch.hashOf).Nodup := nodup_hashes _
  refine (List.pairwise_map.mp differ).imp_of_mem fun {file other} member memberToo unequal => ?_
  obtain ⟨hash, read, -⟩ := hash_of_mem_toTest member
  obtain ⟨next, readToo, -⟩ := hash_of_mem_toTest memberToo
  have unlike : hash ≠ next := fun same => unequal (read.trans (same ▸ readToo.symm))
  exact ⟨hash, next, read, readToo, unlike, batch.bench.disjoint_binaries unlike⟩

theorem Apart.symm {file other : String} (apart : batch.Apart file other) : batch.Apart other file := by
  obtain ⟨hash, next, read, readToo, differ, disjoint⟩ := apart
  exact ⟨next, hash, readToo, read, differ.symm, fun single singleToo path listed listedToo =>
    disjoint singleToo single listedToo listed⟩

theorem Reaches.pairwise_inHand (reaches : batch.Reaches pool) : pool.inHand.Pairwise batch.Apart := by
  obtain ⟨sorted, same, planned⟩ := reaches.inHand
  exact (same.pairwise_iff fun apart => apart.symm).mp (batch.pairwise_toTest.sublist planned)

end Batch

/-- Testing the files one after the other is one way to come to the results. -/
theorem testAll_of_steady {World : Type} {batch : Batch World} {outcome : String → FileResult}
    (steady : batch.Steady outcome) (lasting : batch.Lasting) {session : Session} {world : World}
    (around : batch.around session world) (read : hashOf session.files = batch.hashOf) :
    (testAll batch.bench batch.options batch.found batch.skipped batch.files session world).1.1 =
      sortByFile (batch.expected outcome) := by
  have gives : ∀ entry ∈ dispatch batch.hashOf batch.skipped [] batch.files, ∀ session world,
      batch.around session world →
      (testFile batch.bench batch.options batch.found entry.1 session world).1.1 = outcome entry.1 :=
    fun entry member => steady.gives entry.1 (fst_mem_of_mem_dispatch member)
  have results := mapM_results gives (fun entry member => lasting entry.1 (fst_mem_of_mem_dispatch member)) around
  unfold Batch.expected
  rw [← read] at results ⊢
  exact congrArg sortByFile results

/-- However the workers of a pool and the process that hands out the files take turns, there is room in the queue for
everything that is sent, and something can be done until there is a report, which is so after finitely many steps. Files
that are tested at the same time have different hashes, and a test goes about no programs but those that are named after
the hash of its file, which holds no slash. The report is the same every time: one result for each file, in the order of
the files, and the one there is if the files are tested one after the other. -/
theorem pool_reports_once {World : Type} (batch : Batch World) (distinct : batch.files.Nodup)
    {outcome : String → FileResult} (steady : batch.Steady outcome) :
    let report := sortByFile (batch.expected outcome)
    (∀ pool, batch.Reaches pool →
      pool.HasRoom batch ∧ ((∀ results, pool.phase ≠ .reported results) → ∃ next, batch.Step pool next) ∧
      pool.inHand.Pairwise batch.Apart ∧ (∀ results, pool.phase = .reported results → results = report) ∧
      ∃ last, Relation.ReflTransGen batch.Step pool last ∧ last.phase = .reported report) ∧
    (WellFounded fun next pool => batch.Step pool next) ∧
    (toTest batch.hashOf batch.skipped [] batch.files).Pairwise batch.Apart ∧
    (∀ file session hash, hashOf session.files file = .ok hash → '/' ∉ hash.toList ∧
      testFile (batch.bench.within (batch.bench.binaries hash)) batch.options batch.found file session =
        testFile batch.bench batch.options batch.found file session) ∧
    (report.map FileResult.file).Perm batch.files ∧
    ∀ session world, batch.around session world → hashOf session.files = batch.hashOf → batch.Lasting →
      (testAll batch.bench batch.options batch.found batch.skipped batch.files session world).1.1 = report := by
  intro report
  refine ⟨fun pool reaches => ?_, batch.wellFounded_step, batch.pairwise_toTest, ?_, ?_, ?_⟩
  · refine ⟨reaches.hasRoom steady, reaches.exists_step steady, reaches.pairwise_inHand,
      fun results phase => reaches.eq_of_reported distinct steady phase, ?_⟩
    obtain ⟨last, results, run, phase⟩ := reaches.exists_reported steady
    have same : results = report := Batch.Reaches.eq_of_reported distinct steady (reaches.trans run) phase
    exact ⟨last, run, same ▸ phase⟩
  · exact fun file session hash read =>
      ⟨slash_not_mem_hash read, testFile_within batch.bench batch.options batch.found file read⟩
  · rw [← steady.map_file_expected]
    exact (sortByFile_perm _).map _
  · exact fun session world around read lasting => testAll_of_steady steady lasting around read

/-- Three sources, two of them with the same text. -/
def mixedSession : Session where
  files := { files := [(["a.c"], "int x;"), (["b.c"], "int y;"), (["c.c"], "int x;"), ([".ctest.lock"], "")] }

/-- The suite is asked for one more, on a machine where every command does nothing. -/
def mixedBatch : Batch Unit where
  bench := ⟨"/tmp", fun _ => pure true, fun _ _ => pure {}, fun _ => pure true⟩
  options := {}
  found := true
  hashOf := hashOf mixedSession.files
  skipped := []
  files := ["d.c", "c.c", "b.c", "a.c"]
  jobs := 2
  around session _ := session = mixedSession

def mixedOutcome (file : String) : FileResult := (mixedBatch.test file mixedSession ()).1.1

def mixedReport : List FileResult := [
  { file := "a.c", status := .skip, message := "Content is identical to c.c" },
  mixedOutcome "b.c",
  mixedOutcome "c.c",
  { file := "d.c", status := .error,
    message := "Failed to read file for hashing: open d.c: no such file or directory" }]

theorem mixed_expected : mixedBatch.expected mixedOutcome = mixedReport.reverse := by
  have dispatched : dispatch mixedBatch.hashOf mixedBatch.skipped [] mixedBatch.files =
      [("d.c", mixedReport[3]?), ("c.c", none), ("b.c", none), ("a.c", mixedReport[0]?)] := by decide +kernel
  unfold Batch.expected
  rw [dispatched]
  simp [mixedReport, resultOf]

theorem mixed_steady : mixedBatch.Steady mixedOutcome where
  possible := ⟨mixedSession, (), rfl⟩
  gives := by
    rintro file - _ ⟨⟩ rfl
    rfl

theorem mixed_lasting : mixedBatch.Lasting := by
  have kept : ∀ file ∈ mixedBatch.files, (mixedBatch.test file mixedSession ()).1.2 = mixedSession := by decide +kernel
  rintro file member _ ⟨⟩ rfl
  exact kept file member

/-- Two workers test two of the files, and the report is sorted. -/
theorem pool_reports_once_mixed :
    mixedBatch.files.Nodup ∧ mixedBatch.Steady mixedOutcome ∧ mixedBatch.Lasting ∧
    (∃ last, mixedBatch.Reaches last ∧ last.phase = .reported mixedReport) ∧
    (∀ pool results, mixedBatch.Reaches pool → pool.phase = .reported results → results = mixedReport) ∧
    (testAll mixedBatch.bench mixedBatch.options mixedBatch.found mixedBatch.skipped mixedBatch.files mixedSession ()).1.1 =
      mixedReport := by
  have distinct : mixedBatch.files.Nodup := by decide
  have own : ∀ file, (mixedOutcome file).file = file :=
    fun file => testFile_file mixedBatch.bench mixedBatch.options mixedBatch.found file mixedSession ()
  have order : mixedReport.Pairwise fun a b => ¬b.file < a.file := by
    simp only [mixedReport, List.pairwise_cons, List.forall_mem_cons, List.Pairwise.nil, own]
    decide
  have sorted : mixedReport = sortByFile (mixedBatch.expected mixedOutcome) := by
    refine eq_sortByFile order (mixed_expected ▸ (List.reverse_perm mixedReport).symm) ?_
    rw [mixed_steady.map_file_expected]
    exact distinct
  obtain ⟨each, -, -, -, -, oneByOne⟩ := pool_reports_once mixedBatch distinct mixed_steady
  rw [← sorted] at each oneByOne
  obtain ⟨-, -, -, -, ends⟩ := each mixedBatch.start .refl
  refine ⟨distinct, mixed_steady, mixed_lasting, ends, fun pool results reaches => ?_, ?_⟩
  · exact (each pool reaches).2.2.2.1 results
  · exact oneByOne mixedSession () rfl rfl mixed_lasting

end IntC.Suite
