import IntC.Proofs.Path
import IntC.Suite.Run
import Mathlib.Data.List.Nodup

namespace IntC.Suite

variable {files : List String} {hash : String}

section Dispatch
variable {hashOf : String → Except FileFault String} {skipped : List String} {seen : List (String × String)}
  {file : String} {rest : List String}

/-- What can become of a file: a result is settled for it, or it is to be tested and its hash is new. -/
theorem settle_cases (hashOf : String → Except FileFault String) (skipped : List String)
    (seen : List (String × String)) (file : String) :
    (∃ result, settle hashOf skipped seen file = (some result, seen) ∧ result.file = file) ∨
    ∃ hash, hashOf file = .ok hash ∧ seen.lookup hash = none ∧
      settle hashOf skipped seen file = (none, (hash, file) :: seen) := by
  unfold settle
  split
  · exact .inl ⟨_, rfl, rfl⟩
  cases read : hashOf file with
  | error fault => exact .inl ⟨_, rfl, rfl⟩
  | ok hash =>
    cases known : seen.lookup hash with
    | some earlier =>
      refine .inl ⟨{ file, status := .skip, message := "Content is identical to " ++ earlier }, ?_, rfl⟩
      simp only [known]
    | none =>
      refine .inr ⟨hash, rfl, known, ?_⟩
      simp only [known]

theorem dispatch_cons : dispatch hashOf skipped seen (file :: rest) =
    (file, (settle hashOf skipped seen file).1) ::
      dispatch hashOf skipped (settle hashOf skipped seen file).2 rest := rfl

theorem map_fst_dispatch (files : List String) : (dispatch hashOf skipped seen files).map Prod.fst = files := by
  induction files generalizing seen with
  | nil => rfl
  | cons file rest ih => rw [dispatch_cons, List.map_cons, ih]

theorem fst_mem_of_mem_dispatch {entry : String × Option FileResult}
    (member : entry ∈ dispatch hashOf skipped seen files) : entry.1 ∈ files := by
  have listed := List.mem_map_of_mem (f := Prod.fst) member
  rwa [map_fst_dispatch] at listed

theorem length_dispatch (files : List String) : (dispatch hashOf skipped seen files).length = files.length := by
  rw [← List.length_map Prod.fst, map_fst_dispatch]

theorem file_of_mem_dispatch {result : FileResult} (member : (file, some result) ∈ dispatch hashOf skipped seen files) :
    result.file = file := by
  induction files generalizing seen with
  | nil => cases member
  | cons next rest ih =>
    rw [dispatch_cons] at member
    cases List.mem_cons.mp member with
    | inl here =>
      obtain ⟨rfl, settled⟩ := Prod.mk.inj here
      obtain ⟨other, made, own⟩ | ⟨hash, -, -, made⟩ := settle_cases hashOf skipped seen file
      · rw [made] at settled
        cases settled
        exact own
      · rw [made] at settled
        cases settled
    | inr later => exact ih later

def toTest (hashOf : String → Except FileFault String) (skipped : List String) (seen : List (String × String))
    (files : List String) : List String :=
  (dispatch hashOf skipped seen files).filterMap fun entry => if entry.2 = none then some entry.1 else none

theorem toTest_of_some {result : FileResult} {after : List (String × String)}
    (settled : settle hashOf skipped seen file = (some result, after)) :
    toTest hashOf skipped seen (file :: rest) = toTest hashOf skipped after rest := by
  simp [toTest, dispatch_cons, settled]

theorem toTest_of_none {after : List (String × String)} (fresh : settle hashOf skipped seen file = (none, after)) :
    toTest hashOf skipped seen (file :: rest) = file :: toTest hashOf skipped after rest := by
  simp [toTest, dispatch_cons, fresh]

theorem toTest_subset (files : List String) : toTest hashOf skipped seen files ⊆ files := by
  intro file member
  obtain ⟨⟨name, settled⟩, listed, same⟩ := List.mem_filterMap.mp member
  split at same
  · cases same
    exact fst_mem_of_mem_dispatch listed
  · cases same

theorem lookup_cons_eq_none {key value other : String} {entries : List (String × String)} :
    ((key, value) :: entries).lookup other = none ↔ other ≠ key ∧ entries.lookup other = none := by
  rw [List.lookup_cons]
  by_cases same : other = key
  · simp [same]
  · simp [same, beq_false_of_ne same]

/-- A file is tested only if it can be read and no file before it has the same hash. -/
theorem hash_of_mem_toTest (member : file ∈ toTest hashOf skipped seen files) :
    ∃ hash, hashOf file = .ok hash ∧ seen.lookup hash = none := by
  induction files generalizing seen with
  | nil => cases member
  | cons next rest ih =>
    obtain ⟨_, settled, -⟩ | ⟨hash, read, unseen, fresh⟩ := settle_cases hashOf skipped seen next
    · rw [toTest_of_some settled] at member
      exact ih member
    · rw [toTest_of_none fresh] at member
      cases List.mem_cons.mp member with
      | inl here =>
        subst here
        exact ⟨hash, read, unseen⟩
      | inr later =>
        obtain ⟨other, readToo, new⟩ := ih later
        exact ⟨other, readToo, (lookup_cons_eq_none.mp new).2⟩

theorem nodup_hashes (files : List String) : ((toTest hashOf skipped seen files).map hashOf).Nodup := by
  induction files generalizing seen with
  | nil => exact List.nodup_nil
  | cons next rest ih =>
    obtain ⟨_, settled, -⟩ | ⟨hash, read, -, fresh⟩ := settle_cases hashOf skipped seen next
    · rw [toTest_of_some settled]
      exact ih
    · rw [toTest_of_none fresh, List.map_cons, List.nodup_cons]
      refine ⟨fun repeated => ?_, ih⟩
      obtain ⟨file, member, same⟩ := List.mem_map.mp repeated
      obtain ⟨other, readToo, new⟩ := hash_of_mem_toTest member
      have equal : other = hash := Except.ok.inj (readToo.symm.trans (same.trans read))
      exact (lookup_cons_eq_none.mp new).1 equal

end Dispatch

section Binaries
variable {m : Type → Type} [Monad m]

/-- The programs that a test of a source with this hash may make and run. -/
def Bench.binaries (bench : Bench m) (hash : String) : List String :=
  [referenceName hash, targetName hash].map bench.pathOf

/-- A bench that only knows programs at the given paths: it runs no other, lets nothing else be made and finds
nothing else. -/
def Bench.within (bench : Bench m) (paths : List String) : Bench m where
  scratch := bench.scratch
  canRun := bench.canRun
  execute program args :=
    if program ∈ paths ∨ ∃ path ∈ paths, ["-o", path] <+: args then bench.execute program args else pure {}
  isMade path := if path ∈ paths then bench.isMade path else pure false

theorem build_within {bench : Bench m} {paths : List String} {name : String} (own : bench.pathOf name ∈ paths)
    (options : Options) (compiler : String) (args : List String) (source : String) :
    build (bench.within paths) options compiler args source name = build bench options compiler args source name := by
  have path : (bench.within paths).pathOf name = bench.pathOf name := rfl
  have compiles : (bench.within paths).execute compiler (["-o", bench.pathOf name] ++ args ++ [source]) =
      bench.execute compiler (["-o", bench.pathOf name] ++ args ++ [source]) :=
    if_pos (.inr ⟨_, own, by simp⟩)
  have runs : (bench.within paths).execute (bench.pathOf name) [] = bench.execute (bench.pathOf name) [] :=
    if_pos (.inl own)
  have looks : (bench.within paths).isMade (bench.pathOf name) = bench.isMade (bench.pathOf name) := if_pos own
  unfold build execute
  simp only [path, compiles, runs, looks]

theorem buildReference_within (bench : Bench m) (options : Options) (source hash : String) :
    buildReference (bench.within (bench.binaries hash)) options source hash =
      buildReference bench options source hash :=
  build_within (by simp [Bench.binaries]) ..

theorem buildTarget_within (bench : Bench m) (options : Options) (source hash : String) :
    buildTarget (bench.within (bench.binaries hash)) options source hash = buildTarget bench options source hash :=
  build_within (by simp [Bench.binaries]) ..

end Binaries

theorem referenceName_plain (single : '/' ∉ hash.toList) : Path.IsPlain (referenceName hash) :=
  .of_start (by decide) (by decide) single

theorem targetName_plain (single : '/' ∉ hash.toList) : Path.IsPlain (targetName hash) :=
  .of_start (by decide) (by decide) single

theorem referenceName_ne_targetName (hash other : String) : referenceName hash ≠ targetName other := by
  intro same
  have chars := congrArg String.toList same
  simp [referenceName, targetName] at chars

theorem Bench.disjoint_binaries {m : Type → Type} (bench : Bench m) {other : String} (differ : hash ≠ other)
    (single : '/' ∉ hash.toList) (singleToo : '/' ∉ other.toList) :
    (bench.binaries hash).Disjoint (bench.binaries other) := by
  have plain : ∀ {text}, '/' ∉ text.toList → ∀ name ∈ [referenceName text, targetName text], Path.IsPlain name := by
    intro text fine name listed
    obtain rfl | rfl := List.mem_pair.mp listed
    · exact referenceName_plain fine
    · exact targetName_plain fine
  intro path listed listedToo
  obtain ⟨name, member, rfl⟩ := List.mem_map.mp listed
  obtain ⟨next, memberToo, same⟩ := List.mem_map.mp listedToo
  have equal := Path.join_injective (plain single name member) (plain singleToo next memberToo) same.symm
  obtain rfl | rfl := List.mem_pair.mp member <;> obtain rfl | rfl := List.mem_pair.mp memberToo
  · exact differ ((String.append_right_inj _).mp equal)
  · exact referenceName_ne_targetName _ _ equal
  · exact referenceName_ne_targetName _ _ equal.symm
  · exact differ ((String.append_right_inj _).mp equal)

/-- The hash of what is in a file holds no slash, so it can be part of a plain name. -/
theorem slash_not_mem_hash {files : Files} {file : String} (read : hashOf files file = .ok hash) :
    '/' ∉ hash.toList := by
  unfold hashOf at read
  cases content : files.read file with
  | error fault =>
    rw [content] at read
    cases read
  | ok text =>
    rw [content] at read
    cases read
    exact Digest.slash_not_mem text

section Testing
variable {World α β : Type}

/-- Whatever the circumstances, the result of a piece of work is as wanted. -/
def Work.Always (work : Work (StateM World) α) (wanted : α → Prop) : Prop :=
  ∀ session world, wanted (work session world).1.1

theorem Work.Always.pure {a : α} {wanted : α → Prop} (fine : wanted a) :
    Always (pure a : Work (StateM World) α) wanted := fun _ _ => fine

theorem Work.Always.bind {first : Work (StateM World) β} {known : β → Prop} {wanted : α → Prop}
    {f : β → Work (StateM World) α} (holds : Always first known) (later : ∀ b, known b → Always (f b) wanted) :
    Always (first >>= f) wanted := fun session world => later _ (holds session world) _ _

theorem Work.Always.after {wanted : α → Prop} (first : Work (StateM World) β) {f : β → Work (StateM World) α}
    (later : ∀ b, Always (f b) wanted) : Always (first >>= f) wanted := fun _ _ => later _ _ _

theorem judge_file (file : String) (ignored : List String) (reference target : Build) :
    (judge file ignored reference target).file = file := by
  unfold judge
  simp only
  split
  · rfl
  split
  · rfl
  split
  · rfl
  split <;> rfl

variable (bench : Bench (StateM World)) (options : Options) (found : Bool) (file : String)

theorem testFile_file : (testFile bench options found file).Always (·.file = file) := by
  unfold testFile
  refine .after _ fun session => ?_
  dsimp only
  split
  · exact .pure rfl
  refine .after _ fun _ => ?_
  split
  · exact .pure rfl
  split
  · exact .after _ fun target => .pure (judge_file ..)
  · exact .after _ fun reference => .after _ fun target => .pure (judge_file ..)
  · exact .pure rfl

/-- A test goes about no programs but the two that are named after the hash of its source. -/
theorem testFile_within {session : Session} (read : hashOf session.files file = .ok hash) :
    testFile (bench.within (bench.binaries hash)) options found file session =
      testFile bench options found file session := by
  have looks : ∀ f : Session → Work (StateM World) FileResult, (get >>= f) session = f session session := fun _ => rfl
  unfold testFile
  rw [looks, looks, read]
  simp only [buildReference_within, buildTarget_within]

end Testing

/-- The result for a file that has been dispatched: the one that is settled, or else what a test of it gives. -/
def resultOf (outcome : String → FileResult) (entry : String × Option FileResult) : FileResult :=
  entry.2.getD (outcome entry.1)

theorem map_file_resultOf {hashOf : String → Except FileFault String} {skipped : List String}
    {seen : List (String × String)} {outcome : String → FileResult} (own : ∀ file ∈ files, (outcome file).file = file) :
    ((dispatch hashOf skipped seen files).map (resultOf outcome)).map FileResult.file = files := by
  have each : ∀ entry ∈ dispatch hashOf skipped seen files, (resultOf outcome entry).file = entry.1 := by
    rintro ⟨file, settled⟩ member
    cases settled with
    | some result => exact file_of_mem_dispatch member
    | none => exact own file (fst_mem_of_mem_dispatch member)
  rw [List.map_map]
  exact (List.map_congr_left each).trans (map_fst_dispatch files)

section OneByOne
variable {World : Type} {bench : Bench (StateM World)} {options : Options} {found : Bool}
  {around : Session → World → Prop} {outcome : String → FileResult}

/-- Tests one after the other, in circumstances that the tests do not leave, give the results that any such tests
give. -/
theorem mapM_results {entries : List (String × Option FileResult)} {session : Session} {world : World}
    (gives : ∀ entry ∈ entries, ∀ session world, around session world →
      (testFile bench options found entry.1 session world).1.1 = outcome entry.1)
    (lasts : ∀ entry ∈ entries, ∀ session world, around session world →
      around (testFile bench options found entry.1 session world).1.2 (testFile bench options found entry.1 session world).2)
    (here : around session world) :
    ((entries.mapM fun (file, settled) =>
      match settled with
      | some result => pure result
      | none => testFile bench options found file : Work (StateM World) (List FileResult)) session world).1.1 =
      entries.map (resultOf outcome) := by
  induction entries generalizing session world with
  | nil => rfl
  | cons entry rest ih =>
    obtain ⟨file, settled⟩ := entry
    obtain ⟨givesHere, givesLater⟩ := List.forall_mem_cons.mp gives
    obtain ⟨lastsHere, lastsLater⟩ := List.forall_mem_cons.mp lasts
    rw [List.mapM_cons, List.map_cons]
    cases settled with
    | some result => exact congrArg (result :: ·) (ih givesLater lastsLater here)
    | none => exact congrArg₂ List.cons (givesHere _ _ here) (ih givesLater lastsLater (lastsHere _ _ here))

end OneByOne

theorem pairwise_sortByFile (results : List FileResult) :
    (sortByFile results).Pairwise fun a b => ¬b.file < a.file := by
  have sorted : (sortByFile results).Pairwise fun a b => (!decide (b.file < a.file)) = true := by
    refine List.pairwise_mergeSort ?_ ?_ results
    · intro a b c first second
      simp only [Bool.not_eq_true', decide_eq_false_iff_not, String.not_lt] at first second ⊢
      exact String.le_trans first second
    · intro a b
      simp only [Bool.or_eq_true, Bool.not_eq_true', decide_eq_false_iff_not, String.not_lt]
      exact String.le_total a.file b.file
  refine sorted.imp fun order => ?_
  simpa only [Bool.not_eq_true', decide_eq_false_iff_not] using order

theorem sortByFile_perm (results : List FileResult) : (sortByFile results).Perm results := List.mergeSort_perm ..

theorem eq_sortByFile {sorted results : List FileResult} (order : sorted.Pairwise fun a b => ¬b.file < a.file)
    (same : sorted.Perm results) (distinct : (results.map FileResult.file).Nodup) : sorted = sortByFile results := by
  refine List.Perm.eq_of_pairwise ?_ order (pairwise_sortByFile results) (same.trans (sortByFile_perm results).symm)
  intro a b member memberToo notAfter notBefore
  have equal : a.file = b.file := String.le_antisymm (String.not_lt.mp notAfter) (String.not_lt.mp notBefore)
  exact List.inj_on_of_nodup_map distinct (same.mem_iff.mp member) ((sortByFile_perm results).mem_iff.mp memberToo) equal

end IntC.Suite
