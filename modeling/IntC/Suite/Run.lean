import IntC.Command
import IntC.Digest
import IntC.Files.Glob
import IntC.Suite.Golden
import IntC.Suite.Options
import IntC.Suite.Report
import IntC.Suite.Summary

namespace IntC.Suite

/-- What a suite asks of the machine it runs on. -/
structure Bench (m : Type → Type) where
  /-- The folder for the programs that the compilers make. -/
  scratch : String
  canRun : String → m Bool
  execute : String → List String → m Execution
  /-- Whether there is a program at a path. -/
  isMade : String → m Bool

def Bench.pathOf {m : Type → Type} (bench : Bench m) (name : String) : String := Path.join [bench.scratch, name]

/-- The name of the program that the reference compiler makes of a source with this hash. -/
def referenceName (hash : String) : String := "ref-" ++ hash

/-- The name of the one that the target compiler makes. -/
def targetName (hash : String) : String := "target-" ++ hash

/-- What comes of a program that is not there: a bare name is looked for in the search path. -/
def Execution.missing (program : String) : Execution where
  stderr := "\nExecution error: "
    ++ (if program = "" then "exec: no command"
      else if contains program "/" then "fork/exec " ++ program ++ ": " ++ FileFault.missing.message
      else "exec: " ++ quoted program ++ ": executable file not found in $PATH")
  exitCode := -2

/-- A suite under way: the files as they are now, and what has been printed. -/
structure Session extends Console where
  files : Files
deriving DecidableEq, Repr, Inhabited

abbrev Work (m : Type → Type) := StateT Session m

section

variable {m : Type → Type} [Monad m]

def print (text : String) : Work m Unit := modify fun s => { s with out := s.out ++ text }

def log (text : String) : Work m Unit := modify fun s => { s with err := s.err ++ text }

/-- Runs a command. Without any time left it is stopped before it begins. -/
def execute (bench : Bench m) (options : Options) (program : String) (args : List String) :
    Work m Execution :=
  if options.duration "timeout" ≤ 0 then return { exitCode := -1, timedOut := true }
  else bench.execute program args

/-- Compiles a source and runs the program that comes of it. -/
def build (bench : Bench m) (options : Options) (compiler : String) (args : List String)
    (source name : String) : Work m Build := do
  let binary := bench.pathOf name
  let compile ← execute bench options compiler (["-o", binary] ++ args ++ [source])
  if compile.exitCode ≠ 0 || compile.timedOut then return ⟨{ compile }, true⟩
  if !(← bench.isMade binary) then return ⟨{ compile }, true⟩
  let run ← execute bench options binary []
  return ⟨{ binary, compile, run := some run }, false⟩

def buildReference (bench : Bench m) (options : Options) (source hash : String) : Work m Build :=
  build bench options (options.text "ref-compiler") (words (options.text "ref-args")) source
    (referenceName hash)

def buildTarget (bench : Bench m) (options : Options) (source hash : String) : Work m Build :=
  build bench options (options.text "target-compiler") (words (options.text "target-args")) source
    (targetName hash)

end

/-- A recorded trial stands for a failed build if its compilation did not end with zero. -/
def Build.ofRecord (trial : Trial) : Build := ⟨trial, trial.compile.exitCode ≠ 0⟩

/-- Where the reference behaviour of a file comes from. -/
inductive Source where
  | recorded (trial : Trial)
  | live
  | none
deriving DecidableEq, Repr, Inhabited

/-- A recording is used if it is preferred or if there is no reference compiler. -/
def Source.choose (cached found : Bool) (record : Option Trial) : Source :=
  match record with
  | some trial => if cached || !found then .recorded trial else .live
  | .none => if found then .live else .none

/-- The result that is settled for a file at once, if there is one, and the files to test so far, each behind
its hash. A file that is to be skipped, cannot be read or repeats the content of an earlier one is never
tested. -/
def settle (hashOf : String → Except FileFault String) (skipped : List String)
    (seen : List (String × String)) (file : String) : Option FileResult × List (String × String) :=
  if skipped.contains file then
    (some { file, status := .skip, message := "Explicitly skipped" }, seen)
  else
    match hashOf file with
    | .error fault =>
      (some {
        file
        status := .error
        message := "Failed to read file for hashing: open " ++ file ++ ": " ++ fault.message }, seen)
    | .ok hash =>
      match seen.lookup hash with
      | some earlier =>
        (some { file, status := .skip, message := "Content is identical to " ++ earlier }, seen)
      | none => (none, (hash, file) :: seen)

/-- The files in order, each with the result that is settled for it at once. -/
def dispatch (hashOf : String → Except FileFault String) (skipped : List String)
    (seen : List (String × String)) : List String → List (String × Option FileResult)
  | [] => []
  | file :: rest =>
    let (settled, seen) := settle hashOf skipped seen file
    (file, settled) :: dispatch hashOf skipped seen rest

def hashOf (files : Files) (path : String) : Except FileFault String :=
  (files.read path).map Digest.ofText

def sortByFile (results : List FileResult) : List FileResult :=
  results.mergeSort fun a b => !decide (b.file < a.file)

section

variable {m : Type → Type} [Monad m]

def testFile (bench : Bench m) (options : Options) (found : Bool) (file : String) :
    Work m FileResult := do
  let files := (← get).files
  match hashOf files file with
  | .error _ => return { file, status := .error, message := "Failed to hash source file" }
  | .ok hash =>
    let (locked, record) := Golden.load files (options.text "dir") file hash
    modify fun s => { s with files := locked }
    match record with
    | .error error =>
      return { file, status := .error, message := "Could not read golden file: " ++ error.message }
    | .ok record =>
      let ignored := (ignoredTexts (options.text "ignore-lines")).getD []
      match Source.choose (options.isOn "cached") found record with
      | .recorded trial =>
        return judge file ignored (.ofRecord trial) (← buildTarget bench options file hash)
      | .live =>
        let reference ← buildReference bench options file hash
        return judge file ignored reference (← buildTarget bench options file hash)
      | .none =>
        return {
          file
          status := .skip
          message := "Reference compiler '" ++ options.text "ref-compiler"
            ++ "' not found and no golden file exists" }

def failed (text : String) : String := red ++ "[ERROR]" ++ plain ++ " " ++ text ++ "\n"

def saveReport (options : Options) (results : List FileResult) : Work m Unit := do
  let chosen := options.text "dir"
  let mut path := options.text "output"
  if chosen ≠ "" then
    match (← get).files.makeFolder chosen with
    | .ok files => modify fun s => { s with files }
    | .error why => log (failed ("Failed to create dir " ++ chosen ++ ": " ++ why.message))
    path := Path.join [chosen, path]
  match (← get).files.write path (report results) with
  | .ok files =>
    modify fun s => { s with files }
    print ("Full test report saved to " ++ path ++ "\n")
  | .error fault =>
    log (failed ("Failed to write JSON report to " ++ path ++ ": open " ++ path ++ ": " ++ fault.message))

/-- Tests files and gives the results in the order of the files' names. -/
def testAll (bench : Bench m) (options : Options) (found : Bool) (skipped files : List String) :
    Work m (List FileResult) := do
  let results ← (dispatch (hashOf (← get).files) skipped [] files).mapM fun (file, settled) =>
    match settled with
    | some result => pure result
    | none => testFile bench options found file
  return sortByFile results

/-- Tests files and reports; gives the exit status. -/
def runSuite (bench : Bench m) (options : Options) (files : List String) : Work m Nat := do
  let compiler := options.text "ref-compiler"
  let found ← bench.canRun compiler
  if !found && !options.isOn "cached" then
    log (yellow ++ "[WARN]" ++ plain ++ " Reference compiler '" ++ compiler
      ++ "' not found. Will rely on golden files.\n")
  let skipped := (words (options.text "skip-files")).map (← get).files.absolute
  let results ← testAll bench options found skipped files
  print (summary (options.isOn "v") (options.text "target-compiler") compiler results)
  saveReport options results
  return if hasFailures results then 1 else 0

/-- Records the reference behaviour of files, up to the first that cannot be recorded. -/
def generate (bench : Bench m) (options : Options) : List String → Work m Nat
  | [] => return 0
  | file :: rest => do
    match hashOf (← get).files file with
    | .error fault =>
      log (failed ("Could not hash source file " ++ file ++ ": open " ++ file ++ ": " ++ fault.message))
      return 1
    | .ok hash =>
      let reference ← buildReference bench options file hash
      let golden : Golden := ⟨hash, some reference.trial⟩
      let chosen := options.text "dir"
      match Golden.store (← get).files chosen file golden with
      | .error error =>
        log (failed ("Failed to write golden file for " ++ file ++ ": " ++ error.message))
        return 1
      | .ok files =>
        modify fun s => { s with files }
        log (green ++ "[SUCCESS]" ++ plain ++ " Golden file created at " ++ Golden.path chosen file ++ "\n")
        generate bench options rest

def act (bench : Bench m) (options : Options) : Work m Nat := do
  match (← get).files.expand (options.text "test-files") with
  | .error bad =>
    log (failed ("Invalid glob pattern(s): " ++ bad.message))
    return 1
  | .ok [] =>
    log "No test files found matching the pattern(s).\n"
    return 0
  | .ok files =>
    if options.isOn "generate-golden" then generate bench options files
    else runSuite bench options files

/-- Runs the suite command with the given arguments; gives the exit status. -/
def run (bench : Bench m) (arguments : List String) : Work m Nat := do
  match ({} : Options).read arguments with
  | .ok options => act bench options
  | .error error =>
    log (error.message ++ Options.usagePage "ctest")
    return if error = .help then 0 else 2

end

end IntC.Suite
