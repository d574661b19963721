import IntC.Path
import IntC.Suite.Result
import IntC.Text.Search

namespace IntC.Suite

/-- The output without the lines that hold one of the ignored texts; an empty text is in no line. -/
def withoutIgnored (ignored : List String) (output : String) : String :=
  let kept := (split '\n' output).filter fun line =>
    !ignored.any fun part => part ≠ "" && contains line part
  "\n".intercalate kept

def binaryPlaceholder : String := "__BINARY__"

/-- The output with the program's own path, and then its bare name, made the same for all. -/
def withoutPath (binary output : String) : String :=
  if binary = "" then output
  else
    replaceAll (replaceAll output binary binaryPlaceholder) (Path.base binary) binaryPlaceholder

def comparable (ignored : List String) (trial : Trial) (run : Execution) : String :=
  withoutPath trial.binary (withoutIgnored ignored run.stdout)

def truthText (on : Bool) : String := if on then "true" else "false"

/-- A difference in one respect, told only if there is one. -/
def mismatch (title reference target : String) : String :=
  if reference = target then ""
  else title ++ " mismatch:\n  - Ref:    " ++ reference ++ "\n  - Target: " ++ target ++ "\n"

/-- How two runs differ; empty if they do not. -/
def compare (ignored : List String) (reference target : Trial) : String :=
  match reference.run, target.run with
  | some ours, some theirs =>
    mismatch "Exit Code" (toString ours.exitCode) (toString theirs.exitCode)
      ++ mismatch "Timeout" (truthText ours.timedOut) (truthText theirs.timedOut)
      ++ if comparable ignored reference ours = comparable ignored target theirs then ""
        else "STDOUT mismatch:\n"
  | _, _ => "Missing run result.\n"

/-- A trial together with whether the compiler failed to make a program. -/
structure Build where
  trial : Trial
  failed : Bool
deriving DecidableEq, Repr, Inhabited

/-- Judges a file. A file that both compilers refuse passes, so that a suite may hold programs that
must not compile. -/
def judge (file : String) (ignored : List String) (reference target : Build) : FileResult :=
  let result := fun (status : Status) (message diff : String) =>
    { file, status, message, diff, reference := some reference.trial, target := some target.trial
      : FileResult }
  if reference.failed && target.failed then
    result .pass "Both compilers failed to compile as expected" ""
  else if target.failed then
    result .fail "Target compiler failed, but reference compiler succeeded"
      ("Target Compiler STDERR:\n" ++ target.trial.compile.stderr)
  else if reference.failed then
    result .fail "Target compiler succeeded, but reference compiler failed"
      ("Reference Compiler STDERR:\n" ++ reference.trial.compile.stderr)
  else
    let diff := compare ignored reference.trial target.trial
    if diff = "" then result .pass "Exit code and output match" ""
    else result .fail "Runtime output or exit code mismatch" diff

/-- The texts to ignore, which commas separate. -/
def ignoredTexts (list : String) : Option (List String) := if list = "" then none else split ',' list

end IntC.Suite
