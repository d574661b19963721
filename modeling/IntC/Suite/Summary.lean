import IntC.Number.Nearest
import IntC.Number.Word
import IntC.Suite.Verdict
import IntC.Text.Blank

namespace IntC.Suite

def red : String := "\x1b[91m"

def yellow : String := "\x1b[93m"

def green : String := "\x1b[92m"

def cyan : String := "\x1b[96m"

def magenta : String := "\x1b[95m"

def bold : String := "\x1b[1m"

def plain : String := "\x1b[0m"

/-- A duration in whole microseconds, or in whole milliseconds from one on. -/
def durationText (nanos : Int) : String :=
  if nanos < 1000000 then padLeft 6 (toString (nanos.tdiv 1000)) ++ "µs"
  else padLeft 6 (toString (nanos.tdiv 1000000)) ++ "ms"

/-- The colour of a line of a difference, by its first sign. -/
def lineColor (line : String) : String :=
  let trimmed := trimBlanks line
  if startsWith "-" trimmed then red else if startsWith "+" trimmed then green else ""

def diffText (diff : String) : String :=
  if diff = "" then ""
  else
    "    --- Diff ---\n" ++ String.join
      ((split '\n' diff).map fun line => lineColor line ++ "    " ++ line ++ plain ++ "\n")

def ruler : String := "----------------------------------------------------------------------\n"

def verdictText (result : FileResult) : String :=
  let line := fun color => "  [" ++ color ++ result.status.text ++ plain ++ "] " ++ result.message ++ "\n"
  match result.status with
  | .pass => line green
  | .fail => line red ++ diffText result.diff ++ "\n"
  | .skip => line yellow
  | .error => line red
  | .other _ => ""

/-- How long the two compilers took; the quicker one is highlighted. -/
def timesText (targetName referenceName : String) (target reference : Int) : String :=
  let quicker : Bool := target < reference
  let time := fun (name : String) (marked : Bool) (nanos : Int) =>
    name ++ "_comp: " ++ (if marked then magenta else plain) ++ durationText nanos ++ plain
  "  [" ++ time targetName quicker target ++ " | " ++ time referenceName (!quicker) reference ++ "]\n"

/-- The compile times of both compilers, where there are both. -/
def FileResult.times? (result : FileResult) : Option (Int × Int) := do
  let target ← result.target
  let reference ← result.reference
  return (target.compile.duration, reference.compile.duration)

def resultText (verbose : Bool) (targetName referenceName : String) (result : FileResult) : String :=
  ruler ++ "Testing " ++ cyan ++ result.file ++ plain ++ "...\n" ++ verdictText result
    ++ match result.times? with
      | some (target, reference) =>
        if verbose then timesText targetName referenceName target reference else ""
      | none => ""

/-- A sum of durations, in words of 64 bits. -/
def total (durations : List Int) : Int := durations.foldl (fun sum d => Number.toWord (sum + d)) 0

/-- How much slower or quicker the target compiler was, if both took any time. -/
def speedText (targetName referenceName : String) (results : List FileResult) : String :=
  let times := results.filterMap FileResult.times?
  let target := total (times.map (·.1))
  let reference := total (times.map (·.2))
  if 0 < target && 0 < reference then
    let factor := (Number.Fraction.ofNat target.toNat).div (.ofNat reference.toNat)
    let one : Number.Fraction := ⟨1, 1⟩
    let slower := one.le factor
    let (color, factor, word) :=
      if slower then (red, factor, " slower") else (green, one.div factor, " faster")
    "---\nOn average, " ++ bold ++ targetName ++ plain ++ " was " ++ color ++ factor.twoPlaces ++ "x"
      ++ plain ++ word ++ " to compile than " ++ referenceName ++ ".\n"
  else ""

/-- The results one by one, their counts, and how the compilers compare in speed. -/
def summary (verbose : Bool) (target reference : String) (results : List FileResult) : String :=
  let targetName := Path.base target
  let referenceName := Path.base reference
  let count := fun (color : String) (status : Status) (word : String) =>
    color ++ toString (results.countP (·.status = status)) ++ word ++ plain ++ ", "
  String.join (results.map (resultText verbose targetName referenceName)) ++ ruler
    ++ bold ++ "Test Summary:" ++ plain ++ " " ++ count green .pass " Passed" ++ count red .fail " Failed"
    ++ count yellow .skip " Skipped" ++ count red .error " Errored" ++ toString results.length
    ++ " Total\n" ++ speedText targetName referenceName results

end IntC.Suite
