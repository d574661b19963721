import IntC.Json

namespace IntC.Suite

/-- One run of a program: what it printed and how it ended. The duration is in nanoseconds. -/
structure Execution where
  stdout : String := ""
  stderr : String := ""
  exitCode : Int := 0
  duration : Int := 0
  timedOut : Bool := false
deriving DecidableEq, Repr, Inhabited

/-- What became of a source file in the hands of one compiler: the compilation, and the run of the
program if there is one. -/
structure Trial where
  binary : String := ""
  compile : Execution := {}
  run : Option Execution := none
deriving DecidableEq, Repr, Inhabited

inductive Status where
  | pass | fail | skip | error
  | other (text : String)
deriving DecidableEq, Repr, Inhabited

def Status.text : Status → String
  | .pass => "PASS"
  | .fail => "FAIL"
  | .skip => "SKIP"
  | .error => "ERROR"
  | .other text => text

def Status.ofText (text : String) : Status :=
  ([.pass, .fail, .skip, .error].find? (Status.text · = text)).getD (.other text)

def Status.isBad (status : Status) : Bool := status = .fail || status = .error

structure FileResult where
  file : String
  status : Status
  message : String := ""
  diff : String := ""
  reference : Option Trial := none
  target : Option Trial := none
deriving DecidableEq, Repr, Inhabited

/-- A field that is left out when its text is empty. -/
def textField (name text : String) : List (String × JsonValue) :=
  if text = "" then [] else [(name, .text text)]

def Execution.toJson (execution : Execution) : JsonValue :=
  .record [
    ("stdout", .text execution.stdout), ("stderr", .text execution.stderr),
    ("exitCode", .int execution.exitCode), ("duration", .int execution.duration),
    ("timed_out", .bool execution.timedOut)]

def Trial.toJson (trial : Trial) : JsonValue :=
  .record (textField "binary_path" trial.binary ++ [("compile", trial.compile.toJson)]
    ++ (trial.run.map fun run => ("run", run.toJson)).toList)

def FileResult.toJson (result : FileResult) : JsonValue :=
  .record ([("file", .text result.file), ("status", .text result.status.text)]
    ++ textField "message" result.message ++ textField "diff" result.diff
    ++ (result.reference.map fun trial => ("reference", trial.toJson)).toList
    ++ (result.target.map fun trial => ("target", trial.toJson)).toList)

end IntC.Suite
