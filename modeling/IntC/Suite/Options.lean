import IntC.CommandLine.Arguments
import IntC.Number.Literal
import IntC.Text.Cut
import IntC.Text.Quoted

namespace IntC.Suite

inductive OptionValue where
  | text (text : String)
  | switch (on : Bool)
  | count (n : Int)
  | duration (nanos : Int)
deriving DecidableEq, Repr, Inhabited

/-- An option with its value. -/
structure Setting where
  name : String
  usage : String
  value : OptionValue
  /-- The initial value as the usage page shows it; empty if it is not worth telling. -/
  initial : String := ""
deriving DecidableEq, Repr, Inhabited

/-- The options of a suite, in the order of their names. -/
structure Options where
  settings : List Setting := [
    ⟨"cached", "Prefer golden files over the reference compiler.", .switch false, ""⟩,
    ⟨"dir", "Directory to store/read golden JSON files (defaults to source file dir).", .text "", ""⟩,
    ⟨"generate-golden",
      "Write a golden .json file for every test file using the reference compiler.", .switch false, ""⟩,
    ⟨"ignore-lines", "Comma-separated substrings to ignore during output comparison.", .text "", ""⟩,
    ⟨"j", "Number of parallel test jobs.", .count 4, "4"⟩,
    ⟨"output", "Output file for the JSON test report.", .text ".test_results.json",
      "\".test_results.json\""⟩,
    ⟨"ref-args", "Arguments for the reference compiler (space-separated).", .text "", ""⟩,
    ⟨"ref-compiler", "Path to the reference compiler.", .text "cc", "\"cc\""⟩,
    ⟨"skip-files", "Files to skip (space-separated).", .text "", ""⟩,
    ⟨"target-args", "Arguments for the target compiler (space-separated).", .text "-q", "\"-q\""⟩,
    ⟨"target-compiler", "Path to the target compiler to test.", .text "./nqcc", "\"./nqcc\""⟩,
    ⟨"test-files", "Glob pattern(s) for files to test (space-separated).", .text "tests/*.c",
      "\"tests/*.c\""⟩,
    ⟨"timeout", "Timeout for each command execution.", .duration 5000000000, "5s"⟩,
    ⟨"v", "Enable verbose logging.", .switch false, ""⟩]
deriving DecidableEq, Repr, Inhabited

inductive OptionError where
  | help
  | malformed (arg : String)
  | unknown (name : String)
  | missingValue (name : String)
  | badSwitch (name value : String)
  | badValue (name value : String) (fault : Number.LiteralFault)
deriving DecidableEq, Repr, Inhabited

/-- What is said about wrong options; nothing if only help was asked for. -/
def OptionError.message : OptionError → String
  | .help => ""
  | .malformed arg => "bad flag syntax: " ++ arg ++ "\n"
  | .unknown name => "flag provided but not defined: -" ++ name ++ "\n"
  | .missingValue name => "flag needs an argument: -" ++ name ++ "\n"
  | .badSwitch name value =>
    "invalid boolean value " ++ quoted value ++ " for -" ++ name ++ ": parse error\n"
  | .badValue name value fault =>
    "invalid value " ++ quoted value ++ " for flag -" ++ name ++ ": " ++ fault.message ++ "\n"

/-- The word for a value on the usage page; a switch has none. -/
def OptionValue.word : OptionValue → String
  | .text _ => " string"
  | .switch _ => ""
  | .count _ => " int"
  | .duration _ => " duration"

def Setting.help (setting : Setting) : String :=
  let heading := "  -" ++ setting.name ++ setting.value.word
  let gap := if heading.utf8ByteSize ≤ 4 then "\t" else "\n    \t"
  let initial := if setting.initial = "" then "" else " (default " ++ setting.initial ++ ")"
  heading ++ gap ++ setting.usage ++ initial ++ "\n"

namespace Options

def usagePage (program : String) : String :=
  "Usage of " ++ program ++ ":\n" ++ String.join (({} : Options).settings.map Setting.help)

def valueOf? (options : Options) (name : String) : Option OptionValue :=
  (options.settings.find? (·.name = name)).map (·.value)

def text (options : Options) (name : String) : String :=
  match options.valueOf? name with
  | some (.text value) => value
  | _ => ""

def isOn (options : Options) (name : String) : Bool := options.valueOf? name = some (.switch true)

def duration (options : Options) (name : String) : Int :=
  match options.valueOf? name with
  | some (.duration nanos) => nanos
  | _ => 0

def put (options : Options) (name : String) (value : OptionValue) : Options where
  settings := options.settings.map fun setting =>
    if setting.name = name then { setting with value } else setting

/-- The value of an option that is written with `written`. -/
def readValue (name : String) (current : OptionValue) (written : String) :
    Except OptionError OptionValue :=
  match current with
  | .text _ => .ok (.text written)
  | .switch _ =>
    match CommandLine.readSwitch? written with
    | some on => .ok (.switch on)
    | none => .error (.badSwitch name written)
  | .count _ => (Number.readInteger written |>.map .count).mapError (.badValue name written)
  | .duration _ =>
    match Number.readDuration? written with
    | some nanos => .ok (.duration nanos)
    | none => .error (.badValue name written .malformed)

/-- Reads options from left to right, up to the first argument that is none. An option has one dash
or two; its value stands behind an equals sign or is the next argument. -/
def read (options : Options) : List String → Except OptionError Options
  | [] => .ok options
  | arg :: rest =>
    if arg = "-" || arg = "--" || !startsWith "-" arg then .ok options
    else
      let body := withoutStart (if startsWith "--" arg then "--" else "-") arg
      if startsWith "-" body || startsWith "=" body then .error (.malformed arg)
      else
        let (name, value) := cutAt '=' body
        match options.valueOf? name with
        | none => .error (if name = "help" || name = "h" then .help else .unknown name)
        | some current =>
          let switch : Bool := match current with
            | .switch _ => true
            | _ => false
          if body.contains '=' || switch then do
            let written := if body.contains '=' then value else "true"
            (options.put name (← readValue name current written)).read rest
          else
            match rest with
            | [] => .error (.missingValue name)
            | written :: rest => do
              (options.put name (← readValue name current written)).read rest

end Options

end IntC.Suite
