import IntC.CommandLine.Flag
import IntC.Machine.Assembly
import IntC.Machine.Legal
import IntC.Text.Cut
import IntC.Warning

namespace IntC

/-- Which warnings are shown. -/
structure EnabledWarnings where
  shadow : Bool := false
  implicitReturn : Bool := true
  extra : Bool := false
deriving DecidableEq, Repr, Inhabited

namespace EnabledWarnings

def get (enabled : EnabledWarnings) : WarningKind → Bool
  | .shadow => enabled.shadow
  | .implicitReturn => enabled.implicitReturn
  | .extra => enabled.extra

def set (enabled : EnabledWarnings) (kind : WarningKind) (on : Bool) : EnabledWarnings :=
  match kind with
  | .shadow => { enabled with shadow := on }
  | .implicitReturn => { enabled with implicitReturn := on }
  | .extra => { enabled with extra := on }

end EnabledWarnings

inductive Backend where
  | x86 | qbe
  | other (name : String)
deriving DecidableEq, Repr, Inhabited

namespace Backend

def name : Backend → String
  | .x86 => "x86_64"
  | .qbe => "qbe"
  | .other name => name

def ofName (name : String) : Backend :=
  if name = "x86_64" then .x86 else if name = "qbe" then .qbe else .other name

end Backend

/-- What a compilation depends on besides its source. -/
structure Config where
  enabled : EnabledWarnings := {}
  warningsAsErrors : Bool := false
  backend : Backend := .x86
  qbeTarget : String := "amd64_sysv"
  os : String := "linux"
  arch : String := "amd64"
  naming : Machine.Naming := {}
  stackAlignment : Int := Machine.defaultAlignment
  wordSize : Int := 4
  /-- Whether notes and progress are left out. -/
  quiet : Bool := false
deriving DecidableEq, Repr, Inhabited

inductive ConfigError where
  | backend (name : String)
  | qbeTarget (name : String)
  | warning (name : String)
deriving DecidableEq, Repr, Inhabited

def ConfigError.message : ConfigError → String
  | .backend name => "unsupported backend '" ++ name ++ "'. Supported: 'x86_64', 'qbe'"
  | .qbeTarget name =>
    "unsupported QBE target '" ++ name ++ "'. Supported: 'amd64_sysv', 'amd64_apple'"
  | .warning name => "unknown warning '" ++ name ++ "'"

namespace Config

def isEnabled (config : Config) (kind : WarningKind) : Bool := config.enabled.get kind

def setWarning (config : Config) (kind : WarningKind) (on : Bool) : Config :=
  { config with enabled := config.enabled.set kind on }

/-- How the assembler of an operating system spells names. -/
def namingFor (os : String) : Machine.Naming :=
  if os = "darwin" then ⟨"_", "L", false, false⟩ else ⟨"", ".L", true, true⟩

def defaultQbeTarget (os : String) : String :=
  if os = "darwin" then "amd64_apple" else "amd64_sysv"

/-- The note given when the output will not run on the machine at hand. -/
def foreignHost (arch : String) : String :=
  "nqcc: warning: host architecture '" ++ arch
    ++ "' is not x86-64, the output will not run natively\n"

/-- Chooses the backend, written as its name and possibly a slash and a QBE target, and the naming of
an operating system. What is set before a failure stays set. The text is what the user is told. -/
def setTarget (config : Config) (os arch backend : String) :
    Config × Except ConfigError String :=
  let config := { config with os, arch }
  let (name, target) := cutAt '/' backend
  let chosen : Option Backend :=
    if name = "" || name = "x86_64" || name = "amd64" then some .x86
    else if name = "qbe" then some .qbe
    else none
  match chosen with
  | none => (config, .error (.backend name))
  | some backend =>
    let config := { config with backend }
    let target := if target = "" then defaultQbeTarget os else target
    if target = "amd64_sysv" || target = "amd64_apple" then
      let note := if arch ≠ "amd64" && !config.quiet then foreignHost arch else ""
      ({ config with qbeTarget := target, naming := namingFor os }, .ok note)
    else (config, .error (.qbeTarget target))

/-- Applies one of `-W<name>`, `-Wno-<name>`, `-Wall` and `-Werror`; the dash and the letter may be
missing. -/
def applyWarningFlag (config : Config) (flag : String) : Except ConfigError Config :=
  let given := withoutStart "W" (withoutStart "-" flag)
  let name := withoutStart "no-" given
  let on : Bool := name = given
  if name = "all" then
    .ok (WarningKind.all.foldl (fun config kind => config.setWarning kind on) config)
  else if name = "error" then .ok { config with warningsAsErrors := on }
  else
    match WarningKind.ofName? name with
    | some kind => .ok (config.setWarning kind on)
    | none => .error (.warning name)

/-- The flags `-W<name>` and `-Wno-<name>`, initially as the configuration is. -/
def warningGroup (config : Config) : CommandLine.Group where
  name := "Warning Flags"
  description := ""
  kind := "warning"
  header := "Available Warning Flags:"
  choices := WarningKind.all.map fun kind =>
    ⟨kind.name, "W", kind.description, some (config.isEnabled kind), some false⟩

/-- Takes the warnings from the flags: those switched on are on, then those switched off are off. -/
def takeWarnings (config : Config) (set : CommandLine.FlagSet) : Config :=
  (WarningKind.all.zip config.warningGroup.choices).foldl
    (fun config (kind, choice) =>
      let config := if set.isOn choice.onName then config.setWarning kind true else config
      if set.isOn choice.offName then config.setWarning kind false else config)
    config

end Config

end IntC
