import IntC.CommandLine.Flag
import IntC.Text.Cut
import IntC.Text.Quoted

namespace IntC.CommandLine

inductive ArgumentError where
  | unknownFlag (written : String)
  | missingValue (written : String)
  | badSwitch (value : String)
deriving DecidableEq, Repr, Inhabited

def ArgumentError.message : ArgumentError → String
  | .unknownFlag written => "unknown flag: " ++ written
  | .missingValue written => "flag needs an argument: " ++ written
  | .badSwitch value =>
    "invalid boolean value '" ++ value ++ "': strconv.ParseBool: parsing " ++ quoted value
      ++ ": invalid syntax"

def readSwitch? (value : String) : Option Bool :=
  if ["1", "t", "T", "TRUE", "true", "True"].contains value then some true
  else if ["0", "f", "F", "FALSE", "false", "False"].contains value then some false
  else none

/-- The value of a flag after it was written with `value`. A switch written with nothing is on, and a
list grows at its end. -/
def FlagValue.assign (current : FlagValue) (value : String) : Except ArgumentError FlagValue :=
  match current with
  | .text _ => .ok (.text value)
  | .switch _ =>
    if value = "" then .ok (.switch true)
    else
      match readSwitch? value with
      | some on => .ok (.switch on)
      | none => .error (.badSwitch value)
  | .list items => .ok (.list (items ++ [value]))

/-- What a single argument asks for. -/
inductive Request where
  | positional
  | endOfFlags
  | assign (flag : Flag) (value : String)
  /-- The value is the argument that follows. -/
  | assignNext (flag : Flag) (written : String)
deriving Repr

namespace FlagSet

/-- Reads `-x`, where `x` is the letter of a switch, or `-x` or `-xvalue` with the letter of another
flag. A letter is a single ASCII character. -/
def readLetter (set : FlagSet) (arg : String) : Except ArgumentError Request :=
  match arg.toList with
  | _ :: letter :: value =>
    let found := if letter.toNat < 128 then set.findLetter? (String.singleton letter) else none
    match found with
    | none => .error (.unknownFlag arg)
    | some flag =>
      if flag.value.isSwitch then
        if value.isEmpty then .ok (.assign flag "") else .error (.unknownFlag arg)
      else if value.isEmpty then .ok (.assignNext flag arg)
      else .ok (.assign flag (String.ofList value))
  | _ => .error (.unknownFlag arg)

/-- Reads one argument: `--name`, `--name=value`, the same with one dash, or a letter. A name wins
over a letter. -/
def read (set : FlagSet) (arg : String) : Except ArgumentError Request :=
  if arg = "-" || !startsWith "-" arg then .ok .positional
  else if arg = "--" then .ok .endOfFlags
  else
    let dashes := if startsWith "--" arg then "--" else "-"
    let body := withoutStart dashes arg
    let (name, value) := cutAt '=' body
    match set.find? name with
    | some flag =>
      if body.contains '=' then .ok (.assign flag value)
      else if flag.value.isSwitch then .ok (.assign flag "")
      else .ok (.assignNext flag (dashes ++ name))
    | none => if dashes = "-" then set.readLetter arg else .error (.unknownFlag (dashes ++ name))

/-- Carries out a setting. -/
def assign (set : FlagSet) (flag : Flag) (value : String) : Except ArgumentError FlagSet := do
  return set.put flag.name (← flag.value.assign value)

def addArgs (set : FlagSet) (args : List String) : FlagSet := { set with args := set.args ++ args }

/-- Reads arguments from left to right. What was set before a failure stays set. -/
def readAll (set : FlagSet) : List String → FlagSet × Option ArgumentError
  | [] => (set, none)
  | arg :: rest =>
    match set.read arg with
    | .error error => (set, some error)
    | .ok .positional => (set.addArgs [arg]).readAll rest
    | .ok .endOfFlags => (set.addArgs rest, none)
    | .ok (.assign flag value) =>
      match set.assign flag value with
      | .ok set => set.readAll rest
      | .error error => (set, some error)
    | .ok (.assignNext flag written) =>
      match rest with
      | [] => (set, some (.missingValue written))
      | value :: rest =>
        match set.assign flag value with
        | .ok set => set.readAll rest
        | .error error => (set, some error)

def parse (set : FlagSet) (arguments : List String) : FlagSet × Option ArgumentError :=
  { set with args := [] }.readAll arguments

end FlagSet

end IntC.CommandLine
