namespace IntC.CommandLine

/-- The value of a flag. Its form settles how the flag is written: a switch stands alone, a text or a
list takes a value. -/
inductive FlagValue where
  | text (text : String)
  | switch (on : Bool)
  | list (items : List String)
deriving DecidableEq, Repr, Inhabited

/-- Why a flag cannot be declared. -/
inductive Clash where
  | nameless
  | name (name : String)
  | letter (letter : String)
deriving DecidableEq, Repr, Inhabited

def Clash.message : Clash → String
  | .nameless => "flag name cannot be empty"
  | .name taken => "flag redefined: " ++ taken
  | .letter taken => "shorthand flag redefined: " ++ taken

def switchText (on : Bool) : String := if on then "true" else "false"

namespace FlagValue

def isSwitch : FlagValue → Bool
  | .switch _ => true
  | _ => false

def shown : FlagValue → String
  | .text written => written
  | .switch on => switchText on
  | .list items => ", ".intercalate items

/-- How a value is written as the initial value of its flag. -/
def initialText : FlagValue → String
  | .list items => "[" ++ " ".intercalate items ++ "]"
  | value => value.shown

end FlagValue

structure Flag where
  name : String
  /-- The letter that may stand for the name; empty if there is none. -/
  letter : String := ""
  usage : String := ""
  value : FlagValue
  initial : String := value.initialText
  /-- What the value is, for the help page. -/
  placeholder : String := ""
deriving DecidableEq, Repr, Inhabited

/-- A choice that can be switched on by one flag and off by another. -/
structure Choice where
  name : String
  stem : String
  usage : String
  /-- The initial values of the two flags, of which either may be missing. -/
  enabled : Option Bool
  disabled : Option Bool
deriving DecidableEq, Repr, Inhabited

def Choice.onName (choice : Choice) : String := choice.stem ++ choice.name

def Choice.offName (choice : Choice) : String := choice.stem ++ "no-" ++ choice.name

def Choice.flags (choice : Choice) : List Flag :=
  (choice.enabled.map fun on =>
    { name := choice.onName, usage := choice.usage, value := .switch on : Flag }).toList
  ++ (choice.disabled.map fun on =>
    { name := choice.offName, usage := "Disable '" ++ choice.name ++ "'", value := .switch on
      : Flag }).toList

structure Group where
  name : String
  description : String
  kind : String
  header : String
  choices : List Choice
deriving DecidableEq, Repr, Inhabited

/-- The declared flags with their values, and the arguments that belong to no flag. -/
structure FlagSet where
  flags : List Flag := []
  groups : List Group := []
  args : List String := []
deriving DecidableEq, Repr, Inhabited

namespace FlagSet

def find? (set : FlagSet) (name : String) : Option Flag := set.flags.find? (·.name = name)

/-- A letter belongs to the first flag that was declared with it. -/
def findLetter? (set : FlagSet) (letter : String) : Option Flag := set.flags.find? (·.letter = letter)

/-- Declares a flag. A flag whose letter is taken is refused, yet its name is taken from then on. -/
def declare (set : FlagSet) (flag : Flag) : FlagSet × Option Clash :=
  if flag.name = "" then (set, some .nameless)
  else if (set.find? flag.name).isSome then (set, some (.name flag.name))
  else
    let declared := { set with flags := set.flags ++ [flag] }
    if flag.letter ≠ "" && (set.findLetter? flag.letter).isSome then
      (declared, some (.letter flag.letter))
    else (declared, none)

/-- Declares flags up to the first clash. -/
def declareAll (set : FlagSet) : List Flag → Except Clash FlagSet
  | [] => .ok set
  | flag :: rest =>
    match set.declare flag with
    | (declared, none) => declared.declareAll rest
    | (_, some clash) => .error clash

def addGroup (set : FlagSet) (group : Group) : Except Clash FlagSet := do
  let declared ← set.declareAll (group.choices.flatMap Choice.flags)
  return { declared with groups := declared.groups ++ [group] }

def addGroups (set : FlagSet) : List Group → Except Clash FlagSet
  | [] => .ok set
  | group :: rest => do (← set.addGroup group).addGroups rest

def valueOf? (set : FlagSet) (name : String) : Option FlagValue := (set.find? name).map (·.value)

/-- Whether a switch of that name is declared and on. -/
def isOn (set : FlagSet) (name : String) : Bool := set.valueOf? name = some (.switch true)

/-- The value of a text flag; empty if there is none of that name. -/
def textOf (set : FlagSet) (name : String) : String :=
  match set.valueOf? name with
  | some (.text text) => text
  | _ => ""

def listOf (set : FlagSet) (name : String) : List String :=
  match set.valueOf? name with
  | some (.list items) => items
  | _ => []

/-- Gives the named flag a new value. -/
def put (set : FlagSet) (name : String) (value : FlagValue) : FlagSet :=
  { set with flags := set.flags.map fun flag =>
      if flag.name = name then { flag with value } else flag }

end FlagSet

end IntC.CommandLine
