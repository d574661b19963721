import IntC.CommandLine.Flag
import IntC.Text.Fill

namespace IntC.CommandLine

/-- A program as its user sees it. -/
structure App where
  name : String
  synopsis : String := ""
  description : String := ""
  authors : List String := []
  repository : String := ""
deriving DecidableEq, Repr, Inhabited

def pageWidth : Nat := 80

def indent : String := "    "

def deepIndent : String := "        "

def Flag.heading (flag : Flag) : String :=
  let single : Bool := flag.name.utf8ByteSize = 1
  let spelled :=
    if single then "-" ++ flag.name
    else if flag.letter ≠ "" then "-" ++ flag.letter ++ ", --" ++ flag.name
    else "--" ++ flag.name
  if !flag.value.isSwitch && flag.placeholder ≠ "" then spelled ++ " <" ++ flag.placeholder ++ ">"
  else spelled

/-- The note at the end of a flag's line: its initial value, if that is worth telling. -/
def Flag.note (flag : Flag) : String :=
  if !flag.value.isSwitch && flag.initial ≠ "" && flag.initial ≠ "[]" then "|" ++ flag.initial ++ "|"
  else ""

def Group.stem (group : Group) : String := (group.choices.head?.map (·.stem)).getD ""

/-- One entry of the help page: a heading, its explanation in a column of its own, and a note at the
right end of the first line. The explanation keeps ten columns at least. -/
def entry (leftWidth : Nat) (heading usage note : String) : String :=
  let room := pageWidth - deepIndent.length - leftWidth - 1 - note.utf8ByteSize - 2
  let usageWidth := max room 10
  let lines := wrap usageWidth usage
  let first := lines.headD ""
  let start := deepIndent ++ padRight leftWidth heading ++ " "
  let top :=
    if note = "" then start ++ first ++ "\n"
    else start ++ padRight usageWidth first ++ "  " ++ note ++ "\n"
  let more := lines.tail.map fun line => deepIndent ++ padRight leftWidth "" ++ " " ++ line ++ "\n"
  top ++ String.join more

namespace FlagSet

/-- The flags that belong to no group, in the order of their names. -/
def options (set : FlagSet) : List Flag :=
  let grouped := set.groups.flatMap fun group =>
    group.choices.flatMap fun choice => [choice.onName, choice.offName]
  (set.flags.filter fun flag => !grouped.contains flag.name).mergeSort
    fun a b => !decide (b.name < a.name)

def leftWidth (set : FlagSet) : Nat :=
  let flags := set.options.map fun flag => flag.heading.utf8ByteSize
  let groups := set.groups.map fun group =>
    ("-" ++ group.stem ++ "no-<" ++ group.kind ++ ">").utf8ByteSize
  (flags ++ groups).foldl max 0

/-- Whether the flags of a choice leave it on. -/
def isChosen (set : FlagSet) (choice : Choice) : Bool :=
  choice.enabled.isSome && set.isOn choice.onName
    && !(choice.disabled.isSome && set.isOn choice.offName)

def groupHelp (set : FlagSet) (group : Group) : String :=
  let kind := if group.kind = "" then "flag" else group.kind
  let row := fun (heading text : String) =>
    deepIndent ++ padRight set.leftWidth heading ++ " " ++ text ++ "\n"
  let choices := group.choices.mergeSort fun a b => !decide (b.name < a.name)
  "\n" ++ indent ++ group.name ++ "\n"
    ++ (if group.description = "" then "" else deepIndent ++ group.description ++ "\n")
    ++ row ("-" ++ group.stem ++ "<" ++ kind ++ ">") ("Enable a specific " ++ kind)
    ++ row ("-" ++ group.stem ++ "no-<" ++ kind ++ ">") ("Disable a specific " ++ kind)
    ++ (if group.header = "" then "" else indent ++ group.header ++ "\n")
    ++ String.join (choices.map fun choice =>
      entry set.leftWidth choice.name choice.usage (if set.isChosen choice then "|x|" else "|-|"))

end FlagSet

namespace App

def usagePage (app : App) : String :=
  "Usage: " ++ app.name ++ " " ++ app.synopsis ++ "\n\nRun '" ++ app.name
    ++ " --help' for all available options and flags.\n"

def helpPage (app : App) (set : FlagSet) : String :=
  let authors :=
    if app.authors.isEmpty then ""
    else "\n" ++ indent ++ app.name ++ " by " ++ ", ".intercalate app.authors ++ "\n"
  let repository :=
    if app.repository = "" then ""
    else indent ++ "For more details refer to " ++ app.repository ++ "\n"
  let synopsis :=
    if app.synopsis = "" then ""
    else "\n" ++ indent ++ "Synopsis\n" ++ deepIndent ++ app.name ++ " " ++ app.synopsis ++ "\n"
  let description :=
    if app.description = "" then ""
    else "\n" ++ indent ++ "Description\n" ++ String.join
      ((wrap (pageWidth - deepIndent.length) app.description).map (deepIndent ++ · ++ "\n"))
  let options :=
    if set.options.isEmpty then ""
    else "\n" ++ indent ++ "Options\n" ++ String.join
      (set.options.map fun flag => entry set.leftWidth flag.heading flag.usage flag.note)
  authors ++ repository ++ synopsis ++ description ++ options
    ++ String.join (set.groups.map set.groupHelp)

end App

end IntC.CommandLine
