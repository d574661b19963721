import IntC.CommandLine.Arguments
import IntC.CommandLine.Help

namespace IntC.CommandLine

def helpFlag : Flag :=
  { name := "help", letter := "h", usage := "Display this information", value := .switch false }

/-- What a program does with the arguments of a call. -/
inductive Decision where
  /-- The help flag cannot be declared. -/
  | clash (clash : Clash)
  /-- The arguments are wrong, which is told together with the usage page. -/
  | misused (error : ArgumentError) (told : String)
  | help (page : String)
  | act (args : List String)
deriving Repr

/-- Declares the help flag, reads the arguments and decides. -/
def App.respond (app : App) (set : FlagSet) (arguments : List String) : FlagSet × Decision :=
  match set.declare helpFlag with
  | (set, some clash) => (set, .clash clash)
  | (set, none) =>
    match set.parse arguments with
    | (set, some error) =>
      (set, .misused error (app.name ++ ": " ++ error.message ++ "\n" ++ app.usagePage))
    | (set, none) =>
      (set, if set.isOn helpFlag.name then .help (app.helpPage set) else .act set.args)

end IntC.CommandLine
