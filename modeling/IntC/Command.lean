import IntC.CommandLine.Run
import IntC.Compile
import IntC.Diagnostic
import IntC.Files
import IntC.Tac.Listing

namespace IntC

/-- How a program that was run went wrong, and what it printed. -/
structure ToolFailure where
  reason : String
  output : String
deriving DecidableEq, Repr, Inhabited

/-- Assembly that is to become an object file or a program. -/
structure LinkJob where
  output : String
  objectOnly : Bool
  linkerArgs : List String
  assembly : String
deriving DecidableEq, Repr, Inhabited

/-- The arguments of the system's compiler; an object file takes none of the linker's. -/
def LinkJob.arguments (job : LinkJob) (assemblyFile : String) : List String :=
  let files := ["-o", job.output, assemblyFile]
  if job.objectOnly then "-c" :: files else files ++ job.linkerArgs

/-- What the compiler asks of the machine it runs on. -/
structure Toolchain (m : Type → Type) where
  inspect : String → m (Option FileFault)
  preprocess : String → m (Except ToolFailure String)
  write : String → String → m (Option FileFault)
  link : LinkJob → m (Option ToolFailure)

/-- A call of the compiler, as its flags describe it. -/
structure Invocation where
  input : String
  config : Config
  stop : Stage
  dump : Bool
  assemblyOnly : Bool
  objectOnly : Bool
  output : String
  linkerArgs : List String
deriving DecidableEq, Repr, Inhabited

inductive CommandError where
  | inputs (count : Nat)
  | config (error : ConfigError)
  | unreadable (path : String) (fault : FileFault)
  | preprocessor (failure : ToolFailure)
  | source (files : List SourceFile) (error : Error)
  | unwritable (path : String) (fault : FileFault)
  | linker (failure : ToolFailure)
deriving Repr

def CommandError.report : CommandError → String
  | .inputs count => Diagnostic.plain ("expected exactly one input file, got " ++ toString count)
  | .config error => Diagnostic.plain error.message
  | .unreadable path fault =>
    Diagnostic.plain ("could not read file '" ++ path ++ "': stat " ++ path ++ ": " ++ fault.message)
  | .preprocessor failure =>
    Diagnostic.plain ("preprocessor failed: " ++ failure.reason ++ "\nOutput:\n" ++ failure.output)
  | .source files error => Diagnostic.error files error
  | .unwritable path fault => Diagnostic.plain ("open " ++ path ++ ": " ++ fault.message)
  | .linker failure =>
    Diagnostic.plain ("cc command failed: " ++ failure.reason ++ "\nOutput:\n" ++ failure.output)

/-- What a call has printed. -/
structure Console where
  out : String := ""
  err : String := ""
deriving DecidableEq, Repr, Inhabited

/-- How a call ended. -/
structure Ending extends Console where
  ok : Bool
deriving DecidableEq, Repr, Inhabited

namespace Command

open CommandLine

def app : App where
  name := "nqcc"
  synopsis := "[options] <file.c>"
  description :=
    "A compiler for a subset of C that targets x86-64. Source is preprocessed and linked with the "
      ++ "system's 'cc'."
  repository := "<https://github.com/rainierwolfcastle/nqcc>"

def switch (name letter usage : String) : Flag := { name, letter, usage, value := .switch false }

def flags : List Flag := [
  { name := "output", letter := "o", usage := "Place the output into <file>.", value := .text "",
    placeholder := "file" },
  { name := "target", letter := "t",
    usage := "Select the backend: 'x86_64' or 'qbe[/<qbe-target>]'.", value := .text "x86_64",
    placeholder := "backend" },
  { name := "linker-arg", letter := "L", usage := "Pass an argument to the linker.", value := .list [],
    placeholder := "arg" },
  switch "lex" "" "Stop after lexing.",
  switch "parse" "" "Stop after parsing.",
  switch "validate" "" "Stop after semantic analysis.",
  switch "tacky" "" "Stop after generating TACKY.",
  switch "codegen" "" "Stop after instruction selection and legalization.",
  switch "S" "" "Write assembly next to the input and stop.",
  switch "c" "" "Assemble to an object file without linking.",
  switch "dump-ir" "d" "Print the TACKY intermediate representation and exit.",
  switch "Wall" "" "Enable all warnings.",
  switch "Werror" "" "Treat warnings as errors.",
  switch "quiet" "q" "Do not print progress messages."]

/-- The flags of the compiler, those for single warnings included. -/
def flagSet : FlagSet :=
  let warnings := ({} : Config).warningGroup
  { flags := flags ++ warnings.choices.flatMap Choice.flags, groups := [warnings] }

/-- The earliest of the stages asked for. A listing of the intermediate code needs only that code. -/
def stage (set : FlagSet) : Stage :=
  if set.isOn "lex" then .lex
  else if set.isOn "parse" then .parse
  else if set.isOn "validate" then .validate
  else if set.isOn "tacky" || set.isOn "dump-ir" then .lower
  else if set.isOn "codegen" then .codegen
  else .all

/-- The warnings that the flags ask for: `-Wall` comes first, flags for single warnings win over it. -/
def warnings (config : Config) (set : FlagSet) : Config :=
  let all := if set.isOn "Wall" then
      { config with enabled := WarningKind.all.foldl (·.set · true) config.enabled }
    else config
  { all.takeWarnings set with
    warningsAsErrors := config.warningsAsErrors || set.isOn "Werror" }

/-- Reads a call off its flags, with what is told about the choice of target. -/
def invocation (set : FlagSet) (os arch : String) : Except CommandError (Invocation × String) :=
  match set.args with
  | [input] =>
    let start : Config := { quiet := set.isOn "quiet" }
    match start.setTarget os arch (set.textOf "target") with
    | (_, .error error) => .error (.config error)
    | (config, .ok note) =>
      .ok ({
        input
        config := warnings config set
        stop := stage set
        dump := set.isOn "dump-ir"
        assemblyOnly := set.isOn "S"
        objectOnly := set.isOn "c"
        output := set.textOf "output"
        linkerArgs := set.listOf "linker-arg" }, note)
  | args => .error (.inputs args.length)

/-- A call under way on a machine `m`. -/
abbrev Call (m : Type → Type) := ExceptT CommandError (StateT Console m)

section

variable {m : Type → Type} [Monad m]

def say (text : String) : Call m Unit := modify fun console => { console with out := console.out ++ text }

def complain (text : String) : Call m Unit :=
  modify fun console => { console with err := console.err ++ text }

/-- Tells about progress, unless the call is a quiet one. -/
def announce (config : Config) (line : String) : Call m Unit :=
  if config.quiet then pure () else say (line ++ "\n")

def ask {α : Type} (question : m α) : Call m α := fun console => do
  return (.ok (← question), console)

def require {ε : Type} (error : ε → CommandError) : Option ε → Call m Unit
  | none => pure ()
  | some fault => throw (error fault)

def rule : String := "----------------------"

/-- The text of the input behind the preprocessor. -/
def preprocess (tools : Toolchain m) (call : Invocation) : Call m String := do
  announce call.config rule
  announce call.config ("Preprocessing '" ++ call.input ++ "'...")
  require (.unreadable call.input) (← ask (tools.inspect call.input))
  match ← ask (tools.preprocess call.input) with
  | .ok source => return source
  | .error failure => throw (.preprocessor failure)

/-- Compiles a source, telling about progress and warnings. -/
def compile (call : Invocation) (source : String) : Call m Product := do
  let files := [SourceFile.mk call.input source]
  let (outcome, after) := Compiler.compile {} call.config source 0 call.stop
  after.progress.forM (announce call.config)
  complain (Diagnostic.warnings files after.shown)
  match outcome with
  | .ok product => return product
  | .error error => throw (.source files error)

def finish (call : Invocation) : Call m Unit := do
  announce call.config rule
  announce call.config "Done!"

/-- Puts the product of the last stage where it belongs. -/
def deliver (tools : Toolchain m) (call : Invocation) (assembly : String) : Call m Unit := do
  let base := Path.withoutEnding call.input
  if call.assemblyOnly then
    let path := if call.output = "" then base ++ ".s" else call.output
    require (.unwritable path) (← ask (tools.write path assembly))
  else
    let output :=
      if call.output ≠ "" then call.output else if call.objectOnly then base ++ ".o" else base
    announce call.config ("Assembling to create '" ++ output ++ "'...")
    require .linker (← ask (tools.link ⟨output, call.objectOnly, call.linkerArgs, assembly⟩))
  finish call

def act (tools : Toolchain m) (os arch : String) (set : FlagSet) : Call m Unit := do
  let (call, note) ← ExceptT.mk (pure (invocation set os arch))
  complain note
  let source ← preprocess tools call
  match ← compile call source with
  | .code code _ => if call.dump then say code.listing
  | .output assembly => deliver tools call assembly
  | _ => pure ()

/-- Runs the compiler with the given arguments on a machine with the given system. -/
def run (tools : Toolchain m) (os arch : String) (arguments : List String) : m Ending :=
  match app.respond flagSet arguments with
  | (_, .clash clash) => return { err := clash.message, ok := false }
  | (_, .misused _ told) => return { err := told, ok := false }
  | (_, .help page) => return { out := page, ok := true }
  | (set, .act _) => do
    match ← (act tools os arch set).run {} with
    | (.ok _, console) => return { console with ok := true }
    | (.error error, console) => return { console with err := console.err ++ error.report, ok := false }

end

end Command

end IntC
