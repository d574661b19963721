import IntC.Config
import IntC.Loop
import IntC.Machine.Frame
import IntC.Machine.Legal
import IntC.Machine.Select
import IntC.Qbe
import IntC.Scope
import IntC.Symbol.Check
import IntC.Tac.Lowering
import IntC.Tree.Parser

namespace IntC

/-- The point up to which a source is compiled. -/
inductive Stage where
  | lex | parse | validate | lower | codegen | all
deriving DecidableEq, Repr, Inhabited

/-- What a compiler carries from one source to the next: the names given out and the number of
warnings shown. -/
structure Compiler where
  names : NameSupply := {}
  issued : Nat := 0
deriving DecidableEq, Repr, Inhabited

/-- A compilation under way: the compiler, the warnings shown and the stages announced. -/
structure Compilation extends Compiler where
  shown : List Warning := []
  progress : List String := []
deriving DecidableEq, Repr, Inhabited

/-- What a compilation ends with, by stage. -/
inductive Product where
  | tokens (tokens : List Token)
  | tree (program : Program)
  | checked (program : Program) (symbols : SymbolTable)
  | code (code : Tac.Program) (symbols : SymbolTable)
  /-- Only the native backend has machine code. -/
  | machine (code : Option Machine.Program)
  | output (text : String)

namespace Machine

/-- Selection, storage assignment and legalization in a row. -/
def lower (code : Tac.Program) (symbols : SymbolTable) (align : Int) : Except Error Program := do
  let selected ← select code
  (selected.assignStorage symbols).legalize align

end Machine

/-- The text that the chosen backend makes of a program: assembly, or the input of QBE. -/
def emit (config : Config) (code : Tac.Program) (symbols : SymbolTable) : Except Error String :=
  match config.backend with
  | .x86 => do
    let machine ← Machine.lower code symbols config.stackAlignment
    return machine.text config.naming
  | .qbe => Qbe.program symbols config.wordSize code
  | .other name => .error ⟨.unsupportedBackend name, {}⟩

namespace Compilation

def announce (stage : String) : Pass Compilation Unit :=
  modify fun state => { state with progress := state.progress ++ [stage] }

/-- Shows those of the warnings that are enabled. -/
def give (config : Config) (warnings : List Warning) : Pass Compilation Unit :=
  modify fun state =>
    let shown := warnings.filter fun w => config.isEnabled w.caution.kind
    { state with issued := state.issued + shown.length, shown := state.shown ++ shown }

/-- Runs a pass that uses up names. -/
def withNames {α : Type} (pass : Pass NameSupply α) : Pass Compilation α := fun state =>
  let (outcome, names) := pass state.names
  (outcome, { state with names })

def resolve (config : Config) (program : Program) : Pass Compilation Program := do
  let (outcome, after) := program.resolve ⟨(← get).names, []⟩
  modify fun state => { state with names := after.names }
  give config after.warnings
  Pass.check outcome

def check (config : Config) (program : Program) : Pass Compilation SymbolTable := do
  let (outcome, after) := program.check {}
  give config after.warnings
  Pass.check outcome
  return after.symbols

def lex (source : String) (file : Int) : Pass Compilation (List Token) := do
  announce "Tokenizing source..."
  Pass.check (tokenize source file)

def parse (tokens : List Token) : Pass Compilation Program := do
  announce "Parsing tokens into AST..."
  Pass.check (IntC.parse tokens)

/-- Resolves, labels and checks. Where warnings count as errors, only those given here do. -/
def validate (config : Config) (program : Program) : Pass Compilation (Program × SymbolTable) := do
  let before := (← get).issued
  announce "Resolving identifiers..."
  let program ← resolve config program
  announce "Labeling loops..."
  let program ← withNames program.label
  announce "Type checking..."
  let symbols ← check config program
  let given := (← get).issued - before
  if config.warningsAsErrors && given > 0 then Pass.fail (.warnings given) {}
  return (program, symbols)

def lower (program : Program) (symbols : SymbolTable) : Pass Compilation Tac.Program := do
  announce "Creating intermediate representation..."
  withNames (program.lower symbols)

/-- Runs a source through every stage up to the given one. -/
def run (config : Config) (source : String) (file : Int) (stop : Stage) : Pass Compilation Product := do
  let tokens ← lex source file
  if stop = .lex then return .tokens tokens
  let program ← parse tokens
  if stop = .parse then return .tree program
  let (program, symbols) ← validate config program
  if stop = .validate then return .checked program symbols
  let code ← lower program symbols
  if stop = .lower then return .code code symbols
  if stop = .codegen then
    if config.backend ≠ .x86 then return .machine none
    announce "Selecting instructions..."
    return .machine (some (← Pass.check (Machine.lower code symbols config.stackAlignment)))
  announce ("Generating code with '" ++ config.backend.name ++ "' backend...")
  return .output (← Pass.check (emit config code symbols))

end Compilation

def Compiler.compile (compiler : Compiler) (config : Config) (source : String) (file : Int)
    (stop : Stage) : Except Error Product × Compilation :=
  Compilation.run config source file stop { compiler with }

end IntC
