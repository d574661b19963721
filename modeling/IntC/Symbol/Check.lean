import IntC.Pass
import IntC.Symbol
import IntC.Warning

namespace IntC

/-- What checking changes: the symbols recorded and the warnings given. -/
structure Checking where
  symbols : SymbolTable := {}
  warnings : List Warning := []
deriving DecidableEq, Repr, Inhabited

namespace Checking

def record (name : String) (symbol : Symbol) : Pass Checking Unit :=
  modify fun state => { state with symbols := state.symbols.set name symbol }

def warn (caution : Caution) (span : Span) : Pass Checking Unit :=
  modify fun state => { state with warnings := state.warnings ++ [⟨caution, span⟩] }

end Checking

def SymbolTable.lookup (table : SymbolTable) (name : String) : Except Error Symbol :=
  match table.get? name with
  | some symbol => .ok symbol
  | none => .error (.ofBreach (.unresolved name))

mutual

/-- Every name is used as what it was declared to be. -/
def Expr.check (table : SymbolTable) : Expr → Except Error Unit
  | .ident span name => do
    match (← table.lookup name).type with
    | .int => return
    | .func _ => throw ⟨.functionAsVariable name, span⟩
  | .unary _ _ operand => operand.check table
  | .binary _ _ left right => do
    left.check table
    right.check table
  | .assign _ target value => do
    target.check table
    value.check table
  | .conditional _ cond yes no => do
    cond.check table
    yes.check table
    no.check table
  | .call span name args => do
    match (← table.lookup name).type with
    | .int => throw ⟨.notCallable name, span⟩
    | .func params =>
      if params ≠ args.length then throw ⟨.argumentCount name params args.length, span⟩
      checkArgs table args
  | .number .. => return
  | .misplaced _ => return

def checkArgs (table : SymbolTable) : List Expr → Except Error Unit
  | [] => return
  | arg :: rest => do
    arg.check table
    checkArgs table rest

end

/-- Checks an expression against the symbols recorded so far. -/
def checkUse (value : Expr) : Pass Checking Unit := do
  Pass.check (value.check (← get).symbols)

def checkOptionalUse : Option Expr → Pass Checking Unit
  | none => return
  | some value => checkUse value

/-- The value of an initializer that has to be a constant. -/
def constantInit (span : Span) : Expr → Pass Checking Int
  | .number _ value => return value
  | _ => Pass.fail .notConstant span

/-- How the initial value of a variable changes with one more declaration at file scope. -/
def Initial.merge (old new : Initial) : Initial :=
  match old, new with
  | .value v, _ => .value v
  | .tentative, .none => .tentative
  | _, new => new

def VarDecl.checkAtFileScope (decl : VarDecl) : Pass Checking Unit := do
  let init ←
    match decl.init with
    | some init => Initial.value <$> constantInit decl.span init
    | none => pure (if decl.storage = .external then .none else .tentative)
  let global : Bool := decl.storage ≠ .static
  match (← get).symbols.get? decl.name with
  | none => Checking.record decl.name ⟨.int, .static init global⟩
  | some ⟨.func _, _⟩ => Pass.fail (.otherKind decl.name) decl.span
  | some ⟨.int, .static old oldGlobal⟩ =>
    if decl.storage ≠ .external && oldGlobal != global then
      Pass.fail (.conflictingLinkage decl.name) decl.span
    match old, init with
    | .value _, .value _ => Pass.fail (.redefinition decl.name) decl.span
    | _, _ => Checking.record decl.name ⟨.int, .static (old.merge init) oldGlobal⟩
  | some ⟨.int, _⟩ => Pass.breach (.unresolved decl.name)

def VarDecl.checkLocal (decl : VarDecl) : Pass Checking Unit :=
  match decl.storage with
  | .external => do
    if decl.init.isSome then Pass.fail (.externInitializer decl.name) decl.span
    match (← get).symbols.get? decl.name with
    | some ⟨.func _, _⟩ => Pass.fail (.otherKind decl.name) decl.span
    | some ⟨.int, _⟩ => return
    | none => Checking.record decl.name ⟨.int, .static .none true⟩
  | .static => do
    let value ←
      match decl.init with
      | some init => constantInit decl.span init
      | none => pure 0
    Checking.record decl.name ⟨.int, .static (.value value) false⟩
  | .automatic => do
    Checking.record decl.name ⟨.int, .automatic⟩
    checkOptionalUse decl.init

/-- Records a function and checks it against its earlier declarations. -/
def FuncDecl.checkDeclaration (decl : FuncDecl) : Pass Checking Unit := do
  let type := SymbolType.func decl.params.length
  let defines := decl.body.isSome
  match (← get).symbols.get? decl.name with
  | none => Checking.record decl.name ⟨type, .func defines (decl.storage ≠ .static)⟩
  | some old =>
    if old.type ≠ type then Pass.fail (.conflictingTypes decl.name) decl.span
    match old.attr with
    | .func defined global =>
      if defined && defines then Pass.fail (.redefinition decl.name) decl.span
      if global && decl.storage = .static then
        Pass.fail (.staticAfterGlobal decl.name) decl.span
      Checking.record decl.name ⟨type, .func (defines || defined) global⟩
    | _ => Pass.breach (.notFunction decl.name)

def Block.endsInReturn (block : Block) : Bool :=
  match block.items.getLast? with
  | some (.stmt (.ret ..)) => true
  | _ => false

mutual

def Stmt.check : Stmt → Pass Checking Unit
  | .ret _ value => checkUse value
  | .expr _ value => checkUse value
  | .branch _ cond yes none => do
    checkUse cond
    yes.check
  | .branch _ cond yes (some no) => do
    checkUse cond
    yes.check
    no.check
  | .block body => body.check
  | .whileLoop _ cond body _ => do
    checkUse cond
    body.check
  | .doLoop _ body cond _ => do
    body.check
    checkUse cond
  | .forLoop _ init cond post body _ => do
    match init with
    | .none => pure ()
    | .var decl =>
      if decl.storage ≠ .automatic then
        Pass.fail (.storageInForHeader decl.storage) decl.span
      decl.checkLocal
    | .expr value => checkUse value
    checkOptionalUse cond
    checkOptionalUse post
    body.check
  | .breakLoop .. => return
  | .continueLoop .. => return
  | .empty _ => return
  | .misplaced _ => return

def Block.check : Block → Pass Checking Unit
  | ⟨_, items⟩ => checkItems items

def checkItems : List Item → Pass Checking Unit
  | [] => return
  | .func decl :: rest => do
    decl.check
    checkItems rest
  | .var decl :: rest => do
    decl.checkLocal
    checkItems rest
  | .stmt stmt :: rest => do
    stmt.check
    checkItems rest

/-- Records a function with its parameters and checks its body. A function other than `main` whose
body does not end in a return is warned about. -/
def FuncDecl.check : FuncDecl → Pass Checking Unit
  | ⟨span, name, params, none, storage⟩ => FuncDecl.checkDeclaration ⟨span, name, params, none, storage⟩
  | ⟨span, name, params, some body, storage⟩ => do
    FuncDecl.checkDeclaration ⟨span, name, params, some body, storage⟩
    params.forM fun param => Checking.record param.name ⟨.int, .automatic⟩
    body.check
    if name ≠ "main" && !body.endsInReturn then Checking.warn (.fallsOffEnd name) span

end

def Item.checkAtFileScope : Item → Pass Checking Unit
  | .func decl => decl.check
  | .var decl => decl.checkAtFileScope
  | .stmt other => Pass.breach (.atFileScope other.kind)

/-- Checks linkage, storage and the use of every name, and records each declaration. -/
def Program.check (program : Program) : Pass Checking Unit :=
  program.items.forM Item.checkAtFileScope

end IntC
