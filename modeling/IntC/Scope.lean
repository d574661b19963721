import IntC.Name
import IntC.Pass
import IntC.Warning

namespace IntC

/-- What a spelling stands for: the name it resolves to, whether the innermost scope declared it, and
whether it has linkage. -/
structure Binding where
  name : String
  current : Bool := true
  linked : Bool := false
deriving DecidableEq, Repr, Inhabited

/-- The bindings in force, the latest of a spelling first. -/
abbrev Scope := List (String × Binding)

namespace Scope

def find? (scope : Scope) (spelling : String) : Option Binding := scope.lookup spelling

def bind (scope : Scope) (spelling : String) (binding : Binding) : Scope :=
  (spelling, binding) :: scope

/-- The same bindings, seen from a scope inside. -/
def inner (scope : Scope) : Scope :=
  scope.map fun (spelling, binding) => (spelling, { binding with current := false })

/-- The binding that the innermost scope itself holds. -/
def declared? (scope : Scope) (spelling : String) : Option Binding :=
  (scope.find? spelling).filter Binding.current

/-- Whether a declaration of the spelling would hide one of an outer scope. -/
def hides (scope : Scope) (spelling : String) : Bool :=
  (scope.find? spelling).any fun binding => !binding.current

end Scope

/-- What resolving names changes: the names given out and the warnings given. -/
structure Resolution where
  names : NameSupply
  warnings : List Warning := []
deriving DecidableEq, Repr, Inhabited

namespace Resolution

def fresh (stem : String) : Pass Resolution String :=
  modifyGet fun state =>
    let (name, names) := state.names.fresh stem
    (name, { state with names })

def warn (caution : Caution) (span : Span) : Pass Resolution Unit :=
  modify fun state => { state with warnings := state.warnings ++ [⟨caution, span⟩] }

/-- Gives a spelling a unique name in the innermost scope. -/
def declare (scope : Scope) (spelling : String) (span : Span) : Pass Resolution (String × Scope) := do
  if scope.hides spelling then warn (.shadows spelling) span
  let unique ← fresh spelling
  return (unique, scope.bind spelling { name := unique })

end Resolution

mutual

def Expr.resolve (scope : Scope) : Expr → Except Error Expr
  | .number span value => return .number span value
  | .ident span name =>
    match scope.find? name with
    | some binding => return .ident span binding.name
    | none => throw ⟨.undeclared name, span⟩
  | .assign span (.ident place name) value => do
    let target ←
      match scope.find? name with
      | some binding => pure (.ident place binding.name)
      | none => throw ⟨.undeclared name, place⟩
    return .assign span target (← value.resolve scope)
  | .assign span .. => throw ⟨.notAssignable, span⟩
  | .unary span op operand => return .unary span op (← operand.resolve scope)
  | .binary span op left right => do
    let left ← left.resolve scope
    return .binary span op left (← right.resolve scope)
  | .conditional span cond yes no => do
    let cond ← cond.resolve scope
    let yes ← yes.resolve scope
    return .conditional span cond yes (← no.resolve scope)
  | .call span name args =>
    match scope.find? name with
    | some binding => return .call span binding.name (← resolveArgs scope args)
    | none => throw ⟨.undeclaredFunction name, span⟩
  | .misplaced node => throw (.ofBreach (.expression node.kind))

def resolveArgs (scope : Scope) : List Expr → Except Error (List Expr)
  | [] => return []
  | arg :: rest => do
    let arg ← arg.resolve scope
    return arg :: (← resolveArgs scope rest)

end

def resolveOptional (scope : Scope) : Option Expr → Except Error (Option Expr)
  | none => return none
  | some value => return some (← value.resolve scope)

/-- A variable declared in a block or a `for` header. It is in scope in its own initializer; an
`extern` one keeps its spelling. -/
def VarDecl.resolve (scope : Scope) (decl : VarDecl) : Pass Resolution (VarDecl × Scope) := do
  if let some previous := scope.declared? decl.name then
    unless previous.linked && decl.storage = .external do
      Pass.fail (.conflictingDeclaration decl.name) decl.span
  if decl.storage = .external then
    return (decl, scope.bind decl.name { name := decl.name, linked := true })
  let (unique, scope) ← Resolution.declare scope decl.name decl.span
  let init ← Pass.check (resolveOptional scope decl.init)
  return ({ decl with name := unique, init }, scope)

/-- Parameters share the scope of the function's body. -/
def resolveParams (scope : Scope) : List Param → Pass Resolution (List Param × Scope)
  | [] => return ([], scope)
  | param :: rest => do
    if (scope.declared? param.name).isSome then
      Pass.fail (.repeatedParameter param.name) param.span
    let (unique, scope) ← Resolution.declare scope param.name param.span
    let (rest, scope) ← resolveParams scope rest
    return (⟨param.span, unique⟩ :: rest, scope)

/-- Declares a function: its resolved parameters, the scope it is declared in, and the scope of its
body. The parameters of a prototype get unique names as well. -/
def FuncDecl.declare (scope : Scope) (decl : FuncDecl) :
    Pass Resolution (List Param × Scope × Scope) := do
  if let some previous := scope.declared? decl.name then
    unless previous.linked do
      Pass.fail (.kindConflict decl.name) decl.span
  let scope := scope.bind decl.name { name := decl.name, linked := true }
  let (params, body) ← resolveParams scope.inner decl.params
  return (params, scope, body)

mutual

def Stmt.resolve (scope : Scope) : Stmt → Pass Resolution Stmt
  | .ret span value => return .ret span (← Pass.check (value.resolve scope))
  | .expr span value => return .expr span (← Pass.check (value.resolve scope))
  | .branch span cond yes none => do
    let cond ← Pass.check (cond.resolve scope)
    return .branch span cond (← yes.resolve scope) none
  | .branch span cond yes (some no) => do
    let cond ← Pass.check (cond.resolve scope)
    let yes ← yes.resolve scope
    return .branch span cond yes (some (← no.resolve scope))
  | .block body => return .block (← body.resolve scope.inner)
  | .whileLoop span cond body label => do
    let cond ← Pass.check (cond.resolve scope)
    return .whileLoop span cond (← body.resolve scope) label
  | .doLoop span body cond label => do
    let body ← body.resolve scope
    return .doLoop span body (← Pass.check (cond.resolve scope)) label
  | .forLoop span init cond post body label => do
    let (init, scope) ←
      match init with
      | .none => pure (.none, scope.inner)
      | .var decl => do
        let (decl, scope) ← decl.resolve scope.inner
        pure (.var decl, scope)
      | .expr value => pure (.expr (← Pass.check (value.resolve scope.inner)), scope.inner)
    let cond ← Pass.check (resolveOptional scope cond)
    let post ← Pass.check (resolveOptional scope post)
    return .forLoop span init cond post (← body.resolve scope) label
  | .breakLoop span label => return .breakLoop span label
  | .continueLoop span label => return .continueLoop span label
  | .empty span => return .empty span
  | .misplaced node => Pass.breach (.statement node.kind)

def Block.resolve (scope : Scope) : Block → Pass Resolution Block
  | ⟨span, items⟩ => return ⟨span, ← resolveItems scope items⟩

def resolveItems (scope : Scope) : List Item → Pass Resolution (List Item)
  | [] => return []
  | .var decl :: rest => do
    let (decl, scope) ← decl.resolve scope
    return .var decl :: (← resolveItems scope rest)
  | .func decl :: rest => do
    if decl.body.isSome then Pass.fail .nestedFunction decl.span
    if decl.storage = .static then Pass.fail (.staticBlockFunction decl.name) decl.span
    let (params, scope, _) ← decl.declare scope
    return .func { decl with params } :: (← resolveItems scope rest)
  | .stmt stmt :: rest => do
    let stmt ← stmt.resolve scope
    return .stmt stmt :: (← resolveItems scope rest)

end

/-- The declarations of a source file, in the scope of those before them. -/
def resolveUnit (scope : Scope) : List Item → Pass Resolution (List Item)
  | [] => return []
  | .var decl :: rest =>
    return .var decl :: (← resolveUnit (scope.bind decl.name { name := decl.name, linked := true }) rest)
  | .func decl :: rest => do
    let (params, scope, inside) ← decl.declare scope
    let body ←
      match decl.body with
      | none => pure none
      | some body => some <$> body.resolve inside
    return .func { decl with params, body } :: (← resolveUnit scope rest)
  | .stmt stmt :: _ => Pass.breach (.atFileScope stmt.kind)

/-- Gives every parameter and every local variable without linkage a unique name. Functions and the
variables of file scope keep their spelling. -/
def Program.resolve (program : Program) : Pass Resolution Program :=
  return { program with items := ← resolveUnit [] program.items }

end IntC
