import IntC.Proofs.Alike
import IntC.Proofs.Scope

namespace IntC

/-- What a name stands for in the scope that declares it. -/
structure Meaning where
  name : String
  linked : Bool := false

/-- The declarations of one scope, the latest first. -/
abbrev ScopeFrame := List (String × Meaning)

/-- The scopes around a place, from the innermost one out to file scope. -/
structure ScopeStack where
  top : ScopeFrame := []
  below : List ScopeFrame := []

namespace ScopeStack

/-- What the innermost scope that declares a name says about it. -/
def find? (stack : ScopeStack) (spelling : String) : Option Meaning :=
  (stack.top :: stack.below).findSome? (List.lookup spelling)

def name? (stack : ScopeStack) (spelling : String) : Option String := (stack.find? spelling).map Meaning.name

/-- Whether a declaration would hide one of a scope further out. -/
def hides (stack : ScopeStack) (spelling : String) : Bool :=
  (stack.top.lookup spelling).isNone && (stack.below.findSome? (List.lookup spelling)).isSome

def declare (stack : ScopeStack) (spelling : String) (meaning : Meaning) : ScopeStack :=
  { stack with top := (spelling, meaning) :: stack.top }

def enter (stack : ScopeStack) : ScopeStack := ⟨[], stack.top :: stack.below⟩

/-- File scope is never left. -/
def leave (stack : ScopeStack) : ScopeStack :=
  match stack.below with
  | [] => stack
  | frame :: rest => ⟨frame, rest⟩

end ScopeStack

mutual

/-- Puts in the place of every name what it stands for. -/
def Expr.replace (stands : String → Option String) : Expr → Except Error Expr
  | .number span value => return .number span value
  | .ident span name =>
    match stands name with
    | some unique => return .ident span unique
    | none => throw ⟨.undeclared name, span⟩
  | .assign span (.ident place name) value =>
    match stands name with
    | some unique => return .assign span (.ident place unique) (← value.replace stands)
    | none => throw ⟨.undeclared name, place⟩
  | .assign span .. => throw ⟨.notAssignable, span⟩
  | .unary span op operand => return .unary span op (← operand.replace stands)
  | .binary span op left right => return .binary span op (← left.replace stands) (← right.replace stands)
  | .conditional span cond yes no =>
    return .conditional span (← cond.replace stands) (← yes.replace stands) (← no.replace stands)
  | .call span name args =>
    match stands name with
    | some unique => return .call span unique (← replaceArgs stands args)
    | none => throw ⟨.undeclaredFunction name, span⟩
  | .misplaced node => throw (.ofBreach (.expression node.kind))

def replaceArgs (stands : String → Option String) : List Expr → Except Error (List Expr)
  | [] => return []
  | arg :: rest => return (← arg.replace stands) :: (← replaceArgs stands rest)

end

def replaceOptional (stands : String → Option String) : Option Expr → Except Error (Option Expr)
  | none => return none
  | some value => return some (← value.replace stands)

/-- What resolving names with a stack of scopes changes. -/
structure Framed where
  stack : ScopeStack := {}
  names : NameSupply
  warnings : List Warning := []

namespace Framed

def use (value : Expr) : Pass Framed Expr := do
  let state ← get
  Pass.check (value.replace state.stack.name?)

def useOptional (value : Option Expr) : Pass Framed (Option Expr) := do
  let state ← get
  Pass.check (replaceOptional state.stack.name? value)

/-- Goes through a part of the program in a scope of its own. -/
def inside {α : Type} (part : Pass Framed α) : Pass Framed α := do
  modify fun state => { state with stack := state.stack.enter }
  let result ← part
  modify fun state => { state with stack := state.stack.leave }
  return result

/-- Declares a name with linkage, which stands for itself. -/
def link (name : String) : Pass Framed Unit :=
  modify fun state => { state with stack := state.stack.declare name ⟨name, true⟩ }

/-- Declares a parameter or a variable without linkage under a unique name. -/
def declare (spelling : String) (span : Span) : Pass Framed String :=
  modifyGet fun state =>
    let (unique, names) := state.names.fresh spelling
    (unique, {
      stack := state.stack.declare spelling ⟨unique, false⟩
      names
      warnings := state.warnings ++ if state.stack.hides spelling then [⟨.shadows spelling, span⟩] else [] })

def addVariable (decl : VarDecl) : Pass Framed VarDecl := do
  if decl.storage = .external then
    link decl.name
    return decl
  else
    let unique ← declare decl.name decl.span
    return { decl with name := unique, init := ← useOptional decl.init }

/-- A second declaration in the same scope is in order only if both of them are for a name with linkage. -/
def localVar (decl : VarDecl) : Pass Framed VarDecl := do
  let state ← get
  if (state.stack.top.lookup decl.name).all fun old => old.linked && decl.storage = .external then addVariable decl
  else Pass.fail (.conflictingDeclaration decl.name) decl.span

def params : List Param → Pass Framed (List Param)
  | [] => return []
  | param :: rest => do
    let state ← get
    if (state.stack.top.lookup param.name).isSome then
      Pass.fail (.repeatedParameter param.name) param.span
    else
      let unique ← declare param.name param.span
      return ⟨param.span, unique⟩ :: (← params rest)

def function (decl : FuncDecl) : Pass Framed Unit := do
  let state ← get
  if (state.stack.top.lookup decl.name).all Meaning.linked then link decl.name
  else Pass.fail (.kindConflict decl.name) decl.span

def forInit : ForInit → Pass Framed ForInit
  | .none => return .none
  | .var decl => return .var (← localVar decl)
  | .expr value => return .expr (← use value)

mutual

def stmt : Stmt → Pass Framed Stmt
  | .ret span value => return .ret span (← use value)
  | .expr span value => return .expr span (← use value)
  | .branch span cond yes none => return .branch span (← use cond) (← stmt yes) none
  | .branch span cond yes (some no) => return .branch span (← use cond) (← stmt yes) (some (← stmt no))
  | .block body => return .block (← inside (block body))
  | .whileLoop span cond body label => return .whileLoop span (← use cond) (← stmt body) label
  | .doLoop span body cond label => return .doLoop span (← stmt body) (← use cond) label
  | .forLoop span init cond post body label => inside do
    return .forLoop span (← forInit init) (← useOptional cond) (← useOptional post) (← stmt body) label
  | .breakLoop span label => return .breakLoop span label
  | .continueLoop span label => return .continueLoop span label
  | .empty span => return .empty span
  | .misplaced node => Pass.breach (.statement node.kind)

def block : Block → Pass Framed Block
  | ⟨span, items⟩ => return ⟨span, ← blockItems items⟩

def blockItems : List Item → Pass Framed (List Item)
  | [] => return []
  | .var decl :: rest => return .var (← localVar decl) :: (← blockItems rest)
  | .func decl :: rest =>
    if decl.body.isSome then Pass.fail .nestedFunction decl.span
    else if decl.storage = .static then Pass.fail (.staticBlockFunction decl.name) decl.span
    else do
      function decl
      let made ← inside (params decl.params)
      return .func { decl with params := made } :: (← blockItems rest)
  | .stmt inner :: rest => return .stmt (← stmt inner) :: (← blockItems rest)

end

/-- The body of a function stands in the scope of the parameters. -/
def definition (decl : FuncDecl) : Pass Framed FuncDecl := do
  function decl
  let (params, body) ← inside do
    let params ← params decl.params
    return (params, ← decl.body.mapM block)
  return { decl with params, body }

def unit : List Item → Pass Framed (List Item)
  | [] => return []
  | .var decl :: rest => do
    link decl.name
    return .var decl :: (← unit rest)
  | .func decl :: rest => return .func (← definition decl) :: (← unit rest)
  | .stmt other :: _ => Pass.breach (.atFileScope other.kind)

/-- Resolves names with a stack of scopes: file scope, one for the parameters of a function together with its
body, and one for each block, each `for` header and the parameters of each prototype. -/
def program (tree : Program) : Pass Framed Program := return { tree with items := ← unit tree.items }

end Framed

/-- What the stack says about a spelling, with a mark whether the innermost scope says it. -/
def ScopeStack.binding? (stack : ScopeStack) (spelling : String) : Option Binding :=
  match stack.top.lookup spelling with
  | some meaning => some ⟨meaning.name, true, meaning.linked⟩
  | none => (stack.below.findSome? (List.lookup spelling)).map fun meaning => ⟨meaning.name, false, meaning.linked⟩

/-- The scope holds what the stack holds. -/
def ScopeStack.Flattens (stack : ScopeStack) (scope : Scope) : Prop :=
  ∀ spelling, scope.find? spelling = stack.binding? spelling

theorem Scope.find?_bind (scope : Scope) (spelling other : String) (binding : Binding) :
    (scope.bind spelling binding).find? other = if other == spelling then some binding else scope.find? other := by
  unfold Scope.bind Scope.find?
  rw [List.lookup_cons]
  split <;> simp_all

theorem Scope.find?_inner (scope : Scope) (spelling : String) :
    scope.inner.find? spelling = (scope.find? spelling).map fun binding => { binding with current := false } := by
  unfold Scope.inner Scope.find?
  induction scope with
  | nil => rfl
  | cons entry rest ih =>
    rw [List.map_cons, List.lookup_cons, List.lookup_cons]
    split
    · rfl
    · exact ih

namespace ScopeStack.Flattens
variable {stack : ScopeStack} {scope : Scope}

theorem name? (flattens : stack.Flattens scope) (spelling : String) :
    (scope.find? spelling).map Binding.name = stack.name? spelling := by
  rw [flattens, ScopeStack.binding?, ScopeStack.name?, ScopeStack.find?, List.findSome?_cons]
  cases stack.top.lookup spelling with
  | some meaning => rfl
  | none => simp only [Option.map_map, Function.comp_def]

theorem declared? (flattens : stack.Flattens scope) (spelling : String) :
    scope.declared? spelling = (stack.top.lookup spelling).map fun meaning => ⟨meaning.name, true, meaning.linked⟩ := by
  rw [Scope.declared?, flattens, ScopeStack.binding?]
  cases stack.top.lookup spelling with
  | some meaning => rfl
  | none => cases stack.below.findSome? (List.lookup spelling) <;> rfl

theorem hides (flattens : stack.Flattens scope) (spelling : String) : scope.hides spelling = stack.hides spelling := by
  rw [Scope.hides, flattens, ScopeStack.binding?, ScopeStack.hides]
  cases stack.top.lookup spelling with
  | some meaning => rfl
  | none => cases stack.below.findSome? (List.lookup spelling) <;> rfl

theorem declare (flattens : stack.Flattens scope) (spelling : String) (meaning : Meaning) :
    (stack.declare spelling meaning).Flattens
      (scope.bind spelling { name := meaning.name, linked := meaning.linked }) := by
  intro other
  rw [Scope.find?_bind, flattens, ScopeStack.binding?, ScopeStack.binding?, ScopeStack.declare, List.lookup_cons]
  cases other == spelling <;> rfl

theorem enter (flattens : stack.Flattens scope) : stack.enter.Flattens scope.inner := by
  intro spelling
  rw [Scope.find?_inner, flattens, ScopeStack.binding?, ScopeStack.binding?, ScopeStack.enter, List.findSome?_cons]
  cases stack.top.lookup spelling with
  | some meaning => rfl
  | none => simp only [Option.map_map, Function.comp_def, List.lookup_nil]

end ScopeStack.Flattens

mutual

/-- An expression is resolved by what its names stand for. -/
theorem Expr.resolve_eq_replace {scope : Scope} {stands : String → Option String}
    (same : ∀ spelling, (scope.find? spelling).map Binding.name = stands spelling) :
    ∀ value : Expr, value.resolve scope = value.replace stands
  | .number .. => rfl
  | .ident _ name => by
    unfold Expr.resolve Expr.replace
    rw [← same name]
    cases scope.find? name <;> rfl
  | .assign _ target value => by
    have later := Expr.resolve_eq_replace same value
    cases target with
    | ident _ name =>
      unfold Expr.resolve Expr.replace
      rw [← same name, later]
      cases scope.find? name <;> rfl
    | _ => rfl
  | .unary _ _ operand => by
    unfold Expr.resolve Expr.replace
    rw [Expr.resolve_eq_replace same operand]
  | .binary _ _ left right => by
    unfold Expr.resolve Expr.replace
    rw [Expr.resolve_eq_replace same left, Expr.resolve_eq_replace same right]
  | .conditional _ cond yes no => by
    unfold Expr.resolve Expr.replace
    rw [Expr.resolve_eq_replace same cond, Expr.resolve_eq_replace same yes, Expr.resolve_eq_replace same no]
  | .call _ name args => by
    unfold Expr.resolve Expr.replace
    rw [← same name, resolveArgs_eq_replaceArgs same args]
    cases scope.find? name <;> rfl
  | .misplaced _ => rfl

theorem resolveArgs_eq_replaceArgs {scope : Scope} {stands : String → Option String}
    (same : ∀ spelling, (scope.find? spelling).map Binding.name = stands spelling) :
    ∀ args : List Expr, resolveArgs scope args = replaceArgs stands args
  | [] => rfl
  | arg :: rest => by
    unfold resolveArgs replaceArgs
    rw [Expr.resolve_eq_replace same arg, resolveArgs_eq_replaceArgs same rest]

end

theorem resolveOptional_eq_replaceOptional {scope : Scope} {stands : String → Option String}
    (same : ∀ spelling, (scope.find? spelling).map Binding.name = stands spelling) (value : Option Expr) :
    resolveOptional scope value = replaceOptional stands value := by
  cases value with
  | none => rfl
  | some value =>
    simp only [resolveOptional, replaceOptional, value.resolve_eq_replace same]

theorem Resolution.declare_eq (scope : Scope) (spelling : String) (span : Span) (state : Resolution) :
    Resolution.declare scope spelling span state =
      (.ok ((state.names.fresh spelling).1, scope.bind spelling { name := (state.names.fresh spelling).1 }),
        ⟨(state.names.fresh spelling).2,
          state.warnings ++ if scope.hides spelling then [⟨.shadows spelling, span⟩] else []⟩) := by
  unfold Resolution.declare
  split
  · rfl
  · rw [List.append_nil]
    rfl

def FuncDecl.permit (scope : Scope) (decl : FuncDecl) : Pass Resolution Unit :=
  if (scope.declared? decl.name).all Binding.linked then pure () else Pass.fail (.kindConflict decl.name) decl.span

theorem FuncDecl.declare_eq (scope : Scope) (decl : FuncDecl) :
    decl.declare scope = (do
      decl.permit scope
      let linked := scope.bind decl.name { name := decl.name, linked := true }
      let (params, body) ← resolveParams linked.inner decl.params
      return (params, linked, body)) := by
  unfold FuncDecl.declare FuncDecl.permit
  cases scope.declared? decl.name with
  | none => rfl
  | some previous =>
    simp only [Option.all_some]
    by_cases linked : previous.linked = true
    · rw [if_pos linked, if_pos linked]
      rfl
    · rw [if_neg linked, if_neg linked]

/-- The parameters of a function, and its body in their scope. -/
def resolveBody (scope : Scope) (params : List Param) (body : Option Block) :
    Pass Resolution (List Param × Option Block) := do
  let (params, inner) ← resolveParams scope.inner params
  return (params, ← body.mapM (Block.resolve inner))

theorem resolveUnit_func (scope : Scope) (decl : FuncDecl) (rest : List Item) :
    resolveUnit scope (.func decl :: rest) = (do
      decl.permit scope
      let linked := scope.bind decl.name { name := decl.name, linked := true }
      let (params, body) ← resolveBody linked decl.params decl.body
      return .func { decl with params, body } :: (← resolveUnit linked rest)) := by
  rw [resolveUnit]
  unfold resolveBody
  simp only [FuncDecl.declare_eq, bind_assoc, pure_bind]
  cases decl.body <;> simp only [Option.mapM_none, Option.mapM_some, map_eq_pure_bind, bind_assoc, pure_bind]

namespace Framed

/-- Both resolvers have come equally far. -/
structure Tallies (state : Resolution) (framed : Framed) : Prop where
  names : state.names = framed.names
  warnings : state.warnings = framed.warnings

/-- Both resolvers see the same declarations, with the given scopes around. -/
structure Mirrors (below : List ScopeFrame) (scope : Scope) (state : Resolution) (framed : Framed) : Prop
    extends Tallies state framed where
  below : framed.stack.below = below
  scope : framed.stack.Flattens scope

/-- Both resolvers have failed for the same reason, at the same place. -/
def Fails (error : Error) (state : Resolution) (other : Error) (framed : Framed) : Prop :=
  error = other ∧ Tallies state framed

theorem outcome_eq {α : Type} {left : Pass Resolution α} {right : Pass Framed α} {state : Resolution} {framed : Framed}
    (alike : Pass.Alike left right state framed (fun a after b other => a = b ∧ Tallies after other) Fails) :
    (left state).1 = (right framed).1 ∧ Tallies (left state).2 (right framed).2 := by
  unfold Pass.Alike at alike
  generalize left state = result at alike ⊢
  generalize right framed = result' at alike ⊢
  obtain ⟨_ | a, after⟩ := result <;> obtain ⟨_ | b, other⟩ := result'
  · exact ⟨congrArg _ alike.1, alike.2⟩
  · exact alike.elim
  · exact alike.elim
  · exact ⟨congrArg _ alike.1, alike.2⟩

section Steps
variable {below : List ScopeFrame} {scope : Scope} {state : Resolution} {framed : Framed}

theorem use_alike (mirrors : Mirrors below scope state framed) (value : Expr) :
    Pass.Alike (Pass.check (value.resolve scope)) (use value) state framed
      (fun a after b other => a = b ∧ after = state ∧ other = framed) Fails := by
  rw [value.resolve_eq_replace mirrors.scope.name?, use, Pass.alike_get_right]
  exact Pass.alike_check (Alike.refl (fun _ => ⟨rfl, rfl, rfl⟩) fun _ => ⟨rfl, mirrors.toTallies⟩)

theorem useOptional_alike (mirrors : Mirrors below scope state framed) (value : Option Expr) :
    Pass.Alike (Pass.check (resolveOptional scope value)) (useOptional value) state framed
      (fun a after b other => a = b ∧ after = state ∧ other = framed) Fails := by
  rw [resolveOptional_eq_replaceOptional mirrors.scope.name?, useOptional, Pass.alike_get_right]
  exact Pass.alike_check (Alike.refl (fun _ => ⟨rfl, rfl, rfl⟩) fun _ => ⟨rfl, mirrors.toTallies⟩)

theorem declare_alike (mirrors : Mirrors below scope state framed) (spelling : String) (span : Span) :
    Pass.Alike (Resolution.declare scope spelling span) (declare spelling span) state framed
      (fun a after b other => a.1 = b ∧ Mirrors below a.2 after other) Fails := by
  unfold Pass.Alike
  rw [Resolution.declare_eq, mirrors.scope.hides, mirrors.names, mirrors.warnings]
  exact ⟨rfl, ⟨rfl, rfl⟩, mirrors.below, mirrors.scope.declare spelling _⟩

theorem link_mirrors (mirrors : Mirrors below scope state framed) (name : String) :
    Mirrors below (scope.bind name { name, linked := true }) state (link name framed).2 :=
  ⟨⟨mirrors.names, mirrors.warnings⟩, mirrors.below, mirrors.scope.declare name ⟨name, true⟩⟩

theorem localVar_alike (mirrors : Mirrors below scope state framed) (decl : VarDecl) :
    Pass.Alike (decl.resolve scope) (localVar decl) state framed
      (fun a after b other => a.1 = b ∧ Mirrors below a.2 after other) Fails := by
  unfold VarDecl.resolve localVar
  rw [Pass.alike_get_right, mirrors.scope.declared?]
  extract_lets declared
  have finish : Pass.Alike (declared ()) (addVariable decl) state framed
      (fun a after b other => a.1 = b ∧ Mirrors below a.2 after other) Fails := by
    unfold declared addVariable
    by_cases external : decl.storage = .external
    · rw [if_pos external, if_pos external]
      exact ⟨rfl, link_mirrors mirrors decl.name⟩
    · rw [if_neg external, if_neg external]
      refine (declare_alike mirrors decl.name decl.span).bind ?_
      rintro ⟨unique, inner⟩ middle _ other ⟨rfl, inside⟩
      refine (useOptional_alike inside decl.init).bind ?_
      rintro init _ _ _ ⟨rfl, rfl, rfl⟩
      exact ⟨rfl, inside⟩
  cases framed.stack.top.lookup decl.name with
  | none => exact finish
  | some old =>
    simp only [Option.map_some, Option.all_some]
    by_cases both : (old.linked && decl.storage = .external) = true
    · rw [if_pos both, if_pos both]
      exact finish
    · rw [if_neg both, if_neg both]
      exact ⟨rfl, mirrors.toTallies⟩

theorem params_alike (mirrors : Mirrors below scope state framed) (list : List Param) :
    Pass.Alike (resolveParams scope list) (params list) state framed
      (fun a after b other => a.1 = b ∧ Mirrors below a.2 after other) Fails := by
  induction list generalizing scope state framed with
  | nil => exact ⟨rfl, mirrors⟩
  | cons param rest ih =>
    unfold resolveParams params
    rw [Pass.alike_get_right, mirrors.scope.declared?]
    cases framed.stack.top.lookup param.name with
    | some old => exact ⟨rfl, mirrors.toTallies⟩
    | none =>
      refine (declare_alike mirrors param.name param.span).bind ?_
      rintro ⟨unique, inner⟩ middle _ other ⟨rfl, inside⟩
      refine (ih inside).bind ?_
      rintro ⟨others, inner⟩ last _ beyond ⟨rfl, within⟩
      exact ⟨rfl, within⟩

/-- What is done in a scope of its own leaves the scopes around as they are. -/
theorem inside_alike {α β : Type} {left : Pass Resolution α} {part : Pass Framed β} {same : α → β → Prop}
    (mirrors : Mirrors below scope state framed)
    (alike : ∀ entered, Mirrors (framed.stack.top :: below) scope.inner state entered →
      Pass.Alike left part state entered (fun a after b other => same a b ∧ Tallies after other ∧
        other.stack.below = framed.stack.top :: below) Fails) :
    Pass.Alike left (inside part) state framed (fun a after b other => same a b ∧ Mirrors below scope after other) Fails := by
  unfold inside
  rw [Pass.alike_modify_right, ← bind_pure left]
  have entered : Mirrors (framed.stack.top :: below) scope.inner state { framed with stack := framed.stack.enter } :=
    ⟨⟨mirrors.names, mirrors.warnings⟩, congrArg _ mirrors.below, mirrors.scope.enter⟩
  refine (alike _ entered).bind ?_
  rintro a after b other ⟨fine, tallies, around⟩
  -- All that was declared meanwhile is in the frame that is left, so the stack is again what it was.
  have restored : other.stack.leave = framed.stack := by
    rw [ScopeStack.leave, around, ← mirrors.below]
  have around : other.stack.leave.below = below := by rw [restored, mirrors.below]
  have flattens : other.stack.leave.Flattens scope := by rw [restored]; exact mirrors.scope
  exact ⟨fine, ⟨tallies.names, tallies.warnings⟩, around, flattens⟩

theorem forInit_alike (mirrors : Mirrors below scope.inner state framed) (init : ForInit) :
    Pass.Alike (init.resolve scope) (forInit init) state framed
      (fun a after b other => a.1 = b ∧ Mirrors below a.2 after other) Fails := by
  cases init with
  | none => exact ⟨rfl, mirrors⟩
  | var decl =>
    refine (localVar_alike mirrors decl).bind ?_
    rintro ⟨_, inner⟩ _ _ _ ⟨rfl, mirrors⟩
    exact ⟨rfl, mirrors⟩
  | expr value =>
    refine (use_alike mirrors value).bind ?_
    rintro _ _ _ _ ⟨rfl, rfl, rfl⟩
    exact ⟨rfl, mirrors⟩

theorem function_alike (mirrors : Mirrors below scope state framed) (decl : FuncDecl) :
    Pass.Alike (decl.permit scope) (function decl) state framed (fun _ after _ other => after = state ∧
      Mirrors below (scope.bind decl.name { name := decl.name, linked := true }) state other) Fails := by
  unfold FuncDecl.permit function
  have same : (scope.declared? decl.name).all Binding.linked = (framed.stack.top.lookup decl.name).all Meaning.linked := by
    rw [mirrors.scope.declared?, Option.all_map]
  rw [Pass.alike_get_right, same]
  by_cases linked : (framed.stack.top.lookup decl.name).all Meaning.linked = true
  · rw [if_pos linked, if_pos linked]
    exact ⟨rfl, link_mirrors mirrors decl.name⟩
  · rw [if_neg linked, if_neg linked]
    exact ⟨rfl, mirrors.toTallies⟩

theorem prototype_alike (mirrors : Mirrors below scope state framed) (list : List Param) :
    Pass.Alike (resolveParams scope.inner list) (inside (params list)) state framed
      (fun a after b other => a.1 = b ∧ Mirrors below scope after other) Fails := by
  refine inside_alike mirrors fun entered mirrors => ?_
  refine (params_alike mirrors list).mono ?_
  rintro a after b other ⟨same, mirrors⟩
  exact ⟨same, mirrors.toTallies, mirrors.below⟩

end Steps

mutual

theorem stmt_alike {below : List ScopeFrame} {scope : Scope} {state : Resolution} {framed : Framed} :
    ∀ (tree : Stmt), Mirrors below scope state framed →
      Pass.Alike (tree.resolve scope) (stmt tree) state framed
        (fun a after b other => a = b ∧ Mirrors below scope after other) Fails
  | .ret .., mirrors | .expr .., mirrors => by
    unfold Stmt.resolve stmt
    refine (use_alike mirrors _).bind ?_
    rintro _ _ _ _ ⟨rfl, rfl, rfl⟩
    exact ⟨rfl, mirrors⟩
  | .branch _ cond yes none, mirrors => by
    unfold Stmt.resolve stmt
    refine (use_alike mirrors _).bind ?_
    rintro _ _ _ _ ⟨rfl, rfl, rfl⟩
    refine (stmt_alike yes mirrors).bind ?_
    rintro _ _ _ _ ⟨rfl, mirrors⟩
    exact ⟨rfl, mirrors⟩
  | .branch _ cond yes (some no), mirrors => by
    unfold Stmt.resolve stmt
    refine (use_alike mirrors _).bind ?_
    rintro _ _ _ _ ⟨rfl, rfl, rfl⟩
    refine (stmt_alike yes mirrors).bind ?_
    rintro _ _ _ _ ⟨rfl, mirrors⟩
    refine (stmt_alike no mirrors).bind ?_
    rintro _ _ _ _ ⟨rfl, mirrors⟩
    exact ⟨rfl, mirrors⟩
  | .block body, mirrors => by
    unfold Stmt.resolve stmt
    refine (inside_alike mirrors fun entered mirrors => block_alike body mirrors).bind ?_
    rintro _ _ _ _ ⟨rfl, mirrors⟩
    exact ⟨rfl, mirrors⟩
  | .whileLoop _ cond body _, mirrors => by
    unfold Stmt.resolve stmt
    refine (use_alike mirrors _).bind ?_
    rintro _ _ _ _ ⟨rfl, rfl, rfl⟩
    refine (stmt_alike body mirrors).bind ?_
    rintro _ _ _ _ ⟨rfl, mirrors⟩
    exact ⟨rfl, mirrors⟩
  | .doLoop _ body cond _, mirrors => by
    unfold Stmt.resolve stmt
    refine (stmt_alike body mirrors).bind ?_
    rintro _ _ _ _ ⟨rfl, mirrors⟩
    refine (use_alike mirrors _).bind ?_
    rintro _ _ _ _ ⟨rfl, rfl, rfl⟩
    exact ⟨rfl, mirrors⟩
  | .forLoop _ init cond post body _, mirrors => by
    rw [Stmt.resolve_forLoop]
    unfold stmt
    -- The header opens a scope, and a body that is no block is in that scope as well.
    refine inside_alike mirrors fun entered mirrors => ?_
    refine (forInit_alike mirrors init).bind ?_
    rintro ⟨_, inner⟩ _ _ _ ⟨rfl, mirrors⟩
    refine (useOptional_alike mirrors cond).bind ?_
    rintro _ _ _ _ ⟨rfl, rfl, rfl⟩
    refine (useOptional_alike mirrors post).bind ?_
    rintro _ _ _ _ ⟨rfl, rfl, rfl⟩
    refine (stmt_alike body mirrors).bind ?_
    rintro _ _ _ _ ⟨rfl, mirrors⟩
    exact ⟨rfl, mirrors.toTallies, mirrors.below⟩
  | .breakLoop .., mirrors | .continueLoop .., mirrors | .empty _, mirrors => ⟨rfl, mirrors⟩
  | .misplaced _, mirrors => ⟨rfl, mirrors.toTallies⟩

theorem block_alike {below : List ScopeFrame} {scope : Scope} {state : Resolution} {framed : Framed} :
    ∀ (tree : Block), Mirrors below scope state framed →
      Pass.Alike (tree.resolve scope) (block tree) state framed
        (fun a after b other => a = b ∧ Tallies after other ∧ other.stack.below = below) Fails
  | ⟨_, items⟩, mirrors => by
    unfold Block.resolve block
    refine (blockItems_alike items mirrors).bind ?_
    rintro _ _ _ _ ⟨rfl, rest⟩
    exact ⟨rfl, rest⟩

theorem blockItems_alike {below : List ScopeFrame} {scope : Scope} {state : Resolution} {framed : Framed} :
    ∀ (items : List Item), Mirrors below scope state framed →
      Pass.Alike (resolveItems scope items) (blockItems items) state framed
        (fun a after b other => a = b ∧ Tallies after other ∧ other.stack.below = below) Fails
  | [], mirrors => ⟨rfl, mirrors.toTallies, mirrors.below⟩
  | .var decl :: rest, mirrors => by
    unfold resolveItems blockItems
    refine (localVar_alike mirrors decl).bind ?_
    rintro ⟨_, inner⟩ _ _ _ ⟨rfl, mirrors⟩
    refine (blockItems_alike rest mirrors).bind ?_
    rintro _ _ _ _ ⟨rfl, rest⟩
    exact ⟨rfl, rest⟩
  | .func decl :: rest, mirrors => by
    unfold resolveItems blockItems
    by_cases nested : decl.body.isSome = true
    · rw [if_pos nested, if_pos nested]
      exact ⟨rfl, mirrors.toTallies⟩
    rw [if_neg nested, if_neg nested]
    by_cases static : decl.storage = .static
    · rw [if_pos static, if_pos static]
      exact ⟨rfl, mirrors.toTallies⟩
    rw [if_neg static, if_neg static]
    simp only [FuncDecl.declare_eq, bind_assoc, pure_bind]
    refine (function_alike mirrors decl).bind ?_
    rintro _ _ _ _ ⟨rfl, mirrors⟩
    refine (prototype_alike mirrors decl.params).bind ?_
    rintro ⟨_, inner⟩ _ _ _ ⟨rfl, mirrors⟩
    refine (blockItems_alike rest mirrors).bind ?_
    rintro _ _ _ _ ⟨rfl, rest⟩
    exact ⟨rfl, rest⟩
  | .stmt inner :: rest, mirrors => by
    unfold resolveItems blockItems
    refine (stmt_alike inner mirrors).bind ?_
    rintro _ _ _ _ ⟨rfl, mirrors⟩
    refine (blockItems_alike rest mirrors).bind ?_
    rintro _ _ _ _ ⟨rfl, rest⟩
    exact ⟨rfl, rest⟩

end

theorem body_alike {below : List ScopeFrame} {scope : Scope} {state : Resolution} {framed : Framed}
    (mirrors : Mirrors below scope state framed) (list : List Param) (body : Option Block) :
    Pass.Alike (resolveBody scope list body) (inside do
        let made ← params list
        return (made, ← body.mapM block)) state framed
      (fun a after b other => a = b ∧ Mirrors below scope after other) Fails := by
  refine inside_alike mirrors fun entered mirrors => ?_
  refine (params_alike mirrors list).bind ?_
  rintro ⟨made, inner⟩ _ _ _ ⟨rfl, mirrors⟩
  cases body with
  | none => exact ⟨rfl, mirrors.toTallies, mirrors.below⟩
  | some body =>
    simp only [Option.mapM_some, bind_assoc, pure_bind, map_eq_pure_bind]
    refine (block_alike body mirrors).bind ?_
    rintro _ _ _ _ ⟨rfl, rest⟩
    exact ⟨rfl, rest⟩

theorem unit_alike {below : List ScopeFrame} {scope : Scope} {state : Resolution} {framed : Framed}
    (mirrors : Mirrors below scope state framed) (items : List Item) :
    Pass.Alike (resolveUnit scope items) (unit items) state framed
      (fun a after b other => a = b ∧ Tallies after other) Fails := by
  induction items generalizing scope state framed with
  | nil => exact ⟨rfl, mirrors.toTallies⟩
  | cons item rest ih =>
    cases item with
    | stmt other => exact ⟨rfl, mirrors.toTallies⟩
    | var decl =>
      unfold resolveUnit unit link
      rw [Pass.alike_modify_right]
      refine (ih (link_mirrors mirrors decl.name)).bind ?_
      rintro _ _ _ _ ⟨rfl, rest⟩
      exact ⟨rfl, rest⟩
    | func decl =>
      rw [resolveUnit_func]
      unfold unit definition
      simp only [bind_assoc, pure_bind]
      refine (function_alike mirrors decl).bind ?_
      rintro _ _ _ _ ⟨rfl, mirrors⟩
      refine (body_alike mirrors decl.params decl.body).bind ?_
      rintro ⟨made, body⟩ _ _ _ ⟨rfl, mirrors⟩
      refine (ih mirrors).bind ?_
      rintro _ _ _ _ ⟨rfl, rest⟩
      exact ⟨rfl, rest⟩

end Framed

/-- Names are scoped lexically: resolving them does what it does with a stack of scopes, and ends with the same tree
or the same error, with the same warnings. -/
theorem resolve_eq_framed (program : Program) (names : NameSupply) :
    (program.resolve ⟨names, []⟩).1 = (Framed.program program { names }).1 ∧
      (program.resolve ⟨names, []⟩).2.names = (Framed.program program { names }).2.names ∧
      (program.resolve ⟨names, []⟩).2.warnings = (Framed.program program { names }).2.warnings := by
  have empty : ScopeStack.Flattens {} [] := fun spelling => rfl
  have alike : Pass.Alike program.resolve (Framed.program program) ⟨names, []⟩ { names }
      (fun a after b other => a = b ∧ Framed.Tallies after other) Framed.Fails := by
    refine (Framed.unit_alike ⟨⟨rfl, rfl⟩, rfl, empty⟩ program.items).bind ?_
    rintro _ _ _ _ ⟨rfl, tallies⟩
    exact ⟨rfl, tallies⟩
  obtain ⟨same, tallies⟩ := Framed.outcome_eq alike
  exact ⟨same, tallies.names, tallies.warnings⟩

end IntC
