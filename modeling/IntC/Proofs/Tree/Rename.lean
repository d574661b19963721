import IntC.Proofs.Tree.Shape

namespace IntC

mutual

/-- Puts another name in the place of every name. -/
def Expr.rename (names : String → String) : Expr → Expr
  | .number span value => .number span value
  | .ident span name => .ident span (names name)
  | .assign span target value => .assign span (target.rename names) (value.rename names)
  | .binary span op left right => .binary span op (left.rename names) (right.rename names)
  | .unary span op operand => .unary span op (operand.rename names)
  | .conditional span cond yes no => .conditional span (cond.rename names) (yes.rename names) (no.rename names)
  | .call span name args => .call span (names name) (renameArgs names args)
  | .misplaced node => .misplaced node

def renameArgs (names : String → String) : List Expr → List Expr
  | [] => []
  | arg :: rest => arg.rename names :: renameArgs names rest

end

def Param.rename (names : String → String) (param : Param) : Param := { param with name := names param.name }

def VarDecl.rename (names : String → String) (decl : VarDecl) : VarDecl :=
  { decl with name := names decl.name, init := decl.init.map (Expr.rename names) }

def ForInit.rename (names : String → String) : ForInit → ForInit
  | .none => .none
  | .var decl => .var (decl.rename names)
  | .expr value => .expr (value.rename names)

mutual

/-- Names and the ids of loops are changed apart. -/
def Stmt.rename (names loops : String → String) : Stmt → Stmt
  | .ret span value => .ret span (value.rename names)
  | .expr span value => .expr span (value.rename names)
  | .branch span cond yes none => .branch span (cond.rename names) (yes.rename names loops) none
  | .branch span cond yes (some no) =>
    .branch span (cond.rename names) (yes.rename names loops) (some (no.rename names loops))
  | .block body => .block (body.rename names loops)
  | .breakLoop span label => .breakLoop span (loops label)
  | .continueLoop span label => .continueLoop span (loops label)
  | .whileLoop span cond body label => .whileLoop span (cond.rename names) (body.rename names loops) (loops label)
  | .doLoop span body cond label => .doLoop span (body.rename names loops) (cond.rename names) (loops label)
  | .forLoop span init cond post body label =>
    .forLoop span (init.rename names) (cond.map (Expr.rename names)) (post.map (Expr.rename names))
      (body.rename names loops) (loops label)
  | .empty span => .empty span
  | .misplaced node => .misplaced node

def Block.rename (names loops : String → String) : Block → Block
  | ⟨span, items⟩ => ⟨span, renameItems names loops items⟩

def FuncDecl.rename (names loops : String → String) : FuncDecl → FuncDecl
  | ⟨span, name, params, none, storage⟩ => ⟨span, names name, params.map (Param.rename names), none, storage⟩
  | ⟨span, name, params, some body, storage⟩ =>
    ⟨span, names name, params.map (Param.rename names), some (body.rename names loops), storage⟩

def renameItems (names loops : String → String) : List Item → List Item
  | [] => []
  | .func decl :: rest => .func (decl.rename names loops) :: renameItems names loops rest
  | .var decl :: rest => .var (decl.rename names) :: renameItems names loops rest
  | .stmt stmt :: rest => .stmt (stmt.rename names loops) :: renameItems names loops rest

end

def Program.rename (names loops : String → String) (program : Program) : Program :=
  { program with items := renameItems names loops program.items }

/-- The name of a local variable without linkage. -/
def VarDecl.declared (decl : VarDecl) : List String := if decl.storage = .external then [] else [decl.name]

def ForInit.declared : ForInit → List String
  | .var decl => decl.declared
  | .none | .expr _ => []

mutual

/-- The names of the parameters and of the local variables without linkage, in their order. -/
def Stmt.declared : Stmt → List String
  | .branch _ _ yes none => yes.declared
  | .branch _ _ yes (some no) => yes.declared ++ no.declared
  | .block body => body.declared
  | .whileLoop _ _ body _ => body.declared
  | .doLoop _ body _ _ => body.declared
  | .forLoop _ init _ _ body _ => init.declared ++ body.declared
  | .ret .. => []
  | .expr .. => []
  | .breakLoop .. => []
  | .continueLoop .. => []
  | .empty _ => []
  | .misplaced _ => []

def Block.declared : Block → List String
  | ⟨_, items⟩ => itemsDeclared items

def FuncDecl.declared : FuncDecl → List String
  | ⟨_, _, params, none, _⟩ => params.map Param.name
  | ⟨_, _, params, some body, _⟩ => params.map Param.name ++ body.declared

def itemsDeclared : List Item → List String
  | [] => []
  | .func decl :: rest => decl.declared ++ itemsDeclared rest
  | .var decl :: rest => decl.declared ++ itemsDeclared rest
  | .stmt stmt :: rest => stmt.declared ++ itemsDeclared rest

end

/-- The variables of file scope are not local. -/
def unitDeclared : List Item → List String
  | [] => []
  | .func decl :: rest => decl.declared ++ unitDeclared rest
  | .var _ :: rest => unitDeclared rest
  | .stmt _ :: rest => unitDeclared rest

mutual

/-- What the ids of the loops begin with, in the order of the loops. -/
def Stmt.loopStems : Stmt → List String
  | .branch _ _ yes none => yes.loopStems
  | .branch _ _ yes (some no) => yes.loopStems ++ no.loopStems
  | .block body => body.loopStems
  | .whileLoop _ _ body _ => "while" :: body.loopStems
  | .doLoop _ body _ _ => "dowhile" :: body.loopStems
  | .forLoop _ _ _ _ body _ => "for" :: body.loopStems
  | .ret .. => []
  | .expr .. => []
  | .breakLoop .. => []
  | .continueLoop .. => []
  | .empty _ => []
  | .misplaced _ => []

def Block.loopStems : Block → List String
  | ⟨_, items⟩ => itemsLoopStems items

def itemsLoopStems : List Item → List String
  | [] => []
  | .stmt stmt :: rest => stmt.loopStems ++ itemsLoopStems rest
  | .func _ :: rest => itemsLoopStems rest
  | .var _ :: rest => itemsLoopStems rest

end

def unitLoopStems (items : List Item) : List String := (definitions items).flatMap fun made => made.2.loopStems

mutual

/-- What the names given out for the code of an expression begin with, in the order in which they are given. -/
def Expr.codeStems : Expr → List String
  | .number .. => []
  | .ident .. => []
  | .assign _ _ value => value.codeStems
  | .unary _ _ operand => operand.codeStems ++ ["tmp"]
  | .binary _ op left right =>
    match ShortCircuit.ofKind? op with
    | some op => op.shortStem :: op.endStem :: "tmp" :: (left.codeStems ++ right.codeStems)
    | none => left.codeStems ++ (right.codeStems ++ ["tmp"])
  | .conditional _ cond yes no =>
    cond.codeStems ++ "conditional_else" :: (yes.codeStems ++ "tmp" :: "conditional_end" :: no.codeStems)
  | .call _ _ args => argsCodeStems args ++ ["tmp"]
  | .misplaced _ => []

def argsCodeStems : List Expr → List String
  | [] => []
  | arg :: rest => arg.codeStems ++ argsCodeStems rest

end

def optionalCodeStems : Option Expr → List String
  | none => []
  | some value => value.codeStems

/-- Only the initializer of an automatic variable becomes code. -/
def VarDecl.codeStems (decl : VarDecl) : List String :=
  if decl.storage = .automatic then optionalCodeStems decl.init else []

def ForInit.codeStems : ForInit → List String
  | .none => []
  | .var decl => decl.codeStems
  | .expr value => value.codeStems

mutual

def Stmt.codeStems : Stmt → List String
  | .ret _ value => value.codeStems
  | .expr _ value => value.codeStems
  | .branch _ cond yes none => cond.codeStems ++ "if_end" :: yes.codeStems
  | .branch _ cond yes (some no) => cond.codeStems ++ "else" :: (yes.codeStems ++ "if_else_end" :: no.codeStems)
  | .block body => body.codeStems
  | .whileLoop _ cond body _ => cond.codeStems ++ body.codeStems
  | .doLoop _ body cond _ => "do_loop_start" :: (body.codeStems ++ cond.codeStems)
  | .forLoop _ init cond post body _ =>
    "for_start" :: (init.codeStems ++ (optionalCodeStems cond ++ (body.codeStems ++ optionalCodeStems post)))
  | .breakLoop .. => []
  | .continueLoop .. => []
  | .empty _ => []
  | .misplaced _ => []

def Block.codeStems : Block → List String
  | ⟨_, items⟩ => itemsCodeStems items

def itemsCodeStems : List Item → List String
  | [] => []
  | .func _ :: rest => itemsCodeStems rest
  | .var decl :: rest => decl.codeStems ++ itemsCodeStems rest
  | .stmt stmt :: rest => stmt.codeStems ++ itemsCodeStems rest

end

def unitCodeStems (items : List Item) : List String := (definitions items).flatMap fun made => made.2.codeStems

theorem FuncDecl.declared_eq (decl : FuncDecl) :
    decl.declared = decl.params.map Param.name ++ (decl.body.map Block.declared).getD [] := by
  obtain ⟨_, _, params, _ | body, _⟩ := decl
  · exact (List.append_nil _).symm
  · rfl

theorem FuncDecl.rename_eq (names loops : String → String) (decl : FuncDecl) :
    decl.rename names loops = { decl with
      name := names decl.name
      params := decl.params.map (Param.rename names)
      body := decl.body.map (Block.rename names loops) } := by
  obtain ⟨_, _, _, _ | body, _⟩ := decl
  · rfl
  · rfl

section Rename
variable (names loops : String → String)

mutual

@[simp] theorem Expr.codeStems_rename : ∀ value : Expr, (value.rename names).codeStems = value.codeStems
  | .number .. | .ident .. => rfl
  | .assign _ _ value => Expr.codeStems_rename value
  | .unary _ _ operand => by rw [Expr.rename, Expr.codeStems, Expr.codeStems, Expr.codeStems_rename operand]
  | .binary _ op left right => by
    simp only [Expr.rename, Expr.codeStems, Expr.codeStems_rename left, Expr.codeStems_rename right]
  | .conditional _ cond yes no => by
    simp only [Expr.rename, Expr.codeStems, Expr.codeStems_rename cond, Expr.codeStems_rename yes,
      Expr.codeStems_rename no]
  | .call _ _ args => by rw [Expr.rename, Expr.codeStems, Expr.codeStems, argsCodeStems_rename args]
  | .misplaced _ => rfl

theorem argsCodeStems_rename : ∀ args : List Expr, argsCodeStems (renameArgs names args) = argsCodeStems args
  | [] => rfl
  | arg :: rest => by
    rw [renameArgs, argsCodeStems, argsCodeStems, Expr.codeStems_rename arg, argsCodeStems_rename rest]

end

@[simp] theorem optionalCodeStems_rename (value : Option Expr) :
    optionalCodeStems (value.map (Expr.rename names)) = optionalCodeStems value := by
  cases value with
  | none => rfl
  | some value => exact value.codeStems_rename names

@[simp] theorem VarDecl.codeStems_rename (decl : VarDecl) : (decl.rename names).codeStems = decl.codeStems := by
  unfold VarDecl.codeStems VarDecl.rename
  rw [optionalCodeStems_rename]

@[simp] theorem ForInit.codeStems_rename (init : ForInit) : (init.rename names).codeStems = init.codeStems := by
  cases init with
  | none => rfl
  | var decl => exact decl.codeStems_rename names
  | expr value => exact value.codeStems_rename names

theorem VarDecl.declared_rename (decl : VarDecl) : (decl.rename names).declared = decl.declared.map names := by
  unfold VarDecl.declared VarDecl.rename
  split <;> rfl

theorem ForInit.declared_rename (init : ForInit) : (init.rename names).declared = init.declared.map names := by
  cases init with
  | none => rfl
  | var decl => exact decl.declared_rename names
  | expr value => rfl

mutual

theorem Stmt.stems_rename : ∀ stmt : Stmt, (stmt.rename names loops).declared = stmt.declared.map names ∧
    (stmt.rename names loops).loopStems = stmt.loopStems ∧ (stmt.rename names loops).codeStems = stmt.codeStems
  | .ret _ value | .expr _ value => ⟨rfl, rfl, value.codeStems_rename names⟩
  | .branch _ cond yes none => by
    obtain ⟨declared, loop, code⟩ := Stmt.stems_rename yes
    refine ⟨declared, loop, ?_⟩
    simp [Stmt.rename, Stmt.codeStems, code]
  | .branch _ cond yes (some no) => by
    obtain ⟨declared, loop, code⟩ := Stmt.stems_rename yes
    obtain ⟨declared', loop', code'⟩ := Stmt.stems_rename no
    simp [Stmt.rename, Stmt.declared, Stmt.loopStems, Stmt.codeStems, declared, declared', loop, loop', code, code']
  | .block body => Block.stems_rename body
  | .whileLoop _ cond body _ | .doLoop _ body cond _ => by
    obtain ⟨declared, loop, code⟩ := Stmt.stems_rename body
    simp [Stmt.rename, Stmt.declared, Stmt.loopStems, Stmt.codeStems, declared, loop, code]
  | .forLoop _ init cond post body _ => by
    obtain ⟨declared, loop, code⟩ := Stmt.stems_rename body
    simp [Stmt.rename, Stmt.declared, Stmt.loopStems, Stmt.codeStems, declared, loop, code, ForInit.declared_rename]
  | .breakLoop .. | .continueLoop .. | .empty _ | .misplaced _ => ⟨rfl, rfl, rfl⟩

theorem Block.stems_rename : ∀ block : Block, (block.rename names loops).declared = block.declared.map names ∧
    (block.rename names loops).loopStems = block.loopStems ∧ (block.rename names loops).codeStems = block.codeStems
  | ⟨_, items⟩ => itemsStems_rename items

theorem FuncDecl.declared_rename : ∀ decl : FuncDecl, (decl.rename names loops).declared = decl.declared.map names
  | ⟨_, _, params, none, _⟩ => by
    simp only [FuncDecl.rename, FuncDecl.declared, List.map_map]
    rfl
  | ⟨_, _, params, some body, _⟩ => by
    simp only [FuncDecl.rename, FuncDecl.declared, List.map_append, (Block.stems_rename body).1, List.map_map]
    rfl

theorem itemsStems_rename : ∀ items : List Item,
    itemsDeclared (renameItems names loops items) = (itemsDeclared items).map names ∧
    itemsLoopStems (renameItems names loops items) = itemsLoopStems items ∧
    itemsCodeStems (renameItems names loops items) = itemsCodeStems items
  | [] => ⟨rfl, rfl, rfl⟩
  | .func decl :: rest => by
    obtain ⟨declared, loop, code⟩ := itemsStems_rename rest
    refine ⟨?_, loop, code⟩
    rw [renameItems, itemsDeclared, itemsDeclared, List.map_append, FuncDecl.declared_rename decl, declared]
  | .var decl :: rest => by
    obtain ⟨declared, loop, code⟩ := itemsStems_rename rest
    refine ⟨?_, loop, ?_⟩
    · rw [renameItems, itemsDeclared, itemsDeclared, List.map_append, decl.declared_rename names, declared]
    · rw [renameItems, itemsCodeStems, itemsCodeStems, decl.codeStems_rename names, code]
  | .stmt stmt :: rest => by
    obtain ⟨declared, loop, code⟩ := Stmt.stems_rename stmt
    obtain ⟨declared', loop', code'⟩ := itemsStems_rename rest
    simp [renameItems, itemsDeclared, itemsLoopStems, itemsCodeStems, declared, declared', loop, loop', code, code']

end

theorem definitions_rename (items : List Item) : definitions (renameItems names loops items) =
    (definitions items).map fun made => (made.1.rename names loops, made.2.rename names loops) := by
  induction items with
  | nil => rfl
  | cons item rest ih =>
    cases item with
    | var decl | stmt other => exact ih
    | func decl =>
      obtain ⟨span, name, params, body, storage⟩ := decl
      rw [renameItems, definitions, definitions, ih, List.map_append]
      cases body <;> rfl

theorem unitDeclared_rename (items : List Item) :
    unitDeclared (renameItems names loops items) = (unitDeclared items).map names := by
  induction items with
  | nil => rfl
  | cons item rest ih =>
    cases item with
    | var decl | stmt other => exact ih
    | func decl => rw [renameItems, unitDeclared, unitDeclared, ih, List.map_append, decl.declared_rename]

@[simp] theorem unitLoopStems_rename (items : List Item) :
    unitLoopStems (renameItems names loops items) = unitLoopStems items := by
  unfold unitLoopStems
  simp only [definitions_rename, List.flatMap_map, (Block.stems_rename names loops _).2.1]

@[simp] theorem unitCodeStems_rename (items : List Item) :
    unitCodeStems (renameItems names loops items) = unitCodeStems items := by
  unfold unitCodeStems
  simp only [definitions_rename, List.flatMap_map, (Block.stems_rename names loops _).2.2]

end Rename

end IntC
