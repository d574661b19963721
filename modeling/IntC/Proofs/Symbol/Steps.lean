import IntC.Proofs.Tree.Rename
import IntC.Symbol.Check

namespace IntC

/-- One step of checking. It changes at most one entry of the table. -/
inductive CheckStep where
  | use (value : Expr)
  | func (decl : FuncDecl)
  | param (decl : Param)
  | localVar (decl : VarDecl)
  /-- A variable that a `for` header declares. -/
  | headerVar (decl : VarDecl)
  | global (decl : VarDecl)
  | fallsOff (span : Span) (name : String)
  | misplaced (kind : NodeKind)

namespace CheckStep

def run : CheckStep → Pass Checking Unit
  | .use value => checkUse value
  | .func decl => decl.checkDeclaration
  | .param decl => Checking.record decl.name ⟨.int, .automatic⟩
  | .localVar decl => decl.checkLocal
  | .headerVar decl => do
    if decl.storage ≠ .automatic then Pass.fail (.storageInForHeader decl.storage) decl.span
    decl.checkLocal
  | .global decl => decl.checkAtFileScope
  | .fallsOff span name => Checking.warn (.fallsOffEnd name) span
  | .misplaced kind => Pass.breach (.atFileScope kind)

/-- Takes steps one after the other, up to the first that fails. -/
def runAll : List CheckStep → Pass Checking Unit
  | [] => return
  | step :: rest => do
    step.run
    runAll rest

/-- The name that a step records for itself alone: of a parameter, or of a local variable without linkage. -/
def own? : CheckStep → Option String
  | .param decl => some decl.name
  | .localVar decl => if decl.storage = .external then none else some decl.name
  | .headerVar decl => if decl.storage = .automatic then some decl.name else none
  | _ => none

/-- The name with linkage that a step declares. Others may declare it as well. -/
def linked? : CheckStep → Option String
  | .func decl => some decl.name
  | .global decl => some decl.name
  | .localVar decl => if decl.storage = .external then some decl.name else none
  | _ => none

end CheckStep

def optionalSteps : Option Expr → List CheckStep
  | none => []
  | some value => [.use value]

def ForInit.checkSteps : ForInit → List CheckStep
  | .none => []
  | .var decl => [.headerVar decl]
  | .expr value => [.use value]

mutual

def Stmt.checkSteps : Stmt → List CheckStep
  | .ret _ value => [.use value]
  | .expr _ value => [.use value]
  | .branch _ cond yes none => .use cond :: yes.checkSteps
  | .branch _ cond yes (some no) => .use cond :: (yes.checkSteps ++ no.checkSteps)
  | .block body => body.checkSteps
  | .whileLoop _ cond body _ => .use cond :: body.checkSteps
  | .doLoop _ body cond _ => body.checkSteps ++ [.use cond]
  | .forLoop _ init cond post body _ =>
    init.checkSteps ++ (optionalSteps cond ++ (optionalSteps post ++ body.checkSteps))
  | .breakLoop .. => []
  | .continueLoop .. => []
  | .empty _ => []
  | .misplaced _ => []

def Block.checkSteps : Block → List CheckStep
  | ⟨_, items⟩ => itemsSteps items

def FuncDecl.checkSteps : FuncDecl → List CheckStep
  | ⟨span, name, params, none, storage⟩ => [.func ⟨span, name, params, none, storage⟩]
  | ⟨span, name, params, some body, storage⟩ =>
    .func ⟨span, name, params, some body, storage⟩ :: (params.map CheckStep.param ++ (body.checkSteps ++
      if name ≠ "main" && !body.endsInReturn then [.fallsOff span name] else []))

def itemsSteps : List Item → List CheckStep
  | [] => []
  | .func decl :: rest => decl.checkSteps ++ itemsSteps rest
  | .var decl :: rest => .localVar decl :: itemsSteps rest
  | .stmt stmt :: rest => stmt.checkSteps ++ itemsSteps rest

end

def Item.checkSteps : Item → List CheckStep
  | .func decl => decl.checkSteps
  | .var decl => [.global decl]
  | .stmt other => [.misplaced other.kind]

def Program.checkSteps (program : Program) : List CheckStep := program.items.flatMap Item.checkSteps

namespace CheckStep

@[simp] theorem runAll_append (first second : List CheckStep) :
    runAll (first ++ second) = (do runAll first; runAll second) := by
  induction first with
  | nil => simp [runAll]
  | cons step rest ih => simp only [List.cons_append, runAll, ih, bind_assoc]

@[simp] theorem runAll_singleton (step : CheckStep) : runAll [step] = step.run := bind_pure_unit

theorem runAll_params (params : List Param) : runAll (params.map param) =
    params.forM fun decl => Checking.record decl.name ⟨.int, .automatic⟩ := by
  induction params with
  | nil => rfl
  | cons decl rest ih =>
    rw [List.map_cons, runAll, ih]
    rfl

end CheckStep

open CheckStep (runAll)

theorem checkOptionalUse_eq (value : Option Expr) : checkOptionalUse value = runAll (optionalSteps value) := by
  cases value with
  | none => rfl
  | some value => exact (CheckStep.runAll_singleton (.use value)).symm

mutual

/-- Checking a program is taking its steps. -/
theorem Stmt.check_eq : ∀ stmt : Stmt, stmt.check = runAll stmt.checkSteps
  | .ret _ value | .expr _ value => (CheckStep.runAll_singleton (.use value)).symm
  | .branch _ cond yes none => by
    rw [Stmt.check, Stmt.checkSteps, runAll, Stmt.check_eq yes, CheckStep.run]
  | .branch _ cond yes (some no) => by
    rw [Stmt.check, Stmt.checkSteps, runAll, CheckStep.runAll_append, Stmt.check_eq yes, Stmt.check_eq no, CheckStep.run]
  | .block body => Block.check_eq body
  | .whileLoop _ cond body _ => by
    rw [Stmt.check, Stmt.checkSteps, runAll, Stmt.check_eq body, CheckStep.run]
  | .doLoop _ body cond _ => by
    rw [Stmt.check, Stmt.checkSteps, CheckStep.runAll_append, Stmt.check_eq body, CheckStep.runAll_singleton, CheckStep.run]
  | .forLoop _ init cond post body _ => by
    have rest : runAll (optionalSteps cond ++ (optionalSteps post ++ body.checkSteps)) =
        (do checkOptionalUse cond; checkOptionalUse post; body.check) := by
      simp only [CheckStep.runAll_append, ← Stmt.check_eq body, ← checkOptionalUse_eq]
    unfold Stmt.check
    rw [Stmt.checkSteps, CheckStep.runAll_append, rest]
    cases init with
    | none => rfl
    | var decl =>
      rw [ForInit.checkSteps, CheckStep.runAll_singleton, CheckStep.run]
      dsimp only
      by_cases other : decl.storage ≠ .automatic
      · rw [if_pos other, if_pos other]
        rfl
      · rw [if_neg other, if_neg other]
    | expr value => rw [ForInit.checkSteps, CheckStep.runAll_singleton, CheckStep.run]
  | .breakLoop .. | .continueLoop .. | .empty _ | .misplaced _ => rfl

theorem Block.check_eq : ∀ block : Block, block.check = runAll block.checkSteps
  | ⟨_, items⟩ => checkItems_eq items

theorem checkItems_eq : ∀ items : List Item, checkItems items = runAll (itemsSteps items)
  | [] => rfl
  | .func decl :: rest => by
    rw [checkItems, itemsSteps, CheckStep.runAll_append, FuncDecl.check_eq decl, checkItems_eq rest]
  | .var decl :: rest => by
    rw [checkItems, itemsSteps, runAll, checkItems_eq rest, CheckStep.run]
  | .stmt stmt :: rest => by
    rw [checkItems, itemsSteps, CheckStep.runAll_append, Stmt.check_eq stmt, checkItems_eq rest]

theorem FuncDecl.check_eq : ∀ decl : FuncDecl, decl.check = runAll decl.checkSteps
  | ⟨span, name, params, none, storage⟩ => by
    rw [FuncDecl.check, FuncDecl.checkSteps, CheckStep.runAll_singleton, CheckStep.run]
  | ⟨span, name, params, some body, storage⟩ => by
    rw [FuncDecl.check, FuncDecl.checkSteps, runAll, CheckStep.run, CheckStep.runAll_append, CheckStep.runAll_append,
      CheckStep.runAll_params, Block.check_eq body]
    split
    · rw [CheckStep.runAll_singleton, CheckStep.run]
    · rfl

end

theorem Program.check_eq (program : Program) : program.check = runAll program.checkSteps := by
  unfold Program.check Program.checkSteps
  induction program.items with
  | nil => rfl
  | cons item rest ih =>
    rw [List.flatMap_cons, CheckStep.runAll_append, ← ih]
    cases item with
    | func decl =>
      rw [Item.checkSteps, ← FuncDecl.check_eq]
      rfl
    | var decl | stmt other =>
      rw [Item.checkSteps, CheckStep.runAll_singleton]
      rfl

theorem constantInit_cases (span : Span) (value : Expr) :
    (∃ constant, constantInit span value = pure constant) ∨ constantInit span value = Pass.fail .notConstant span := by
  cases value with
  | number _ constant => exact .inl ⟨constant, rfl⟩
  | _ => exact .inr rfl

end IntC
