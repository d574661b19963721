import IntC.Proofs.LoopShift
import IntC.Proofs.Symbol.Check
import IntC.Proofs.Symbol.Steps

namespace IntC

/-- The same symbols in the same order, under other names. -/
def SymbolTable.rename (names : String → String) (table : SymbolTable) : SymbolTable :=
  ⟨table.entries.map fun entry => (names entry.1, entry.2)⟩

namespace SymbolTable
variable {names : String → String} (distinct : Function.Injective names)
include distinct

theorem get?_rename (table : SymbolTable) (name : String) :
    (table.rename names).get? (names name) = table.get? name := by
  obtain ⟨entries⟩ := table
  induction entries with
  | nil => rfl
  | cons entry rest ih =>
    obtain ⟨key, symbol⟩ := entry
    change List.lookup _ ((names key, symbol) :: _) = List.lookup _ ((key, symbol) :: rest)
    simp only [lookup_cons_eq, distinct.eq_iff]
    split
    · rfl
    · exact ih

theorem set_rename (table : SymbolTable) (name : String) (symbol : Symbol) :
    (table.rename names).set (names name) symbol = (table.set name symbol).rename names := by
  obtain ⟨entries⟩ := table
  unfold set rename
  congr 1
  induction entries with
  | nil => rfl
  | cons entry rest ih =>
    simp only [List.map_cons, put, distinct.eq_iff]
    split
    · rfl
    · rw [ih, List.map_cons]

theorem isStatic_rename (table : SymbolTable) (name : String) :
    (table.rename names).isStatic (names name) = table.isStatic name := by
  unfold isStatic
  rw [get?_rename distinct]

end SymbolTable

theorem length_renameArgs (names : String → String) (args : List Expr) : (renameArgs names args).length = args.length := by
  induction args with
  | nil => rfl
  | cons arg rest ih => rw [renameArgs, List.length_cons, List.length_cons, ih]

theorem SymbolTable.lookup_alike {names : String → String} (distinct : Function.Injective names) (table : SymbolTable)
    (name : String) : Alike (table.lookup name) ((table.rename names).lookup (names name)) (fun found other => other = found)
      Error.Like := by
  unfold SymbolTable.lookup
  rw [get?_rename distinct]
  cases table.get? name with
  | none => exact ⟨rfl, rfl⟩
  | some symbol => exact rfl

mutual

theorem Expr.check_alike {names : String → String} (distinct : Function.Injective names) {table : SymbolTable} :
    ∀ value : Expr, Alike (value.check table) ((value.rename names).check (table.rename names))
      (fun _ _ => True) Error.Like
  | .number .. => trivial
  | .ident span name => by
    rw [Expr.rename, Expr.check, Expr.check]
    refine (SymbolTable.lookup_alike distinct table name).bind ?_
    rintro ⟨type, attr⟩ _ rfl
    cases type with
    | int => trivial
    | func params => exact ⟨rfl, rfl⟩
  | .unary _ _ operand => Expr.check_alike distinct operand
  | .binary _ _ left right => by
    rw [Expr.rename, Expr.check, Expr.check]
    exact (Expr.check_alike distinct left).bind fun _ _ _ => Expr.check_alike distinct right
  | .assign _ target value => by
    rw [Expr.rename, Expr.check, Expr.check]
    exact (Expr.check_alike distinct target).bind fun _ _ _ => Expr.check_alike distinct value
  | .conditional _ cond yes no => by
    rw [Expr.rename, Expr.check, Expr.check]
    refine (Expr.check_alike distinct cond).bind fun _ _ _ => ?_
    exact (Expr.check_alike distinct yes).bind fun _ _ _ => Expr.check_alike distinct no
  | .call span name args => by
    rw [Expr.rename, Expr.check, Expr.check]
    refine (SymbolTable.lookup_alike distinct table name).bind ?_
    rintro ⟨type, attr⟩ _ rfl
    cases type with
    | int => exact ⟨rfl, rfl⟩
    | func params =>
      simp only [length_renameArgs]
      split
      · exact ⟨rfl, rfl⟩
      · exact checkArgs_alike distinct args
  | .misplaced _ => trivial

theorem checkArgs_alike {names : String → String} (distinct : Function.Injective names) {table : SymbolTable} :
    ∀ args : List Expr, Alike (checkArgs table args) (checkArgs (table.rename names) (renameArgs names args))
      (fun _ _ => True) Error.Like
  | [] => trivial
  | arg :: rest => by
    rw [renameArgs, checkArgs, checkArgs]
    exact (Expr.check_alike distinct arg).bind fun _ _ _ => checkArgs_alike distinct rest

end

theorem constantInit_rename (names : String → String) (span : Span) (value : Expr) :
    constantInit span (value.rename names) = constantInit span value := by
  cases value <;> rfl

def Checking.rename (names : String → String) (state : Checking) : Checking :=
  { state with symbols := state.symbols.rename names }

/-- The same step, under other names. Only names of functions are warned about, and these stay. -/
def CheckStep.rename (names loops : String → String) : CheckStep → CheckStep
  | .use value => .use (value.rename names)
  | .func decl => .func (decl.rename names loops)
  | .param decl => .param (decl.rename names)
  | .localVar decl => .localVar (decl.rename names)
  | .headerVar decl => .headerVar (decl.rename names)
  | .global decl => .global (decl.rename names)
  | .fallsOff span name => .fallsOff span name
  | .misplaced kind => .misplaced kind

/-- A step of checking is taken under other names in the same way. -/
abbrev CheckFollows (names : String → String) (left right : Pass Checking Unit) (state : Checking) : Prop :=
  Pass.Follows left right state (Checking.rename names) id

section Steps
variable {names : String → String} (distinct : Function.Injective names) {state : Checking}
include distinct

theorem Checking.get?_rename (name : String) :
    (state.rename names).symbols.get? (names name) = state.symbols.get? name :=
  SymbolTable.get?_rename distinct state.symbols name

theorem checkUse_follows (value : Expr) : CheckFollows names (checkUse value) (checkUse (value.rename names)) state :=
  Pass.follows_get (Pass.follows_check ((Expr.check_alike distinct value).mono fun _ _ _ => rfl))

theorem checkOptionalUse_follows (value : Option Expr) :
    CheckFollows names (checkOptionalUse value) (checkOptionalUse (value.map (Expr.rename names))) state := by
  cases value with
  | none => exact Pass.follows_pure rfl
  | some value => exact checkUse_follows distinct value

theorem Checking.record_follows (name : String) (symbol : Symbol) :
    CheckFollows names (record name symbol) (record (names name) symbol) state := by
  refine Pass.follows_modify ?_
  unfold Checking.rename
  rw [SymbolTable.set_rename distinct]

theorem FuncDecl.checkDeclaration_follows (loops : String → String) (decl : FuncDecl) :
    CheckFollows names decl.checkDeclaration (decl.rename names loops).checkDeclaration state := by
  rw [FuncDecl.rename_eq]
  unfold FuncDecl.checkDeclaration
  simp only [List.length_map, Option.isSome_map]
  refine Pass.follows_get ?_
  rw [Checking.get?_rename distinct]
  cases state.symbols.get? decl.name with
  | none => exact Checking.record_follows distinct _ _
  | some old =>
    refine Pass.follows_guard Iff.rfl rfl fun _ => ?_
    cases old.attr with
    | func defined global =>
      refine Pass.follows_guard Iff.rfl rfl fun _ => Pass.follows_guard Iff.rfl rfl fun _ => ?_
      exact Checking.record_follows distinct _ _
    | static | automatic => exact Pass.follows_breach

theorem VarDecl.checkAtFileScope_follows (decl : VarDecl) :
    CheckFollows names decl.checkAtFileScope (decl.rename names).checkAtFileScope state := by
  unfold VarDecl.rename VarDecl.checkAtFileScope
  dsimp -zeta only
  extract_lets global merged global' merged'
  have each : ∀ init, CheckFollows names (merged init) (merged' init) state := by
    intro init
    refine Pass.follows_get ?_
    rw [Checking.get?_rename distinct]
    rcases state.symbols.get? decl.name with _ | ⟨_ | params, _ | ⟨old, was⟩ | _⟩
    · exact Checking.record_follows distinct _ _
    · exact Pass.follows_breach
    · refine Pass.follows_guard Iff.rfl rfl fun _ => ?_
      -- Two initial values are one too many; any other pair is merged.
      rcases old with _ | _ | _ <;> rcases init with _ | _ | _
      all_goals first | exact Checking.record_follows distinct _ _ | exact Pass.follows_fail rfl
    · exact Pass.follows_breach
    · exact Pass.follows_fail rfl
    · exact Pass.follows_fail rfl
    · exact Pass.follows_fail rfl
  cases decl.init with
  | none => exact each _
  | some init =>
    simp only [Option.map_some, constantInit_rename]
    rcases constantInit_cases decl.span init with ⟨value, constant⟩ | constant
    · simp only [constant, map_pure, pure_bind]
      exact each _
    · simp only [constant]
      exact Pass.follows_fail rfl

theorem VarDecl.checkLocal_follows (decl : VarDecl) :
    CheckFollows names decl.checkLocal (decl.rename names).checkLocal state := by
  unfold VarDecl.rename VarDecl.checkLocal
  dsimp only
  cases decl.storage with
  | external =>
    refine Pass.follows_guard (by rw [Option.isSome_map]) rfl fun _ => Pass.follows_get ?_
    rw [Checking.get?_rename distinct]
    rcases state.symbols.get? decl.name with _ | ⟨_ | params, _⟩
    · exact Checking.record_follows distinct _ _
    · exact Pass.follows_pure rfl
    · exact Pass.follows_fail rfl
  | static =>
    cases decl.init with
    | none => exact Checking.record_follows distinct _ _
    | some init =>
      simp only [Option.map_some, constantInit_rename]
      rcases constantInit_cases decl.span init with ⟨value, constant⟩ | constant
      · simp only [constant, pure_bind]
        exact Checking.record_follows distinct _ _
      · simp only [constant]
        exact Pass.follows_fail rfl
  | automatic =>
    exact (Checking.record_follows distinct _ _).bind fun _ _ _ => checkOptionalUse_follows distinct decl.init

theorem CheckStep.run_follows (loops : String → String) (step : CheckStep) :
    CheckFollows names step.run (step.rename names loops).run state := by
  cases step with
  | use value => exact checkUse_follows distinct value
  | func decl => exact FuncDecl.checkDeclaration_follows distinct loops decl
  | param decl => exact Checking.record_follows distinct _ _
  | localVar decl => exact VarDecl.checkLocal_follows distinct decl
  | headerVar decl =>
    exact Pass.follows_guard Iff.rfl rfl fun _ => VarDecl.checkLocal_follows distinct decl
  | global decl => exact VarDecl.checkAtFileScope_follows distinct decl
  | fallsOff span name => exact Pass.follows_modify rfl
  | misplaced kind => exact Pass.follows_breach

theorem CheckStep.runAll_follows (loops : String → String) (steps : List CheckStep) :
    CheckFollows names (runAll steps) (runAll (steps.map (CheckStep.rename names loops))) state := by
  induction steps generalizing state with
  | nil => exact Pass.follows_pure rfl
  | cons step rest ih => exact (step.run_follows distinct loops).bind fun _ _ _ => ih

end Steps

def Item.rename (names loops : String → String) : Item → Item
  | .func decl => .func (decl.rename names loops)
  | .var decl => .var (decl.rename names)
  | .stmt inner => .stmt (inner.rename names loops)

theorem renameItems_eq_map (names loops : String → String) (items : List Item) :
    renameItems names loops items = items.map (Item.rename names loops) := by
  induction items with
  | nil => rfl
  | cons item rest ih => cases item <;> rw [renameItems, ih] <;> rfl

theorem endsInReturn_rename (names loops : String → String) (block : Block) :
    (block.rename names loops).endsInReturn = block.endsInReturn := by
  obtain ⟨span, items⟩ := block
  unfold Block.rename Block.endsInReturn
  simp only [renameItems_eq_map, List.getLast?_map]
  rcases items.getLast? with _ | _ | _ | stmt
  · rfl
  · rfl
  · rfl
  · rcases stmt with _ | _ | ⟨_, _, _, _ | _⟩ | _ | _ | _ | _ | _ | _ | _ | _ <;> rfl

section Names
variable {names : String → String} (loops : String → String)

theorem optionalSteps_rename (value : Option Expr) :
    optionalSteps (value.map (Expr.rename names)) = (optionalSteps value).map (CheckStep.rename names loops) := by
  cases value <;> rfl

theorem ForInit.checkSteps_rename (init : ForInit) :
    (init.rename names).checkSteps = init.checkSteps.map (CheckStep.rename names loops) := by
  cases init <;> rfl

end Names

mutual

/-- Checking under other names takes the same steps. -/
theorem Stmt.checkSteps_rename {names loops : String → String} {bound : Nat} {known : List String} :
    ∀ stmt : Stmt, stmt.Bound bound known →
      (stmt.rename names loops).checkSteps = stmt.checkSteps.map (CheckStep.rename names loops)
  | .ret .., _ | .expr .., _ => rfl
  | .branch _ cond yes none, fits => by
    rw [Stmt.rename, Stmt.checkSteps, Stmt.checkSteps, Stmt.checkSteps_rename yes fits.2]
    rfl
  | .branch _ cond yes (some no), fits => by
    rw [Stmt.rename, Stmt.checkSteps, Stmt.checkSteps, Stmt.checkSteps_rename yes fits.2.1,
      Stmt.checkSteps_rename no fits.2.2, List.map_cons, List.map_append]
    rfl
  | .block body, fits => Block.checkSteps_rename body fits
  | .whileLoop _ cond body _, fits => by
    rw [Stmt.rename, Stmt.checkSteps, Stmt.checkSteps, Stmt.checkSteps_rename body fits.2]
    rfl
  | .doLoop _ body cond _, fits => by
    rw [Stmt.rename, Stmt.checkSteps, Stmt.checkSteps, Stmt.checkSteps_rename body fits.1, List.map_append]
    rfl
  | .forLoop _ init cond post body _, fits => by
    rw [Stmt.rename, Stmt.checkSteps, Stmt.checkSteps, Stmt.checkSteps_rename body fits.2.2.2,
      ForInit.checkSteps_rename loops, optionalSteps_rename loops, optionalSteps_rename loops]
    simp only [List.map_append]
  | .breakLoop .., _ | .continueLoop .., _ | .empty _, _ | .misplaced _, _ => rfl

theorem Block.checkSteps_rename {names loops : String → String} {bound : Nat} {known : List String} :
    ∀ block : Block, block.Bound bound known →
      (block.rename names loops).checkSteps = block.checkSteps.map (CheckStep.rename names loops)
  | ⟨_, items⟩, fits => itemsSteps_rename items fits

theorem itemsSteps_rename {names loops : String → String} {bound : Nat} {known : List String} :
    ∀ items : List Item, itemsBound bound known items →
      itemsSteps (renameItems names loops items) = (itemsSteps items).map (CheckStep.rename names loops)
  | [], _ => rfl
  | .func decl :: rest, fits => by
    obtain ⟨span, name, params, body, storage⟩ := decl
    obtain ⟨⟨-, prototype⟩, later⟩ := fits
    cases prototype
    rw [renameItems, itemsSteps, itemsSteps, itemsSteps_rename rest later]
    rfl
  | .var decl :: rest, fits => by
    rw [renameItems, itemsSteps, itemsSteps, itemsSteps_rename rest fits.2]
    rfl
  | .stmt stmt :: rest, fits => by
    rw [renameItems, itemsSteps, itemsSteps, itemsSteps_rename rest fits.2, Stmt.checkSteps_rename stmt fits.1,
      List.map_append]

end

section Unit
variable {names loops : String → String} {bound : Nat} {known : List String}

theorem FuncDecl.checkSteps_rename {decl : FuncDecl} (fits : decl.Bound bound known)
    (fixed : names decl.name = decl.name) :
    (decl.rename names loops).checkSteps = decl.checkSteps.map (CheckStep.rename names loops) := by
  obtain ⟨span, name, params, body, storage⟩ := decl
  cases body with
  | none => rfl
  | some body =>
    change names name = name at fixed
    rw [FuncDecl.rename, FuncDecl.checkSteps, FuncDecl.checkSteps, endsInReturn_rename,
      Block.checkSteps_rename body (fits.2.2 body rfl), fixed]
    simp only [List.map_cons, List.map_append, List.map_map, CheckStep.rename, FuncDecl.rename, fixed]
    congr 3
    split <;> rfl

theorem unitSteps_rename (fixed : ∀ name, Spelled name → names name = name) {items : List Item}
    (fits : unitBound bound known items) : (renameItems names loops items).flatMap Item.checkSteps =
      (items.flatMap Item.checkSteps).map (CheckStep.rename names loops) := by
  induction items generalizing known with
  | nil => rfl
  | cons item rest ih =>
    cases item with
    | stmt other => exact fits.elim
    | var decl =>
      rw [renameItems, List.flatMap_cons, List.flatMap_cons, List.map_append, ih fits.2]
      rfl
    | func decl =>
      rw [renameItems, List.flatMap_cons, List.flatMap_cons, List.map_append, ih fits.2, Item.checkSteps, Item.checkSteps,
        FuncDecl.checkSteps_rename fits.1 (fixed decl.name fits.1.1)]

end Unit

theorem Program.check_follows {bound more : Nat} {program : Program} (fits : unitBound bound [] program.items)
    (state : Checking) :
    CheckFollows (shift more) program.check (program.rename (shift more) (shift more)).check state := by
  have steps : (program.rename (shift more) (shift more)).checkSteps =
      program.checkSteps.map (CheckStep.rename (shift more) (shift more)) :=
    unitSteps_rename (fun _ spelled => spelled.shift more) fits
  rw [Program.check_eq, Program.check_eq, steps]
  exact CheckStep.runAll_follows (shift_injective more) (shift more) program.checkSteps

end IntC
