import IntC.Proofs.Symbol.Sharpen
import IntC.Proofs.Traverse

namespace IntC

namespace SymbolTable

/-- The name is that of a variable. -/
def IsVariable (table : SymbolTable) (name : String) : Prop := ∃ attr, table.get? name = some ⟨.int, attr⟩

/-- The name is that of a function of so many parameters. -/
def Takes (table : SymbolTable) (name : String) (count : Nat) : Prop :=
  ∃ attr, table.get? name = some ⟨.func count, attr⟩

theorem IsVariable.kept {before after : SymbolTable} {name : String} (known : before.IsVariable name)
    (sharpens : before.Sharpens after) : after.IsVariable name := by
  obtain ⟨attr, found⟩ := known
  obtain ⟨⟨type, attr'⟩, there, same, -⟩ := sharpens.symbols name _ found
  cases same
  exact ⟨attr', there⟩

theorem Takes.kept {before after : SymbolTable} {name : String} {count : Nat} (takes : before.Takes name count)
    (sharpens : before.Sharpens after) : after.Takes name count := by
  obtain ⟨attr, found⟩ := takes
  obtain ⟨⟨type, attr'⟩, there, same, -⟩ := sharpens.symbols name _ found
  cases same
  exact ⟨attr', there⟩

theorem Takes.unique {table : SymbolTable} {name : String} {count count' : Nat} (takes : table.Takes name count)
    (takes' : table.Takes name count') : count = count' := by
  obtain ⟨attr, found⟩ := takes
  obtain ⟨attr', found'⟩ := takes'
  have same := found.symm.trans found'
  simp only [Option.some.injEq, Symbol.mk.injEq, SymbolType.func.injEq] at same
  exact Int.ofNat_inj.mp same.1

end SymbolTable

mutual

/-- Variables are used as variables, and functions are called with as many arguments as they take. -/
def Expr.Kinded (table : SymbolTable) : Expr → Prop
  | .number .. => True
  | .ident _ name => table.IsVariable name
  | .assign _ target value => target.Kinded table ∧ value.Kinded table
  | .binary _ _ left right => left.Kinded table ∧ right.Kinded table
  | .unary _ _ operand => operand.Kinded table
  | .conditional _ cond yes no => cond.Kinded table ∧ yes.Kinded table ∧ no.Kinded table
  | .call _ name args => table.Takes name args.length ∧ argsKinded table args
  | .misplaced _ => True

def argsKinded (table : SymbolTable) : List Expr → Prop
  | [] => True
  | arg :: rest => arg.Kinded table ∧ argsKinded table rest

end

theorem SymbolTable.lookup_eq_ok {table : SymbolTable} {name : String} {symbol : Symbol} :
    table.lookup name = .ok symbol ↔ table.get? name = some symbol := by
  unfold SymbolTable.lookup
  cases table.get? name <;> simp

mutual

/-- An expression that passes the checker uses every name as the table has it. -/
theorem Expr.kinded_of_check {table : SymbolTable} :
    ∀ value : Expr, value.check table = .ok () → value.Kinded table
  | .number .., _ => trivial
  | .ident _ name, checked => by
    obtain ⟨⟨type, attr⟩, found, rest⟩ := bind_eq_ok.mp checked
    cases type with
    | int => exact ⟨attr, SymbolTable.lookup_eq_ok.mp found⟩
    | func => cases rest
  | .assign _ target value, checked => by
    obtain ⟨_, first, second⟩ := bind_eq_ok.mp checked
    exact ⟨Expr.kinded_of_check target first, Expr.kinded_of_check value second⟩
  | .binary _ _ left right, checked => by
    obtain ⟨_, first, second⟩ := bind_eq_ok.mp checked
    exact ⟨Expr.kinded_of_check left first, Expr.kinded_of_check right second⟩
  | .unary _ _ operand, checked => Expr.kinded_of_check operand checked
  | .conditional _ cond yes no, checked => by
    obtain ⟨_, first, rest⟩ := bind_eq_ok.mp checked
    obtain ⟨_, second, third⟩ := bind_eq_ok.mp rest
    exact ⟨Expr.kinded_of_check cond first, Expr.kinded_of_check yes second, Expr.kinded_of_check no third⟩
  | .call _ name args, checked => by
    obtain ⟨⟨type, attr⟩, found, rest⟩ := bind_eq_ok.mp checked
    cases type with
    | int => cases rest
    | func params =>
      dsimp only at rest
      split at rest
      · cases rest
      · rename_i count
        have same := Decidable.not_not.mp count
        subst same
        exact ⟨⟨attr, SymbolTable.lookup_eq_ok.mp found⟩, argsKinded_of_check args rest⟩
  | .misplaced _, _ => trivial

theorem argsKinded_of_check {table : SymbolTable} :
    ∀ args : List Expr, checkArgs table args = .ok () → argsKinded table args
  | [], _ => trivial
  | arg :: rest, checked => by
    obtain ⟨_, first, second⟩ := bind_eq_ok.mp checked
    exact ⟨Expr.kinded_of_check arg first, argsKinded_of_check rest second⟩

end

mutual

/-- What an expression relies on stays true while the table gets more precise. -/
theorem Expr.kinded_kept {before after : SymbolTable} (sharpens : before.Sharpens after) :
    ∀ value : Expr, value.Kinded before → value.Kinded after
  | .number .., _ => trivial
  | .ident .., kinded => SymbolTable.IsVariable.kept kinded sharpens
  | .assign _ target value, kinded =>
    ⟨Expr.kinded_kept sharpens target kinded.1, Expr.kinded_kept sharpens value kinded.2⟩
  | .binary _ _ left right, kinded =>
    ⟨Expr.kinded_kept sharpens left kinded.1, Expr.kinded_kept sharpens right kinded.2⟩
  | .unary _ _ operand, kinded => Expr.kinded_kept sharpens operand kinded
  | .conditional _ cond yes no, kinded =>
    ⟨Expr.kinded_kept sharpens cond kinded.1, Expr.kinded_kept sharpens yes kinded.2.1,
      Expr.kinded_kept sharpens no kinded.2.2⟩
  | .call _ _ args, kinded => ⟨kinded.1.kept sharpens, argsKinded_kept sharpens args kinded.2⟩
  | .misplaced _, _ => trivial

theorem argsKinded_kept {before after : SymbolTable} (sharpens : before.Sharpens after) :
    ∀ args : List Expr, argsKinded before args → argsKinded after args
  | [], _ => trivial
  | arg :: rest, kinded => ⟨Expr.kinded_kept sharpens arg kinded.1, argsKinded_kept sharpens rest kinded.2⟩

end

/-- A local variable is in the table, and if it gets its value where it is declared, its initializer uses names well. -/
structure VarDecl.Kinded (table : SymbolTable) (decl : VarDecl) : Prop where
  name : table.IsVariable decl.name
  init : decl.storage = .automatic → ∀ init ∈ decl.init, init.Kinded table

theorem VarDecl.Kinded.kept {before after : SymbolTable} {decl : VarDecl} (kinded : decl.Kinded before)
    (sharpens : before.Sharpens after) : decl.Kinded after :=
  ⟨kinded.name.kept sharpens, fun automatic init given => init.kinded_kept sharpens (kinded.init automatic init given)⟩

section Steps
variable {state : Checking}

theorem checkUse_kinded (value : Expr) :
    Pass.Meets (checkUse value) state (fun _ after => after = state ∧ value.Kinded after.symbols) fun _ => True := by
  simp only [checkUse, Pass.meets_bind, Pass.meets_get, Pass.meets_check]
  cases checked : value.check state.symbols with
  | ok => exact ⟨trivial, value.kinded_of_check checked⟩
  | error => trivial

theorem checkOptionalUse_kinded (value : Option Expr) :
    Pass.Meets (checkOptionalUse value) state
      (fun _ after => after = state ∧ ∀ expr ∈ value, expr.Kinded after.symbols) fun _ => True := by
  cases value with
  | none => exact ⟨rfl, fun _ member => nomatch member⟩
  | some value =>
    refine (checkUse_kinded value).mono fun _ after both => ⟨both.1, fun expr member => ?_⟩
    cases member
    exact both.2

theorem Checking.record_variable (name : String) (attr : SymbolAttr) :
    Pass.Meets (Checking.record name ⟨.int, attr⟩) state (fun _ after => after.symbols.IsVariable name) fun _ => True :=
  ⟨attr, (SymbolTable.get?_set ..).trans (if_pos rfl)⟩

theorem VarDecl.checkLocal_kinded (decl : VarDecl) :
    Pass.Meets decl.checkLocal state (fun _ after => decl.Kinded after.symbols) fun _ => True := by
  unfold VarDecl.checkLocal
  cases storage : decl.storage with
  | external =>
    have kinded : ∀ {after : Checking}, after.symbols.IsVariable decl.name → decl.Kinded after.symbols :=
      fun name => ⟨name, fun automatic => by cases storage.symm.trans automatic⟩
    dsimp only
    split
    · trivial
    · simp only [Pass.meets_bind, Pass.meets_get]
      split
      · trivial
      · rename_i attr found
        exact kinded ⟨attr, found⟩
      · exact (Checking.record_variable _ _).mono fun _ _ => kinded
  | static =>
    have kinded : ∀ {after : Checking}, after.symbols.IsVariable decl.name → decl.Kinded after.symbols :=
      fun name => ⟨name, fun automatic => by cases storage.symm.trans automatic⟩
    have recorded : ∀ value after, Pass.Meets (Checking.record decl.name ⟨.int, .static (.value value) false⟩) after
        (fun _ last => decl.Kinded last.symbols) fun _ => True := fun value after =>
      (Checking.record_variable _ _).mono fun _ _ => kinded
    cases decl.init with
    | none => exact recorded 0 state
    | some init =>
      rcases constantInit_cases decl.span init with ⟨value, constant⟩ | constant
      · simp only [constant, pure_bind]
        exact recorded value state
      · simp only [constant]
        trivial
  | automatic =>
    refine (Checking.record_variable decl.name _).bind fun _ middle name => ?_
    refine (checkOptionalUse_kinded decl.init).mono ?_
    rintro _ _ ⟨rfl, kinded⟩
    exact ⟨name, fun _ => kinded⟩

theorem FuncDecl.checkDeclaration_takes (decl : FuncDecl) :
    Pass.Meets decl.checkDeclaration state (fun _ after => after.symbols.Takes decl.name decl.params.length)
      fun _ => True := by
  have recorded : ∀ defined global, Pass.Meets
      (Checking.record decl.name ⟨.func decl.params.length, .func defined global⟩) state
      (fun _ after => after.symbols.Takes decl.name decl.params.length) fun _ => True := fun defined global =>
    ⟨.func defined global, (SymbolTable.get?_set ..).trans (if_pos rfl)⟩
  unfold FuncDecl.checkDeclaration
  simp only [Pass.meets_bind, Pass.meets_get]
  split
  · exact recorded _ _
  · split
    · trivial
    · split
      · split
        · trivial
        · split
          · trivial
          · exact recorded _ _
      · trivial

end Steps

namespace CheckStep

/-- What a step has found out or recorded, as the table has it. -/
def Shown (table : SymbolTable) : CheckStep → Prop
  | .use value => value.Kinded table
  | .func decl => table.Takes decl.name decl.params.length
  | .localVar decl => decl.Kinded table
  | .headerVar decl => decl.Kinded table
  | .param _ | .global _ | .fallsOff .. | .misplaced _ => True

theorem Shown.kept {before after : SymbolTable} {step : CheckStep} (shown : step.Shown before)
    (sharpens : before.Sharpens after) : step.Shown after := by
  cases step with
  | use value => exact value.kinded_kept sharpens shown
  | func decl => exact SymbolTable.Takes.kept shown sharpens
  | localVar decl | headerVar decl => exact VarDecl.Kinded.kept shown sharpens
  | _ => trivial

theorem run_shown (step : CheckStep) (state : Checking) :
    Pass.Meets step.run state (fun _ after => step.Shown after.symbols) fun _ => True := by
  cases step with
  | use value => exact (checkUse_kinded value).mono fun _ _ => And.right
  | func decl => exact decl.checkDeclaration_takes
  | localVar decl => exact decl.checkLocal_kinded
  | headerVar decl =>
    rw [run]
    dsimp only
    split
    · trivial
    · exact decl.checkLocal_kinded
  | param | global | fallsOff | misplaced =>
    have nothing : ∀ outcome : Except Error Unit, Meets outcome (fun _ => True) fun _ => True := by
      rintro (_ | _) <;> trivial
    exact nothing _

theorem Updates.sharpens {step : CheckStep} {before after : SymbolTable} {outcome : Except Error Unit}
    (updates : step.Updates before outcome after) : before.Sharpens after := by
  rcases updates with ⟨rfl, -⟩ | ⟨name, symbol, -, rfl, -, sharper⟩
  · exact .refl _
  · exact .set sharper

/-- After some steps the table still has all that they have found out, each of them at its own time. -/
theorem shown_runAll {done rest : List CheckStep} {state : Checking} (separate : Separate (done ++ rest))
    (ran : runAll done {} = (.ok (), state)) : ∀ step ∈ done, step.Shown state.symbols := by
  induction done using List.reverseRecOn generalizing rest state with
  | nil => exact List.forall_mem_nil _
  | append_singleton done step ih =>
    rw [runAll_append, runAll_singleton] at ran
    obtain ⟨_, middle, before, last⟩ := Pass.bind_eq_ok.mp ran
    rw [List.append_assoc, List.singleton_append] at separate
    have reached := reached_runAll separate before
    have updates := permits_run step reached.coherent fun _ => reached.absent separate
    unfold Permits Pass.Ends at updates
    rw [last] at updates
    refine List.forall_mem_append.mpr ⟨fun other member => ?_, List.forall_mem_singleton.mpr ?_⟩
    · exact (ih separate before other member).kept updates.sharpens
    · exact (step.run_shown middle).of_ok last

end CheckStep

end IntC
