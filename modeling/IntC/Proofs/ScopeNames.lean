import IntC.Proofs.NameDraw
import IntC.Proofs.ScopeFrames
import IntC.Proofs.Tree.Rename
import Mathlib.Data.List.TakeWhile

namespace IntC

variable {back : String → String} {scope : Scope}

/-- The part of a name before its last dot; the whole name if it has none. -/
def stemOf (name : String) : String :=
  match name.toList.reverse.dropWhile (· ≠ '.') with
  | [] => name
  | _ :: before => String.ofList before.reverse

theorem Spelled.stemOf {name : String} (spelled : Spelled name) : stemOf name = name := by
  have none : name.toList.reverse.dropWhile (· ≠ '.') = [] := by
    refine List.dropWhile_eq_nil_iff.mpr fun c member => ?_
    rw [List.mem_reverse] at member
    exact decide_eq_true fun same => spelled (same ▸ member)
  unfold IntC.stemOf
  rw [none]

theorem stemOf_numbered (stem : String) (number : Nat) : stemOf (stem ++ "." ++ toString number) = stem := by
  -- A stem may have dots of its own, but behind the last one there are digits only.
  have rest : (stem ++ "." ++ toString number).toList.reverse.dropWhile (· ≠ '.') = '.' :: stem.toList.reverse := by
    rw [numbered_toList, List.reverse_append, List.reverse_cons, List.append_assoc,
      List.dropWhile_append_of_pos, List.singleton_append, List.dropWhile_cons_of_neg (by simp)]
    intro c member
    rw [List.mem_reverse] at member
    exact decide_eq_true fun same => dot_not_mem_number number (same ▸ member)
  unfold stemOf
  rw [rest]
  simp only [List.reverse_reverse, String.ofList_toList]

/-- A way back to what was written: from a name with a number to its stem, and from a spelling to itself. -/
structure Restores (back : String → String) : Prop where
  spelled : ∀ name, Spelled name → back name = name
  numbered : ∀ (stem : String) (number : Nat), back (stem ++ "." ++ toString number) = stem

theorem restores_stemOf : Restores stemOf := ⟨fun _ => Spelled.stemOf, stemOf_numbered⟩

/-- A name leads back to the spelling it stands for. -/
structure Scope.Faithful (back : String → String) (scope : Scope) : Prop extends Restores back where
  found : ∀ spelling binding, scope.find? spelling = some binding → back binding.name = spelling

namespace Scope.Faithful
variable {back : String → String} {scope : Scope}

theorem bind (faithful : scope.Faithful back) {spelling : String} {binding : Binding}
    (restored : back binding.name = spelling) : (scope.bind spelling binding).Faithful back := by
  refine ⟨faithful.toRestores, fun other found => ?_⟩
  rw [Scope.find?_bind]
  by_cases same : (other == spelling) = true
  · rw [if_pos same]
    rintro ⟨⟩
    rw [restored, eq_of_beq same]
  · rw [if_neg same]
    exact faithful.found other found

theorem link (faithful : scope.Faithful back) {name : String} (spelled : Spelled name) :
    (scope.bind name { name, linked := true }).Faithful back := faithful.bind (faithful.spelled name spelled)

theorem inner (faithful : scope.Faithful back) : scope.inner.Faithful back := by
  refine ⟨faithful.toRestores, fun spelling binding found => ?_⟩
  rw [Scope.find?_inner, Option.map_eq_some_iff] at found
  obtain ⟨outer, here, rfl⟩ := found
  exact faithful.found spelling outer here

end Scope.Faithful

mutual

/-- A resolved expression leads back to the one that was written. -/
theorem Expr.resolve_rename {back : String → String} {scope : Scope} (faithful : scope.Faithful back) :
    ∀ value : Expr, Meets (value.resolve scope) (fun found => found.rename back = value) fun _ => True
  | .number .. => rfl
  | .ident _ name => by
    unfold Expr.resolve
    cases found : scope.find? name with
    | none => trivial
    | some binding =>
      simp only [meets_pure, Expr.rename]
      rw [faithful.found name binding found]
  | .assign span target value => by
    cases target with
    | ident place name =>
      unfold Expr.resolve
      cases found : scope.find? name with
      | none => trivial
      | some binding =>
        simp only [meets_bind, meets_pure]
        refine (Expr.resolve_rename faithful value).mono fun _ same => ?_
        rw [Expr.rename, Expr.rename, faithful.found name binding found, same]
    | _ => trivial
  | .unary _ _ operand => by
    unfold Expr.resolve
    simp only [meets_bind, meets_pure]
    refine (Expr.resolve_rename faithful operand).mono fun _ same => ?_
    rw [Expr.rename, same]
  | .binary _ _ left right => by
    unfold Expr.resolve
    simp only [meets_bind, meets_pure]
    refine (Expr.resolve_rename faithful left).mono fun _ first => ?_
    refine (Expr.resolve_rename faithful right).mono fun _ second => ?_
    rw [Expr.rename, first, second]
  | .conditional _ cond yes no => by
    unfold Expr.resolve
    simp only [meets_bind, meets_pure]
    refine (Expr.resolve_rename faithful cond).mono fun _ first => ?_
    refine (Expr.resolve_rename faithful yes).mono fun _ second => ?_
    refine (Expr.resolve_rename faithful no).mono fun _ third => ?_
    rw [Expr.rename, first, second, third]
  | .call _ name args => by
    unfold Expr.resolve
    cases found : scope.find? name with
    | none => trivial
    | some binding =>
      simp only [meets_bind, meets_pure]
      refine (resolveArgs_rename faithful args).mono fun _ same => ?_
      rw [Expr.rename, faithful.found name binding found, same]
  | .misplaced _ => trivial

theorem resolveArgs_rename {back : String → String} {scope : Scope} (faithful : scope.Faithful back) :
    ∀ args : List Expr, Meets (resolveArgs scope args) (fun found => renameArgs back found = args) fun _ => True
  | [] => rfl
  | arg :: rest => by
    unfold resolveArgs
    simp only [meets_bind, meets_pure]
    refine (Expr.resolve_rename faithful arg).mono fun _ first => ?_
    refine (resolveArgs_rename faithful rest).mono fun _ second => ?_
    rw [renameArgs, first, second]

end

theorem resolveOptional_rename (faithful : scope.Faithful back) (value : Option Expr) :
    Meets (resolveOptional scope value) (fun found => found.map (Expr.rename back) = value) fun _ => True := by
  cases value with
  | none => rfl
  | some value =>
    unfold resolveOptional
    simp only [meets_bind, meets_pure]
    refine (Expr.resolve_rename faithful value).mono fun _ same => ?_
    rw [Option.map_some, same]

mutual

/-- A name that leads back to itself everywhere leaves an expression as it is. -/
theorem Expr.rename_eq_self {names : String → String} (fixed : ∀ name, Spelled name → names name = name) :
    ∀ value : Expr, value.Written → value.rename names = value
  | .number .., _ => rfl
  | .ident _ name, written => by rw [Expr.rename, fixed name written]
  | .assign _ target value, written => by
    rw [Expr.rename, Expr.rename_eq_self fixed target written.1, Expr.rename_eq_self fixed value written.2]
  | .unary _ _ operand, written => by rw [Expr.rename, Expr.rename_eq_self fixed operand written.2]
  | .binary _ _ left right, written => by
    rw [Expr.rename, Expr.rename_eq_self fixed left written.2.1, Expr.rename_eq_self fixed right written.2.2]
  | .conditional _ cond yes no, written => by
    rw [Expr.rename, Expr.rename_eq_self fixed cond written.1, Expr.rename_eq_self fixed yes written.2.1,
      Expr.rename_eq_self fixed no written.2.2]
  | .call _ name args, written => by rw [Expr.rename, fixed name written.1, renameArgs_eq_self fixed args written.2]
  | .misplaced _, written => written.elim

theorem renameArgs_eq_self {names : String → String} (fixed : ∀ name, Spelled name → names name = name) :
    ∀ args : List Expr, argsWritten args → renameArgs names args = args
  | [], _ => rfl
  | arg :: rest, written => by
    rw [renameArgs, Expr.rename_eq_self fixed arg written.1, renameArgs_eq_self fixed rest written.2]

end

theorem VarDecl.rename_eq_self {names : String → String} (fixed : ∀ name, Spelled name → names name = name)
    {decl : VarDecl} (written : decl.Written) : decl.rename names = decl := by
  obtain ⟨span, name, init, storage⟩ := decl
  cases init with
  | none => rw [VarDecl.rename, fixed name written.1, Option.map_none]
  | some init =>
    rw [VarDecl.rename, fixed name written.1, Option.map_some, Expr.rename_eq_self fixed init (written.2 init rfl)]

section Steps
variable {back : String → String} {scope : Scope}

/-- A declaration takes one name, and the name leads back to the spelling. -/
theorem Resolution.declare_draws (faithful : scope.Faithful back) (spelling : String) (span : Span)
    (state : Resolution) :
    Pass.Draws Resolution.names (Resolution.declare scope spelling span) state [spelling] (fun found given _ =>
      given = [found.1] ∧ back found.1 = spelling ∧ found.2.Faithful back) := by
  have restored : back (state.names.fresh spelling).1 = spelling := faithful.numbered spelling state.names.next
  unfold Pass.Draws
  rw [Resolution.declare_eq]
  exact ⟨rfl, rfl, restored, faithful.bind restored⟩

theorem VarDecl.resolve_draws (faithful : scope.Faithful back) {decl : VarDecl} (written : decl.Written)
    (state : Resolution) :
    Pass.Draws Resolution.names (decl.resolve scope) state decl.declared (fun found given _ =>
      found.1.declared = given ∧ found.1.rename back = decl ∧ found.2.Faithful back) := by
  unfold VarDecl.resolve
  extract_lets declared
  have finish : Pass.Draws Resolution.names (declared ()) state decl.declared (fun found given _ =>
      found.1.declared = given ∧ found.1.rename back = decl ∧ found.2.Faithful back) := by
    unfold declared VarDecl.declared
    by_cases external : decl.storage = .external
    · rw [if_pos external, if_pos external]
      refine Pass.draws_pure ⟨?_, VarDecl.rename_eq_self faithful.spelled written, faithful.link written.1⟩
      exact if_pos external
    · rw [if_neg external, if_neg external, ← List.append_nil [decl.name]]
      refine (Resolution.declare_draws faithful decl.name decl.span state).bind ?_
      rintro ⟨unique, inner⟩ given after ⟨rfl, restored, inside⟩
      refine Pass.draws_check (resolveOptional_rename inside decl.init) fun init same => Pass.draws_pure ?_
      refine ⟨if_neg external, ?_, inside⟩
      rw [VarDecl.rename, same, restored]
      cases decl
      rfl
  split
  · split
    · exact finish
    · exact Pass.draws_fail _ _
  · exact finish

theorem resolveParams_draws (faithful : scope.Faithful back) (params : List Param) (state : Resolution) :
    Pass.Draws Resolution.names (resolveParams scope params) state (params.map Param.name) (fun found given _ =>
      found.1.map Param.name = given ∧ found.1.map (Param.rename back) = params ∧ found.2.Faithful back) := by
  induction params generalizing scope state with
  | nil => exact Pass.draws_pure ⟨rfl, rfl, faithful⟩
  | cons param rest ih =>
    unfold resolveParams
    refine Pass.draws_guard fun _ => ?_
    rw [List.map_cons, ← List.singleton_append]
    refine (Resolution.declare_draws faithful param.name param.span state).bind ?_
    rintro ⟨unique, inner⟩ _ after ⟨rfl, restored, inside⟩
    refine ((ih inside after).mono ?_).map
    rintro ⟨others, last⟩ _ _ ⟨rfl, same, within⟩
    refine ⟨rfl, ?_, within⟩
    rw [List.map_cons, same, Param.rename, restored]

theorem ForInit.resolve_draws (faithful : scope.Faithful back) {init : ForInit} (written : init.Written)
    (state : Resolution) :
    Pass.Draws Resolution.names (init.resolve scope) state init.declared (fun found given _ =>
      found.1.declared = given ∧ found.1.rename back = init ∧ found.2.Faithful back) := by
  cases init with
  | none => exact Pass.draws_pure ⟨rfl, rfl, faithful.inner⟩
  | var decl =>
    refine ((VarDecl.resolve_draws faithful.inner written state).mono ?_).map
    rintro ⟨found, inner⟩ _ _ ⟨rfl, same, inside⟩
    exact ⟨rfl, congrArg ForInit.var same, inside⟩
  | expr value =>
    refine Pass.draws_check (Expr.resolve_rename faithful.inner value) fun found same => ?_
    exact Pass.draws_pure ⟨rfl, congrArg ForInit.expr same, faithful.inner⟩

theorem FuncDecl.permit_draws {α : Type} {f : Unit → Pass Resolution α} {stems : List String} {state : Resolution}
    {done : α → List String → Resolution → Prop} {decl : FuncDecl}
    (later : Pass.Draws Resolution.names (f ()) state stems done) :
    Pass.Draws Resolution.names (decl.permit scope >>= f) state stems done := by
  unfold FuncDecl.permit
  split
  · exact later
  · exact Pass.draws_fail _ _

end Steps

mutual

theorem Stmt.resolve_draws {back : String → String} {scope : Scope} (faithful : scope.Faithful back)
    (state : Resolution) :
    ∀ stmt : Stmt, stmt.Written → Pass.Draws Resolution.names (stmt.resolve scope) state stmt.declared
      (fun found given _ => found.declared = given ∧ found.rename back id = stmt)
  | .ret span value, _ | .expr span value, _ => by
    unfold Stmt.resolve
    refine Pass.draws_check (value.resolve_rename faithful) fun found same => Pass.draws_pure ⟨rfl, ?_⟩
    rw [Stmt.rename, same]
  | .branch span cond yes none, written => by
    unfold Stmt.resolve
    refine Pass.draws_check (cond.resolve_rename faithful) fun found first => ?_
    refine ((Stmt.resolve_draws faithful state yes written.2).mono ?_).map
    rintro made _ _ ⟨rfl, second⟩
    refine ⟨rfl, ?_⟩
    rw [Stmt.rename, first, second]
  | .branch span cond yes (some no), written => by
    unfold Stmt.resolve
    refine Pass.draws_check (cond.resolve_rename faithful) fun found first => ?_
    refine (Stmt.resolve_draws faithful state yes written.2.1).bind ?_
    rintro made _ after ⟨rfl, second⟩
    refine ((Stmt.resolve_draws faithful after no written.2.2).mono ?_).map
    rintro other _ _ ⟨rfl, third⟩
    refine ⟨rfl, ?_⟩
    rw [Stmt.rename, first, second, third]
  | .block body, written => by
    unfold Stmt.resolve
    refine ((Block.resolve_draws faithful.inner state body written).mono ?_).map
    rintro made _ _ ⟨rfl, same⟩
    refine ⟨rfl, ?_⟩
    rw [Stmt.rename, same]
  | .whileLoop span cond body label, written => by
    unfold Stmt.resolve
    refine Pass.draws_check (cond.resolve_rename faithful) fun found first => ?_
    refine ((Stmt.resolve_draws faithful state body written.2).mono ?_).map
    rintro made _ _ ⟨rfl, second⟩
    refine ⟨rfl, ?_⟩
    rw [Stmt.rename, first, second, id]
  | .doLoop span body cond label, written => by
    unfold Stmt.resolve
    rw [Stmt.declared, ← List.append_nil body.declared]
    refine (Stmt.resolve_draws faithful state body written.1).bind ?_
    rintro made _ after ⟨rfl, first⟩
    refine Pass.draws_check (cond.resolve_rename faithful) fun found second => Pass.draws_pure ⟨?_, ?_⟩
    · rw [Stmt.declared, List.append_nil]
    · rw [Stmt.rename, first, second, id]
  | .forLoop span init cond post body label, written => by
    rw [Stmt.resolve_forLoop]
    refine (ForInit.resolve_draws faithful written.1 state).bind ?_
    rintro ⟨start, inner⟩ _ after ⟨rfl, first, inside⟩
    refine Pass.draws_check (resolveOptional_rename inside cond) fun test second => ?_
    refine Pass.draws_check (resolveOptional_rename inside post) fun step third => ?_
    refine ((Stmt.resolve_draws inside after body written.2.2.2).mono ?_).map
    rintro made _ _ ⟨rfl, fourth⟩
    refine ⟨rfl, ?_⟩
    rw [Stmt.rename, first, second, third, fourth, id]
  | .breakLoop .., _ | .continueLoop .., _ | .empty _, _ => Pass.draws_pure ⟨rfl, rfl⟩
  | .misplaced _, written => written.elim

theorem Block.resolve_draws {back : String → String} {scope : Scope} (faithful : scope.Faithful back)
    (state : Resolution) :
    ∀ block : Block, block.Written → Pass.Draws Resolution.names (block.resolve scope) state block.declared
      (fun found given _ => found.declared = given ∧ found.rename back id = block)
  | ⟨span, items⟩, written => by
    unfold Block.resolve
    refine ((resolveItems_draws faithful state items written).mono ?_).map
    rintro made _ _ ⟨rfl, same⟩
    refine ⟨rfl, ?_⟩
    rw [Block.rename, same]

theorem resolveItems_draws {back : String → String} {scope : Scope} (faithful : scope.Faithful back)
    (state : Resolution) :
    ∀ items : List Item, itemsWritten items → Pass.Draws Resolution.names (resolveItems scope items) state
      (itemsDeclared items)
      (fun found given _ => itemsDeclared found = given ∧ renameItems back id found = items)
  | [], _ => Pass.draws_pure ⟨rfl, rfl⟩
  | .var decl :: rest, written => by
    unfold resolveItems
    refine (VarDecl.resolve_draws faithful written.1 state).bind ?_
    rintro ⟨made, inner⟩ _ after ⟨rfl, first, inside⟩
    refine ((resolveItems_draws inside after rest written.2).mono ?_).map
    rintro others _ _ ⟨rfl, second⟩
    refine ⟨rfl, ?_⟩
    rw [renameItems, first, second]
  | .func decl :: rest, written => by
    obtain ⟨span, name, params, body, storage⟩ := decl
    unfold resolveItems
    refine Pass.draws_guard fun prototype => Pass.draws_guard fun _ => ?_
    cases body with
    | some body => exact absurd rfl prototype
    | none =>
      simp only [FuncDecl.declare_eq, bind_assoc, pure_bind]
      refine FuncDecl.permit_draws ?_
      have linked := faithful.link written.1.1
      refine (resolveParams_draws linked.inner params state).bind ?_
      rintro ⟨made, inner⟩ _ after ⟨rfl, first, -⟩
      refine ((resolveItems_draws linked after rest written.2).mono ?_).map
      rintro others _ _ ⟨rfl, second⟩
      refine ⟨rfl, ?_⟩
      rw [renameItems, FuncDecl.rename, first, second, faithful.spelled name written.1.1]
  | .stmt stmt :: rest, written => by
    unfold resolveItems
    refine (Stmt.resolve_draws faithful state stmt written.1).bind ?_
    rintro made _ after ⟨rfl, first⟩
    refine ((resolveItems_draws faithful after rest written.2).mono ?_).map
    rintro others _ _ ⟨rfl, second⟩
    refine ⟨rfl, ?_⟩
    rw [renameItems, first, second]

end

theorem resolveBody_draws (faithful : scope.Faithful back) (params : List Param) (body : Option Block)
    (written : ∀ block ∈ body, block.Written) (state : Resolution) :
    Pass.Draws Resolution.names (resolveBody scope params body) state
      (params.map Param.name ++ (body.map Block.declared).getD []) (fun found given _ =>
        found.1.map Param.name ++ (found.2.map Block.declared).getD [] = given ∧
        found.1.map (Param.rename back) = params ∧ found.2.map (Block.rename back id) = body) := by
  unfold resolveBody
  refine (resolveParams_draws faithful.inner params state).bind ?_
  rintro ⟨made, inner⟩ _ after ⟨rfl, first, inside⟩
  cases body with
  | none => exact Pass.draws_pure ⟨rfl, first, rfl⟩
  | some body =>
    simp only [Option.mapM_some, map_eq_pure_bind, bind_assoc, pure_bind]
    refine ((Block.resolve_draws inside after body (written body rfl)).mono ?_).map
    rintro block _ _ ⟨rfl, same⟩
    exact ⟨rfl, first, congrArg some same⟩

theorem resolveUnit_draws (faithful : scope.Faithful back) {items : List Item} (written : itemsWritten items)
    (state : Resolution) :
    Pass.Draws Resolution.names (resolveUnit scope items) state (unitDeclared items)
      (fun found given _ => unitDeclared found = given ∧ renameItems back id found = items) := by
  induction items generalizing scope state with
  | nil => exact Pass.draws_pure ⟨rfl, rfl⟩
  | cons item rest ih =>
    cases item with
    | stmt other => exact Pass.draws_breach _
    | var decl =>
      refine ((ih (faithful.link written.1.1) written.2 state).mono ?_).map
      rintro others _ _ ⟨rfl, same⟩
      refine ⟨rfl, ?_⟩
      rw [renameItems, same, VarDecl.rename_eq_self faithful.spelled written.1]
    | func decl =>
      have name := written.1.name
      have inBody : ∀ block ∈ decl.body, block.Written := fun block defined => written.1.body defined
      rw [resolveUnit_func]
      refine FuncDecl.permit_draws ?_
      have linked := faithful.link name
      rw [unitDeclared, decl.declared_eq]
      refine (resolveBody_draws linked decl.params decl.body inBody state).bind ?_
      rintro ⟨params, body⟩ _ after ⟨rfl, first, second⟩
      refine ((ih linked written.2 after).mono ?_).map
      rintro others _ _ ⟨rfl, same⟩
      refine ⟨?_, ?_⟩
      · rw [unitDeclared, FuncDecl.declared_eq]
      · rw [renameItems, FuncDecl.rename_eq, first, second, same, faithful.spelled _ name]
        cases decl
        rfl

/-- Resolution takes one name for every parameter and every local variable without linkage, in their order, and
replacing each name by what it leads back to gives back the tree. -/
theorem Program.resolve_restores (restores : Restores back) {program : Program} (written : unitWritten program.items)
    (state : Resolution) :
    Pass.Draws Resolution.names program.resolve state (unitDeclared program.items)
      (fun found given _ => unitDeclared found.items = given ∧ found.rename back id = program) := by
  have empty : Scope.Faithful back [] := ⟨restores, fun _ _ found => nomatch found⟩
  refine ((resolveUnit_draws empty written.1 state).mono ?_).map
  rintro items _ _ ⟨rfl, same⟩
  refine ⟨rfl, ?_⟩
  rw [Program.rename, same]

theorem Program.resolve_draws {program : Program} (written : unitWritten program.items) (state : Resolution) :
    Pass.Draws Resolution.names program.resolve state (unitDeclared program.items)
      (fun found given _ => unitDeclared found.items = given ∧ found.rename stemOf id = program) :=
  Program.resolve_restores restores_stemOf written state

end IntC
