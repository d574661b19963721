import IntC.Proofs.NameShift

namespace IntC

def Binding.rename (names : String → String) (binding : Binding) : Binding :=
  { binding with name := names binding.name }

/-- The same spellings, with other names behind them. -/
def Scope.rename (names : String → String) (scope : Scope) : Scope :=
  scope.map fun entry => (entry.1, entry.2.rename names)

namespace Scope
variable {names : String → String}

theorem find?_rename (scope : Scope) (spelling : String) :
    (scope.rename names).find? spelling = (scope.find? spelling).map (Binding.rename names) := by
  induction scope with
  | nil => rfl
  | cons entry rest ih =>
    obtain ⟨other, binding⟩ := entry
    change Scope.find? (Scope.bind (rename names rest) other (binding.rename names)) spelling =
      (Scope.find? (Scope.bind rest other binding) spelling).map (Binding.rename names)
    rw [find?_bind, find?_bind, ih]
    split <;> rfl

theorem declared?_rename (scope : Scope) (spelling : String) :
    (scope.rename names).declared? spelling = (scope.declared? spelling).map (Binding.rename names) := by
  unfold declared?
  rw [find?_rename, Option.filter_map]
  rfl

theorem hides_rename (scope : Scope) (spelling : String) : (scope.rename names).hides spelling = scope.hides spelling := by
  unfold hides
  rw [find?_rename, Option.any_map]
  rfl

theorem inner_rename (scope : Scope) : scope.inner.rename names = (scope.rename names).inner := by
  unfold inner rename
  rw [List.map_map, List.map_map]
  rfl

theorem link_rename (scope : Scope) {name : String} (fixed : names name = name) :
    (scope.bind name { name, linked := true }).rename names =
      (scope.rename names).bind name { name, linked := true } := by
  unfold bind rename
  rw [List.map_cons, Binding.rename, fixed]

end Scope

mutual

/-- Under other names in the scope, an expression is resolved to the same one under these names. -/
theorem Expr.resolve_scope {names : String → String} {scope : Scope} :
    ∀ value : Expr, value.resolve (scope.rename names) = (value.resolve scope).map (Expr.rename names)
  | .number .. => rfl
  | .ident _ name => by
    unfold Expr.resolve
    rw [Scope.find?_rename]
    cases scope.find? name <;> rfl
  | .assign span target value => by
    cases target with
    | ident place name =>
      unfold Expr.resolve
      rw [Scope.find?_rename, Expr.resolve_scope value]
      cases scope.find? name <;> cases value.resolve scope <;> rfl
    | _ => rfl
  | .unary _ _ operand => by
    unfold Expr.resolve
    rw [Expr.resolve_scope operand]
    cases operand.resolve scope <;> rfl
  | .binary _ _ left right => by
    unfold Expr.resolve
    rw [Expr.resolve_scope left, Expr.resolve_scope right]
    cases left.resolve scope <;> cases right.resolve scope <;> rfl
  | .conditional _ cond yes no => by
    unfold Expr.resolve
    rw [Expr.resolve_scope cond, Expr.resolve_scope yes, Expr.resolve_scope no]
    cases cond.resolve scope <;> cases yes.resolve scope <;> cases no.resolve scope <;> rfl
  | .call _ name args => by
    unfold Expr.resolve
    rw [Scope.find?_rename, resolveArgs_scope args]
    cases scope.find? name <;> cases resolveArgs scope args <;> rfl
  | .misplaced _ => rfl

theorem resolveArgs_scope {names : String → String} {scope : Scope} :
    ∀ args : List Expr, resolveArgs (scope.rename names) args = (resolveArgs scope args).map (renameArgs names)
  | [] => rfl
  | arg :: rest => by
    unfold resolveArgs
    rw [Expr.resolve_scope arg, resolveArgs_scope rest]
    cases arg.resolve scope <;> cases resolveArgs scope rest <;> rfl

end

theorem resolveOptional_scope {names : String → String} {scope : Scope} (value : Option Expr) :
    resolveOptional (scope.rename names) value = (resolveOptional scope value).map (Option.map (Expr.rename names)) := by
  cases value with
  | none => rfl
  | some value =>
    simp only [resolveOptional, value.resolve_scope]
    cases value.resolve scope <;> rfl

/-- A resolution that has come equally far, with names from further on. -/
def Resolution.ahead (more : Nat) (state : Resolution) : Resolution :=
  { state with names := state.names.advance more }

section Steps
variable {scope : Scope} {more : Nat} {state : Resolution}

/-- Two resolutions of one thing, in scopes that differ in the names, the second one ahead in the supply. -/
abbrev Shifts {α : Type} (more : Nat) (left right : Pass Resolution α) (state : Resolution) (image : α → α) : Prop :=
  Pass.Follows left right state (Resolution.ahead more) image

theorem shifts_check {α : Type} {left right : Except Error α} {image : α → α} (same : right = left.map image) :
    Shifts more (Pass.check left) (Pass.check right) state image := by
  refine Pass.follows_check ?_
  rw [same]
  cases left with
  | error error => exact Error.Like.refl error
  | ok a => exact rfl

theorem Resolution.declare_shifts (spelling : String) (span : Span) :
    Shifts more (declare scope spelling span) (declare (scope.rename (shift more)) spelling span) state
      (fun found => (shift more found.1, found.2.rename (shift more))) := by
  unfold Shifts Pass.Follows Pass.Alike
  rw [declare_eq, declare_eq, Scope.hides_rename]
  unfold ahead
  rw [fresh_advance]
  exact ⟨rfl, rfl⟩

theorem VarDecl.resolve_shifts {decl : VarDecl} (written : decl.Written) :
    Shifts more (decl.resolve scope) (decl.resolve (scope.rename (shift more))) state
      (fun found => (found.1.rename (shift more), found.2.rename (shift more))) := by
  unfold VarDecl.resolve
  rw [Scope.declared?_rename]
  extract_lets declared declared'
  have finish : Shifts more (declared ()) (declared' ()) state
      (fun found => (found.1.rename (shift more), found.2.rename (shift more))) := by
    unfold declared declared'
    by_cases external : decl.storage = .external
    · rw [if_pos external, if_pos external]
      refine Pass.follows_pure (Prod.ext ?_ ?_)
      · exact (VarDecl.rename_eq_self (fun _ spelled => spelled.shift more) written).symm
      · exact (scope.link_rename (written.1.shift more)).symm
    · rw [if_neg external, if_neg external]
      refine (Resolution.declare_shifts decl.name decl.span).bind ?_
      rintro ⟨unique, inner⟩ after -
      exact (shifts_check (resolveOptional_scope decl.init)).map fun _ => rfl
  cases scope.declared? decl.name with
  | none => exact finish
  | some previous =>
    simp only [Option.map_some]
    change Shifts more (if (previous.linked && decl.storage = .external) = true then _ else _)
      (if (previous.linked && decl.storage = .external) = true then _ else _) state _
    split
    · exact finish
    · exact Pass.follows_fail rfl

theorem resolveParams_shifts (params : List Param) :
    Shifts more (resolveParams scope params) (resolveParams (scope.rename (shift more)) params) state
      (fun found => (found.1.map (Param.rename (shift more)), found.2.rename (shift more))) := by
  induction params generalizing scope state with
  | nil => exact Pass.follows_pure rfl
  | cons param rest ih =>
    unfold resolveParams
    rw [Scope.declared?_rename, Option.isSome_map]
    refine Pass.follows_guard Iff.rfl rfl fun _ => ?_
    refine (Resolution.declare_shifts param.name param.span).bind ?_
    rintro ⟨unique, inner⟩ after -
    exact ih.map fun _ => rfl

theorem ForInit.resolve_shifts {init : ForInit} (written : init.Written) :
    Shifts more (init.resolve scope) (init.resolve (scope.rename (shift more))) state
      (fun found => (found.1.rename (shift more), found.2.rename (shift more))) := by
  unfold ForInit.resolve
  rw [← Scope.inner_rename]
  cases init with
  | none => exact Pass.follows_pure rfl
  | var decl => exact (VarDecl.resolve_shifts written).map fun _ => rfl
  | expr value => exact (shifts_check value.resolve_scope).map fun _ => rfl

theorem FuncDecl.permit_shifts (decl : FuncDecl) :
    Shifts more (decl.permit scope) (decl.permit (scope.rename (shift more))) state id := by
  unfold FuncDecl.permit
  rw [Scope.declared?_rename, Option.all_map]
  change Shifts more _ (if (scope.declared? decl.name).all Binding.linked = true then _ else _) state _
  split
  · exact Pass.follows_pure rfl
  · exact Pass.follows_fail rfl

end Steps

mutual

/-- A supply that is ahead makes of a statement the same one, under names that are ahead by as much. -/
theorem Stmt.resolve_shifts {more : Nat} {scope : Scope} {state : Resolution} : ∀ stmt : Stmt, stmt.Written →
    Shifts more (stmt.resolve scope) (stmt.resolve (scope.rename (shift more))) state (Stmt.rename (shift more) id)
  | .ret span value, _ | .expr span value, _ => by
    unfold Stmt.resolve
    exact (shifts_check value.resolve_scope).map fun _ => rfl
  | .branch span cond yes none, written => by
    unfold Stmt.resolve
    refine (shifts_check cond.resolve_scope).bind fun _ _ _ => ?_
    exact (Stmt.resolve_shifts yes written.2).map fun _ => rfl
  | .branch span cond yes (some no), written => by
    unfold Stmt.resolve
    refine (shifts_check cond.resolve_scope).bind fun _ _ _ => ?_
    refine (Stmt.resolve_shifts yes written.2.1).bind fun _ _ _ => ?_
    exact (Stmt.resolve_shifts no written.2.2).map fun _ => rfl
  | .block body, written => by
    unfold Stmt.resolve
    rw [← Scope.inner_rename]
    exact (Block.resolve_shifts body written).map fun _ => rfl
  | .whileLoop span cond body label, written => by
    unfold Stmt.resolve
    refine (shifts_check cond.resolve_scope).bind fun _ _ _ => ?_
    exact (Stmt.resolve_shifts body written.2).map fun _ => rfl
  | .doLoop span body cond label, written => by
    unfold Stmt.resolve
    refine (Stmt.resolve_shifts body written.1).bind fun _ _ _ => ?_
    exact (shifts_check cond.resolve_scope).map fun _ => rfl
  | .forLoop span init cond post body label, written => by
    rw [Stmt.resolve_forLoop, Stmt.resolve_forLoop]
    refine (ForInit.resolve_shifts written.1).bind ?_
    rintro ⟨start, inner⟩ after -
    refine (shifts_check (resolveOptional_scope cond)).bind fun _ _ _ => ?_
    refine (shifts_check (resolveOptional_scope post)).bind fun _ _ _ => ?_
    exact (Stmt.resolve_shifts body written.2.2.2).map fun _ => rfl
  | .breakLoop .., _ | .continueLoop .., _ | .empty _, _ => Pass.follows_pure rfl
  | .misplaced _, written => written.elim

theorem Block.resolve_shifts {more : Nat} {scope : Scope} {state : Resolution} : ∀ block : Block, block.Written →
    Shifts more (block.resolve scope) (block.resolve (scope.rename (shift more))) state (Block.rename (shift more) id)
  | ⟨span, items⟩, written => by
    unfold Block.resolve
    exact (resolveItems_shifts items written).map fun _ => rfl

theorem resolveItems_shifts {more : Nat} {scope : Scope} {state : Resolution} :
    ∀ items : List Item, itemsWritten items → Shifts more (resolveItems scope items)
      (resolveItems (scope.rename (shift more)) items) state (renameItems (shift more) id)
  | [], _ => Pass.follows_pure rfl
  | .var decl :: rest, written => by
    unfold resolveItems
    refine (VarDecl.resolve_shifts written.1).bind ?_
    rintro ⟨made, inner⟩ after -
    exact (resolveItems_shifts rest written.2).map fun _ => rfl
  | .func decl :: rest, written => by
    obtain ⟨span, name, params, body, storage⟩ := decl
    unfold resolveItems
    refine Pass.follows_guard Iff.rfl rfl fun prototype => Pass.follows_guard Iff.rfl rfl fun _ => ?_
    cases body with
    | some body => exact absurd rfl prototype
    | none =>
      have fixed := written.1.name.shift more
      simp only [FuncDecl.declare_eq, bind_assoc, pure_bind]
      refine (FuncDecl.permit_shifts _).bind fun _ _ _ => ?_
      rw [← Scope.link_rename scope fixed, ← Scope.inner_rename]
      refine (resolveParams_shifts params).bind ?_
      rintro ⟨made, inner⟩ after -
      refine (resolveItems_shifts rest written.2).map fun _ => ?_
      rw [renameItems, FuncDecl.rename, fixed]
  | .stmt stmt :: rest, written => by
    unfold resolveItems
    refine (Stmt.resolve_shifts stmt written.1).bind fun _ _ _ => ?_
    exact (resolveItems_shifts rest written.2).map fun _ => rfl

end

theorem resolveBody_shifts {more : Nat} {scope : Scope} {state : Resolution} (params : List Param) (body : Option Block)
    (written : ∀ block ∈ body, block.Written) :
    Shifts more (resolveBody scope params body) (resolveBody (scope.rename (shift more)) params body) state
      (fun found => (found.1.map (Param.rename (shift more)), found.2.map (Block.rename (shift more) id))) := by
  unfold resolveBody
  rw [← Scope.inner_rename]
  refine (resolveParams_shifts params).bind ?_
  rintro ⟨made, inner⟩ after -
  cases body with
  | none => exact Pass.follows_pure rfl
  | some body =>
    simp only [Option.mapM_some, map_eq_pure_bind, bind_assoc, pure_bind]
    exact (Block.resolve_shifts body (written body rfl)).map fun _ => rfl

theorem resolveUnit_shifts {more : Nat} {scope : Scope} {state : Resolution} {items : List Item}
    (written : itemsWritten items) : Shifts more (resolveUnit scope items)
      (resolveUnit (scope.rename (shift more)) items) state (renameItems (shift more) id) := by
  induction items generalizing scope state with
  | nil => exact Pass.follows_pure rfl
  | cons item rest ih =>
    cases item with
    | stmt other => exact Pass.follows_breach
    | var decl =>
      unfold resolveUnit
      rw [← Scope.link_rename scope (written.1.1.shift more)]
      refine (ih written.2).map fun _ => ?_
      rw [renameItems, VarDecl.rename_eq_self (fun _ spelled => spelled.shift more) written.1]
    | func decl =>
      have fixed := written.1.name.shift more
      rw [resolveUnit_func, resolveUnit_func]
      refine (FuncDecl.permit_shifts decl).bind fun _ _ _ => ?_
      simp only
      rw [← Scope.link_rename scope fixed]
      refine (resolveBody_shifts decl.params decl.body fun block defined => written.1.body defined).bind ?_
      rintro ⟨params, body⟩ after -
      refine (ih written.2).map fun _ => ?_
      rw [renameItems, FuncDecl.rename_eq, fixed]

theorem Program.resolve_shifts {program : Program} (written : unitWritten program.items) (more : Nat)
    (state : Resolution) :
    Shifts more program.resolve program.resolve state (Program.rename (shift more) id) :=
  (resolveUnit_shifts written.1).map fun _ => rfl

end IntC
