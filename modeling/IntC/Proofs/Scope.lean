import IntC.Proofs.Pass
import IntC.Proofs.Tree.Shape
import IntC.Scope

namespace IntC

variable {known : List String} {scope : Scope}

/-- Every binding of the scope leads to a known name. -/
def Scope.Within (known : List String) (scope : Scope) : Prop := ∀ entry ∈ scope, entry.2.name ∈ known

namespace Scope.Within

theorem found {known : List String} {scope : Scope} {spelling : String} {binding : Binding}
    (within : scope.Within known) (found : scope.find? spelling = some binding) : binding.name ∈ known := by
  induction scope with
  | nil => cases found
  | cons entry rest ih =>
    unfold Scope.find? at found
    rw [List.lookup_cons] at found
    split at found
    · cases found
      exact within entry List.mem_cons_self
    · exact ih (fun other inside => within other (List.mem_cons_of_mem _ inside)) found

theorem inner {known : List String} {scope : Scope} (within : scope.Within known) : scope.inner.Within known := by
  intro entry member
  obtain ⟨old, inside, rfl⟩ := List.mem_map.mp member
  exact within old inside

theorem bind {known : List String} {scope : Scope} (within : scope.Within known) (spelling : String)
    (binding : Binding) : (scope.bind spelling binding).Within (binding.name :: known) := by
  refine List.forall_mem_cons.mpr ⟨List.mem_cons_self, fun entry inside => ?_⟩
  exact List.mem_cons_of_mem _ (within entry inside)

end Scope.Within

mutual

theorem Expr.resolve_meets {known : List String} {scope : Scope} (within : scope.Within known) :
    ∀ value : Expr, value.Written → Meets (value.resolve scope) (Expr.Uses known) Error.IsUser
  | .number .., _ => trivial
  | .ident _ name, _ => by
    unfold Expr.resolve
    split
    · exact within.found ‹_›
    · rfl
  | .assign _ target value, written => by
    have later := Expr.resolve_meets within value written.2
    cases target with
    | ident _ name =>
      unfold Expr.resolve
      cases found : scope.find? name with
      | none => rfl
      | some binding =>
        simp only [pure_bind, meets_bind, meets_pure]
        exact later.mono fun _ uses => ⟨within.found found, uses⟩
    | _ => rfl
  | .unary _ _ operand, written => by
    unfold Expr.resolve
    simp only [meets_bind, meets_pure]
    exact (Expr.resolve_meets within operand written.2).mono fun _ uses => ⟨written.1, uses⟩
  | .binary _ _ left right, written => by
    unfold Expr.resolve
    simp only [meets_bind, meets_pure]
    refine (Expr.resolve_meets within left written.2.1).mono fun _ first => ?_
    exact (Expr.resolve_meets within right written.2.2).mono fun _ second => ⟨written.1, first, second⟩
  | .conditional _ cond yes no, written => by
    unfold Expr.resolve
    simp only [meets_bind, meets_pure]
    refine (Expr.resolve_meets within cond written.1).mono fun _ first => ?_
    refine (Expr.resolve_meets within yes written.2.1).mono fun _ second => ?_
    exact (Expr.resolve_meets within no written.2.2).mono fun _ third => ⟨first, second, third⟩
  | .call _ name args, written => by
    unfold Expr.resolve
    have later := resolveArgs_meets within args written.2
    cases found : scope.find? name with
    | none => rfl
    | some binding =>
      simp only [meets_bind, meets_pure]
      exact later.mono fun _ uses => ⟨within.found found, uses⟩
  | .misplaced _, written => written.elim

theorem resolveArgs_meets {known : List String} {scope : Scope} (within : scope.Within known) :
    ∀ args : List Expr, argsWritten args → Meets (resolveArgs scope args) (argsUse known) Error.IsUser
  | [], _ => trivial
  | arg :: rest, written => by
    unfold resolveArgs
    simp only [meets_bind, meets_pure]
    refine (Expr.resolve_meets within arg written.1).mono fun _ first => ?_
    exact (resolveArgs_meets within rest written.2).mono fun _ others => ⟨first, others⟩

end

theorem resolveOptional_meets (within : scope.Within known) {value : Option Expr}
    (written : ∀ expr ∈ value, expr.Written) :
    Meets (resolveOptional scope value) (fun found => ∀ expr ∈ found, expr.Uses known) Error.IsUser := by
  cases value with
  | none => exact fun _ found => nomatch found
  | some value =>
    simp only [resolveOptional, meets_bind, meets_pure]
    refine (value.resolve_meets within (written value rfl)).mono fun _ uses expr found => ?_
    cases found
    exact uses

/-- Resolving goes on with the names given out so far, and what it makes is in order wherever those are. -/
def Resolves (state : Resolution) (wanted : Nat → Prop) (after : Resolution) : Prop :=
  state.names.next ≤ after.names.next ∧ ∀ bound, after.names.next ≤ bound → wanted bound

theorem Resolution.declare_meets (within : scope.Within known) (spelling : String) (span : Span) (state : Resolution) :
    Pass.Meets (Resolution.declare scope spelling span) state (fun found after =>
      Resolves state (fun bound => Minted 0 bound found.1) after ∧ found.2.Within (found.1 :: known)) Error.IsUser := by
  have fresh : ∀ before : Resolution, before.names = state.names →
      Pass.Meets (Resolution.fresh spelling >>= fun unique => pure (unique, scope.bind spelling { name := unique }))
        before (fun found after => Resolves state (fun bound => Minted 0 bound found.1) after ∧
          found.2.Within (found.1 :: known)) Error.IsUser := by
    rintro ⟨names, warnings⟩ rfl
    refine ⟨⟨Nat.le_succ _, fun bound more => ?_⟩, within.bind spelling _⟩
    exact ⟨state.names.next, Nat.zero_le _, more, numbered_fresh ..⟩
  unfold Resolution.declare
  split
  · simp only [Pass.meets_bind, Resolution.warn, Pass.meets_modify]
    exact Pass.meets_bind.mp (fresh _ rfl)
  · exact fresh state rfl

theorem VarDecl.resolve_meets (within : scope.Within known) {decl : VarDecl} (written : decl.Written)
    (state : Resolution) :
    Pass.Meets (decl.resolve scope) state (fun found after =>
      Resolves state (fun bound => found.1.Bound bound known) after ∧ found.2.Within (found.1.name :: known))
      Error.IsUser := by
  unfold VarDecl.resolve
  extract_lets declared
  have finish : Pass.Meets (declared ()) state (fun found after =>
      Resolves state (fun bound => found.1.Bound bound known) after ∧ found.2.Within (found.1.name :: known))
      Error.IsUser := by
    unfold declared
    split
    · rename_i external
      exact ⟨⟨Nat.le.refl, fun _ _ => (VarDecl.bound_of_external external).mpr written.1⟩, within.bind decl.name _⟩
    · rename_i other
      refine (Resolution.declare_meets within decl.name decl.span state).bind ?_
      rintro found middle ⟨minted, inside⟩
      simp only [Pass.meets_bind, Pass.meets_check, Pass.meets_pure]
      refine (resolveOptional_meets inside written.2).mono fun init uses => ⟨⟨minted.1, fun bound more => ?_⟩, inside⟩
      have fits : VarDecl.Bound bound known { decl with name := found.1, init } := by
        refine (VarDecl.bound_of_ne_external ?_).mpr ⟨minted.2 bound more, uses⟩
        exact other
      exact fits
  split
  · split
    · exact finish
    · rfl
  · exact finish

theorem resolveParams_meets (within : scope.Within known) (params : List Param) (state : Resolution) :
    Pass.Meets (resolveParams scope params) state (fun found after =>
      Resolves state (fun bound => ∀ param ∈ found.1, Minted 0 bound param.name) after ∧
        found.2.Within (found.1.map Param.name ++ known)) Error.IsUser := by
  induction params generalizing known scope state with
  | nil => exact ⟨⟨Nat.le.refl, fun _ _ _ member => nomatch member⟩, within⟩
  | cons param rest ih =>
    unfold resolveParams
    extract_lets declared
    have finish : Pass.Meets (declared ()) state (fun found after =>
        Resolves state (fun bound => ∀ param ∈ found.1, Minted 0 bound param.name) after ∧
          found.2.Within (found.1.map Param.name ++ known)) Error.IsUser := by
      refine (Resolution.declare_meets within param.name param.span state).bind ?_
      rintro found middle ⟨minted, inside⟩
      refine (ih inside middle).bind ?_
      rintro others last ⟨resolves, every⟩
      refine ⟨⟨Nat.le_trans minted.1 resolves.1, fun bound more => ?_⟩, fun entry member => ?_⟩
      · exact List.forall_mem_cons.mpr ⟨minted.2 bound (Nat.le_trans resolves.1 more), resolves.2 bound more⟩
      · have here := every entry member
        simp only [List.mem_append, List.mem_cons, List.map_cons] at here ⊢
        grind
    split
    · rfl
    · exact finish

theorem FuncDecl.declare_meets (within : scope.Within known) (decl : FuncDecl) (state : Resolution) :
    Pass.Meets (decl.declare scope) state (fun found after =>
      Resolves state (fun bound => ∀ param ∈ found.1, Minted 0 bound param.name) after ∧
        found.2.1.Within (decl.name :: known) ∧
        found.2.2.Within (found.1.map Param.name ++ decl.name :: known)) Error.IsUser := by
  unfold FuncDecl.declare
  extract_lets outer declared
  have finish : Pass.Meets (declared ()) state (fun found after =>
      Resolves state (fun bound => ∀ param ∈ found.1, Minted 0 bound param.name) after ∧
        found.2.1.Within (decl.name :: known) ∧
        found.2.2.Within (found.1.map Param.name ++ decl.name :: known)) Error.IsUser := by
    have linked := within.bind decl.name { name := decl.name, linked := true }
    refine (resolveParams_meets linked.inner decl.params state).bind ?_
    rintro found after ⟨resolves, inside⟩
    exact ⟨resolves, linked, inside⟩
  split
  · split
    · exact finish
    · rfl
  · exact finish

/-- The first part of a `for` header stands in a scope of its own. -/
def ForInit.resolve (scope : Scope) : ForInit → Pass Resolution (ForInit × Scope)
  | .none => pure (.none, scope.inner)
  | .var decl => do
    let (decl, scope) ← decl.resolve scope.inner
    pure (.var decl, scope)
  | .expr value => do pure (.expr (← Pass.check (value.resolve scope.inner)), scope.inner)

theorem ForInit.resolve_meets (within : scope.Within known) {init : ForInit} (written : init.Written)
    (state : Resolution) :
    Pass.Meets (init.resolve scope) state (fun found after =>
      Resolves state (fun bound => found.1.Bound bound known) after ∧ found.2.Within (found.1.names ++ known))
      Error.IsUser := by
  cases init with
  | none => exact ⟨⟨Nat.le.refl, fun _ _ => trivial⟩, within.inner⟩
  | var decl =>
    refine (VarDecl.resolve_meets within.inner written state).bind ?_
    rintro found after ⟨resolves, inside⟩
    exact ⟨resolves, inside⟩
  | expr value =>
    simp only [ForInit.resolve, Pass.meets_bind, Pass.meets_check, Pass.meets_pure]
    refine (value.resolve_meets within.inner written).mono fun found uses => ?_
    exact ⟨⟨Nat.le.refl, fun _ _ => uses⟩, within.inner⟩

theorem Stmt.resolve_forLoop (scope : Scope) (span : Span) (init : ForInit) (cond post : Option Expr) (body : Stmt)
    (label : String) :
    (Stmt.forLoop span init cond post body label).resolve scope = (do
      let (init, scope) ← init.resolve scope
      let cond ← Pass.check (resolveOptional scope cond)
      let post ← Pass.check (resolveOptional scope post)
      return .forLoop span init cond post (← body.resolve scope) label) := by
  cases init <;> simp only [Stmt.resolve, ForInit.resolve, bind_assoc, pure_bind]

mutual

theorem Stmt.resolve_meets {known : List String} {scope : Scope} (within : scope.Within known) (state : Resolution) :
    ∀ stmt : Stmt, stmt.Written → Pass.Meets (stmt.resolve scope) state
      (fun found after => Resolves state (fun bound => found.Bound bound known) after) Error.IsUser
  | .ret _ value, written | .expr _ value, written => by
    unfold Stmt.resolve
    simp only [Pass.meets_bind, Pass.meets_check, Pass.meets_pure]
    exact (value.resolve_meets within written).mono fun _ uses => ⟨Nat.le.refl, fun _ _ => uses⟩
  | .branch _ cond yes none, written => by
    unfold Stmt.resolve
    simp only [Pass.meets_bind, Pass.meets_check, Pass.meets_pure]
    refine (cond.resolve_meets within written.1).mono fun _ condition => ?_
    refine (Stmt.resolve_meets within state yes written.2).mono fun _ _ first => ?_
    exact ⟨first.1, fun bound more => ⟨condition, first.2 bound more⟩⟩
  | .branch _ cond yes (some no), written => by
    unfold Stmt.resolve
    simp only [Pass.meets_bind, Pass.meets_check, Pass.meets_pure]
    refine (cond.resolve_meets within written.1).mono fun _ condition => ?_
    refine (Stmt.resolve_meets within state yes written.2.1).mono fun _ middle first => ?_
    refine (Stmt.resolve_meets within middle no written.2.2).mono fun _ _ second => ?_
    exact ⟨Nat.le_trans first.1 second.1, fun bound more =>
      ⟨condition, first.2 bound (Nat.le_trans second.1 more), second.2 bound more⟩⟩
  | .block body, written => by
    unfold Stmt.resolve
    simp only [Pass.meets_bind, Pass.meets_pure]
    exact Block.resolve_meets within.inner state body written
  | .whileLoop _ cond body _, written => by
    unfold Stmt.resolve
    simp only [Pass.meets_bind, Pass.meets_check, Pass.meets_pure]
    refine (cond.resolve_meets within written.1).mono fun _ condition => ?_
    refine (Stmt.resolve_meets within state body written.2).mono fun _ _ inside => ?_
    exact ⟨inside.1, fun bound more => ⟨condition, inside.2 bound more⟩⟩
  | .doLoop _ body cond _, written => by
    unfold Stmt.resolve
    simp only [Pass.meets_bind, Pass.meets_check, Pass.meets_pure]
    refine (Stmt.resolve_meets within state body written.1).mono fun _ _ inside => ?_
    refine (cond.resolve_meets within written.2).mono fun _ condition => ?_
    exact ⟨inside.1, fun bound more => ⟨inside.2 bound more, condition⟩⟩
  | .forLoop _ init cond post body _, written => by
    rw [Stmt.resolve_forLoop]
    refine (ForInit.resolve_meets within written.1 state).bind ?_
    rintro found middle ⟨first, inside⟩
    simp only [Pass.meets_bind, Pass.meets_check, Pass.meets_pure]
    refine (resolveOptional_meets inside written.2.1).mono fun _ second => ?_
    refine (resolveOptional_meets inside written.2.2.1).mono fun _ third => ?_
    refine (Stmt.resolve_meets inside middle body written.2.2.2).mono fun _ _ last => ?_
    exact ⟨Nat.le_trans first.1 last.1, fun bound more =>
      ⟨first.2 bound (Nat.le_trans last.1 more), second, third, last.2 bound more⟩⟩
  | .breakLoop .., _ | .continueLoop .., _ | .empty _, _ => ⟨Nat.le.refl, fun _ _ => trivial⟩
  | .misplaced _, written => written.elim

theorem Block.resolve_meets {known : List String} {scope : Scope} (within : scope.Within known) (state : Resolution) :
    ∀ block : Block, block.Written → Pass.Meets (block.resolve scope) state
      (fun found after => Resolves state (fun bound => found.Bound bound known) after) Error.IsUser
  | ⟨_, items⟩, written => by
    unfold Block.resolve
    simp only [Pass.meets_bind, Pass.meets_pure]
    exact resolveItems_meets within state items written

theorem resolveItems_meets {known : List String} {scope : Scope} (within : scope.Within known) (state : Resolution) :
    ∀ items : List Item, itemsWritten items → Pass.Meets (resolveItems scope items) state
      (fun found after => Resolves state (fun bound => itemsBound bound known found) after) Error.IsUser
  | [], _ => ⟨Nat.le.refl, fun _ _ => trivial⟩
  | .var decl :: rest, written => by
    unfold resolveItems
    refine (VarDecl.resolve_meets within written.1 state).bind ?_
    rintro found middle ⟨first, inside⟩
    refine (resolveItems_meets inside middle rest written.2).bind fun _ _ others => ?_
    exact ⟨Nat.le_trans first.1 others.1, fun bound more =>
      ⟨first.2 bound (Nat.le_trans others.1 more), others.2 bound more⟩⟩
  | .func decl :: rest, written => by
    unfold resolveItems
    extract_lets declared checked
    split
    · rfl
    · rename_i prototype
      unfold checked
      split
      · rfl
      · refine (FuncDecl.declare_meets within decl state).bind ?_
        rintro found middle ⟨first, inside, _⟩
        refine (resolveItems_meets inside middle rest written.2).bind fun _ _ others => ?_
        have here : Spelled decl.name ∧ decl.body = none := ⟨written.1.name, by simpa using prototype⟩
        exact ⟨Nat.le_trans first.1 others.1, fun bound more => ⟨here, others.2 bound more⟩⟩
  | .stmt stmt :: rest, written => by
    unfold resolveItems
    refine (Stmt.resolve_meets within state stmt written.1).bind fun found middle first => ?_
    refine (resolveItems_meets within middle rest written.2).bind fun _ _ others => ?_
    exact ⟨Nat.le_trans first.1 others.1, fun bound more =>
      ⟨first.2 bound (Nat.le_trans others.1 more), others.2 bound more⟩⟩

end

theorem resolveUnit_meets (within : scope.Within known) (state : Resolution) {items : List Item}
    (written : unitWritten items) :
    Pass.Meets (resolveUnit scope items) state
      (fun found after => Resolves state (fun bound => unitBound bound known found) after) Error.IsUser := by
  induction items generalizing known scope state with
  | nil => exact ⟨Nat.le.refl, fun _ _ => trivial⟩
  | cons item rest ih =>
    have later : ∀ inner, unitWritten (inner :: rest) → unitWritten rest := by
      intro inner written
      refine ⟨?_, fun stmt member => written.2 stmt (List.mem_cons_of_mem _ member)⟩
      cases inner <;> exact written.1.2
    cases item with
    | stmt stmt => exact absurd List.mem_cons_self (written.2 stmt)
    | var decl =>
      have linked := within.bind decl.name { name := decl.name, linked := true }
      refine (ih linked state (later _ written)).bind fun found after others => ?_
      exact ⟨others.1, fun bound more => ⟨written.1.1.1, others.2 bound more⟩⟩
    | func decl =>
      refine (FuncDecl.declare_meets within decl state).bind ?_
      rintro ⟨params, outer, inside⟩ middle ⟨first, linked, body⟩
      have name : Spelled decl.name := written.1.1.name
      cases defined : decl.body with
      | none =>
        simp only [pure_bind]
        refine (ih linked middle (later _ written)).bind fun found after others => ?_
        refine ⟨Nat.le_trans first.1 others.1, fun bound more => ⟨⟨name, ?_, ?_⟩, others.2 bound more⟩⟩
        · exact first.2 bound (Nat.le_trans others.1 more)
        · exact fun _ found => nomatch found
      | some block =>
        have inBody : block.Written := written.1.1.body defined
        simp only [Pass.meets_bind, Pass.meets_map]
        refine (Block.resolve_meets body middle block inBody).mono fun made behind second => ?_
        refine (ih linked behind (later _ written)).mono fun found after others => ?_
        refine ⟨Nat.le_trans first.1 (Nat.le_trans second.1 others.1), fun bound more => ?_⟩
        have sofar := Nat.le_trans others.1 more
        refine ⟨⟨name, first.2 bound (Nat.le_trans second.1 sofar), ?_⟩, others.2 bound more⟩
        rintro _ ⟨⟩
        exact second.2 bound sofar

theorem Program.resolve_meets {program : Program} (written : unitWritten program.items) (state : Resolution) :
    Pass.Meets program.resolve state
      (fun found after => Resolves state (fun bound => unitBound bound [] found.items) after) Error.IsUser := by
  have empty : Scope.Within [] [] := fun _ member => nomatch member
  exact (resolveUnit_meets empty state written).bind fun _ _ found => found

end IntC
