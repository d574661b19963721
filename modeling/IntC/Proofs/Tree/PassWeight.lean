import IntC.Proofs.Loop
import IntC.Proofs.ScopeNames
import IntC.Proofs.Tree.Weight

namespace IntC

/-- Weights that see no gain in a new name: a name with a number weighs at most what its stem does, and the
ids that are given to loops weigh least. -/
structure Weights.Fair (w : Weights) : Prop where
  numbered : ∀ (stem : String) (number : Nat), w.name (stem ++ "." ++ toString number) ≤ w.name stem
  loops : ∀ stem ∈ ["while", "dowhile", "for"], ∀ (number : Nat) (old : String),
    w.loop (stem ++ "." ++ toString number) ≤ w.loop old

/-- No name weighs less under its new name. -/
def Weights.GrowsUnder (w : Weights) (names : String → String) : Prop := ∀ name, w.name name ≤ w.name (names name)

section Rename
variable {w : Weights} {names : String → String}

mutual

theorem Expr.weight_rename (grows : w.GrowsUnder names) :
    ∀ value : Expr, value.weight w ≤ (value.rename names).weight w
  | .number .. => le_rfl
  | .ident _ name => grows name
  | .assign _ target value =>
    Nat.add_le_add (Nat.add_le_add_left (Expr.weight_rename grows target) _) (Expr.weight_rename grows value)
  | .binary _ _ left right =>
    Nat.add_le_add (Nat.add_le_add_left (Expr.weight_rename grows left) _) (Expr.weight_rename grows right)
  | .unary _ _ operand => Nat.add_le_add_left (Expr.weight_rename grows operand) _
  | .conditional _ cond yes no =>
    Nat.add_le_add
      (Nat.add_le_add (Nat.add_le_add_left (Expr.weight_rename grows cond) _) (Expr.weight_rename grows yes))
      (Expr.weight_rename grows no)
  | .call _ name args => Nat.add_le_add (Nat.add_le_add_right (grows name) _) (argsWeight_rename grows args)
  | .misplaced _ => le_rfl

theorem argsWeight_rename (grows : w.GrowsUnder names) :
    ∀ args : List Expr, argsWeight w args ≤ argsWeight w (renameArgs names args)
  | [] => le_rfl
  | arg :: rest => Nat.add_le_add (Expr.weight_rename grows arg) (argsWeight_rename grows rest)

end

theorem optionalWeight_rename (grows : w.GrowsUnder names) (value : Option Expr) :
    optionalWeight w value ≤ optionalWeight w (value.map (Expr.rename names)) := by
  cases value with
  | none => exact le_rfl
  | some value => exact value.weight_rename grows

theorem VarDecl.weight_rename (grows : w.GrowsUnder names) (decl : VarDecl) :
    decl.weight w ≤ (decl.rename names).weight w :=
  Nat.add_le_add (grows decl.name) (optionalWeight_rename grows decl.init)

theorem ForInit.weight_rename (grows : w.GrowsUnder names) (init : ForInit) :
    init.weight w ≤ (init.rename names).weight w := by
  cases init with
  | none => exact le_rfl
  | var decl => exact decl.weight_rename grows
  | expr value => exact value.weight_rename grows

theorem paramsWeight_rename (grows : w.GrowsUnder names) (params : List Param) :
    paramsWeight w params ≤ paramsWeight w (params.map (Param.rename names)) := by
  induction params with
  | nil => exact le_rfl
  | cons param rest ih => exact Nat.add_le_add (grows param.name) ih

mutual

theorem Stmt.weight_rename (grows : w.GrowsUnder names) :
    ∀ stmt : Stmt, stmt.weight w ≤ (stmt.rename names id).weight w
  | .ret _ value => Nat.add_le_add_left (value.weight_rename grows) _
  | .expr _ value => value.weight_rename grows
  | .branch _ cond yes none =>
    Nat.add_le_add (Nat.add_le_add_left (cond.weight_rename grows) _) (Stmt.weight_rename grows yes)
  | .branch _ cond yes (some no) =>
    Nat.add_le_add (Nat.add_le_add (Nat.add_le_add_left (cond.weight_rename grows) _) (Stmt.weight_rename grows yes))
      (Stmt.weight_rename grows no)
  | .block body => Block.weight_rename grows body
  | .whileLoop _ cond body _ =>
    Nat.add_le_add (Nat.add_le_add_left (cond.weight_rename grows) _) (Stmt.weight_rename grows body)
  | .doLoop _ body cond _ =>
    Nat.add_le_add (Nat.add_le_add_left (Stmt.weight_rename grows body) _) (cond.weight_rename grows)
  | .forLoop _ init cond post body _ => by
    have first := init.weight_rename grows
    have second := optionalWeight_rename grows cond
    have third := optionalWeight_rename grows post
    have last := Stmt.weight_rename grows body
    simp only [Stmt.rename, Stmt.weight, id]
    omega
  | .breakLoop .. | .continueLoop .. | .empty _ | .misplaced _ => le_rfl

theorem Block.weight_rename (grows : w.GrowsUnder names) :
    ∀ block : Block, block.weight w ≤ (block.rename names id).weight w
  | ⟨_, items⟩ => itemsWeight_rename grows items

theorem FuncDecl.weight_rename (grows : w.GrowsUnder names) :
    ∀ decl : FuncDecl, decl.weight w ≤ (decl.rename names id).weight w
  | ⟨_, name, params, none, _⟩ =>
    Nat.add_le_add (Nat.add_le_add_right (grows name) _) (paramsWeight_rename grows params)
  | ⟨_, name, params, some body, _⟩ =>
    Nat.add_le_add (Nat.add_le_add (Nat.add_le_add_right (grows name) _) (paramsWeight_rename grows params))
      (Block.weight_rename grows body)

theorem itemsWeight_rename (grows : w.GrowsUnder names) :
    ∀ items : List Item, itemsWeight w items ≤ itemsWeight w (renameItems names id items)
  | [] => le_rfl
  | .func decl :: rest => Nat.add_le_add (FuncDecl.weight_rename grows decl) (itemsWeight_rename grows rest)
  | .var decl :: rest => Nat.add_le_add (decl.weight_rename grows) (itemsWeight_rename grows rest)
  | .stmt stmt :: rest => Nat.add_le_add (Stmt.weight_rename grows stmt) (itemsWeight_rename grows rest)

end

end Rename

/-- Goes back to the stem of a name wherever that is no lighter. -/
def Weights.back (w : Weights) (name : String) : String :=
  if w.name name ≤ w.name (stemOf name) then stemOf name else name

theorem Weights.growsUnder_back (w : Weights) : w.GrowsUnder w.back := by
  intro name
  unfold Weights.back
  split
  · assumption
  · exact le_rfl

theorem Weights.Fair.restores_back {w : Weights} (fair : w.Fair) : Restores w.back where
  spelled name spelled := by rw [Weights.back, spelled.stemOf, ite_self]
  numbered stem number := by rw [Weights.back, stemOf_numbered, if_pos (fair.numbered stem number)]

theorem Program.resolve_weight {w : Weights} (fair : w.Fair) {program resolved : Program}
    (written : unitWritten program.items) {state after : Resolution}
    (renamed : program.resolve state = (.ok resolved, after)) :
    itemsWeight w resolved.items ≤ itemsWeight w program.items := by
  obtain ⟨-, -, same⟩ := (Program.resolve_restores fair.restores_back written state).of_ok renamed
  rw [← same]
  exact itemsWeight_rename w.growsUnder_back resolved.items

theorem Weights.Fair.fresh_loop {w : Weights} (fair : w.Fair) (stem : String)
    (listed : stem ∈ ["while", "dowhile", "for"]) (names : NameSupply) (old : String) :
    w.loop (names.fresh stem).1 ≤ w.loop old :=
  fair.loops stem listed names.next old

mutual

theorem Stmt.label_weight {w : Weights} (fair : w.Fair) (loop : Option String)
    (least : ∀ id ∈ loop, ∀ old, w.loop id ≤ w.loop old) (names : NameSupply) : ∀ stmt : Stmt,
    Pass.Meets (stmt.label loop) names (fun found _ => found.weight w ≤ stmt.weight w) fun _ => True
  | .breakLoop span old | .continueLoop span old => by
    unfold Stmt.label
    cases loop with
    | none => trivial
    | some id => exact least id rfl old
  | .branch _ cond yes none => by
    unfold Stmt.label
    simp only [Pass.meets_bind, Pass.meets_pure, Stmt.weight]
    exact (Stmt.label_weight fair loop least names yes).mono fun _ _ first => by omega
  | .branch _ cond yes (some no) => by
    unfold Stmt.label
    simp only [Pass.meets_bind, Pass.meets_pure, Stmt.weight]
    refine (Stmt.label_weight fair loop least names yes).mono fun _ middle first => ?_
    exact (Stmt.label_weight fair loop least middle no).mono fun _ _ second => by omega
  | .block body => by
    unfold Stmt.label
    simp only [Pass.meets_bind, Pass.meets_pure, Stmt.weight]
    exact Block.label_weight fair loop least names body
  | .whileLoop _ cond body old => by
    unfold Stmt.label
    have new := fair.fresh_loop "while" (by decide) names
    have here := new old
    simp only [Pass.meets_bind, Pass.meets_pure, loopId, Pass.meets_modifyGet, Stmt.weight]
    refine (Stmt.label_weight fair _ ?_ _ body).mono fun _ _ inside => by omega
    rintro _ ⟨⟩
    exact new
  | .doLoop _ body cond old => by
    unfold Stmt.label
    have new := fair.fresh_loop "dowhile" (by decide) names
    have here := new old
    simp only [Pass.meets_bind, Pass.meets_pure, loopId, Pass.meets_modifyGet, Stmt.weight]
    refine (Stmt.label_weight fair _ ?_ _ body).mono fun _ _ inside => by omega
    rintro _ ⟨⟩
    exact new
  | .forLoop _ init cond post body old => by
    unfold Stmt.label
    have new := fair.fresh_loop "for" (by decide) names
    have here := new old
    simp only [Pass.meets_bind, Pass.meets_pure, loopId, Pass.meets_modifyGet, Stmt.weight]
    refine (Stmt.label_weight fair _ ?_ _ body).mono fun _ _ inside => by omega
    rintro _ ⟨⟩
    exact new
  | .ret .. | .expr .. | .empty _ | .misplaced _ => le_rfl

theorem Block.label_weight {w : Weights} (fair : w.Fair) (loop : Option String)
    (least : ∀ id ∈ loop, ∀ old, w.loop id ≤ w.loop old) (names : NameSupply) : ∀ block : Block,
    Pass.Meets (block.label loop) names (fun found _ => found.weight w ≤ block.weight w) fun _ => True
  | ⟨_, items⟩ => by
    unfold Block.label
    simp only [Pass.meets_bind, Pass.meets_pure, Block.weight]
    exact labelItems_weight fair loop least names items

theorem labelItems_weight {w : Weights} (fair : w.Fair) (loop : Option String)
    (least : ∀ id ∈ loop, ∀ old, w.loop id ≤ w.loop old) (names : NameSupply) : ∀ items : List Item,
    Pass.Meets (labelItems loop items) names (fun found _ => itemsWeight w found ≤ itemsWeight w items) fun _ => True
  | [] => le_rfl
  | .stmt stmt :: rest => by
    unfold labelItems
    simp only [Pass.meets_bind, Pass.meets_pure, itemsWeight]
    refine (Stmt.label_weight fair loop least names stmt).mono fun _ middle first => ?_
    exact (labelItems_weight fair loop least middle rest).mono fun _ _ others => by omega
  | .var decl :: rest | .func decl :: rest => by
    unfold labelItems
    simp only [Pass.meets_bind, Pass.meets_pure, itemsWeight]
    exact (labelItems_weight fair loop least names rest).mono fun _ _ others => by omega

end

theorem Item.label_weight {w : Weights} (fair : w.Fair) (item : Item) (names : NameSupply) :
    Pass.Meets item.label names (fun found _ => ∀ rest, itemsWeight w (found :: rest) ≤
      itemsWeight w [item] + itemsWeight w rest) fun _ => True := by
  cases item with
  | var | stmt =>
    intro rest
    simp only [itemsWeight]
    omega
  | func decl =>
    obtain ⟨span, name, params, body, storage⟩ := decl
    cases body with
    | none =>
      intro rest
      simp only [itemsWeight]
      omega
    | some body =>
      refine (Block.label_weight fair none (fun _ found => nomatch found) names body).bind fun made after less rest => ?_
      simp only [itemsWeight, FuncDecl.weight]
      omega

theorem Program.label_weight {w : Weights} (fair : w.Fair) (program : Program) (names : NameSupply) :
    Pass.Meets program.label names (fun found _ => itemsWeight w found.items ≤ itemsWeight w program.items)
      fun _ => True := by
  have all : Pass.Meets (program.items.mapM Item.label) names
      (fun found _ => itemsWeight w found ≤ itemsWeight w program.items) fun _ => True := by
    induction program.items generalizing names with
    | nil => exact le_rfl
    | cons item rest ih =>
      rw [List.mapM_cons]
      refine (Item.label_weight fair item names).bind fun made middle first => ?_
      refine (ih middle).bind fun others last less => ?_
      have head := first others
      cases item <;> simp only [Pass.meets_pure, itemsWeight] at head ⊢ <;> omega
  exact all.bind fun _ _ found => found

end IntC
