import IntC.Proofs.Loop
import IntC.Proofs.NameShift

namespace IntC

theorem loopId_shifts (stem : String) (more : Nat) (names : NameSupply) :
    Pass.Follows (loopId stem) (loopId stem) names (NameSupply.advance · more) (shift more) := by
  have ahead := fresh_advance names more stem
  exact ⟨congrArg Prod.fst ahead, congrArg Prod.snd ahead⟩

theorem FuncDecl.rename_prototype {names loops others : String → String} {decl : FuncDecl} (prototype : decl.body = none) :
    decl.rename names loops = decl.rename names others := by
  obtain ⟨_, _, _, _, _⟩ := decl
  cases prototype
  rfl

mutual

/-- Loops get the same ids from a supply that is ahead, with larger numbers. -/
theorem Stmt.label_shifts {more bound : Nat} {known : List String} {loop : Option String} {names : NameSupply} :
    ∀ stmt : Stmt, stmt.Bound bound known → Pass.Follows (stmt.label loop)
      ((stmt.rename (shift more) id).label (loop.map (shift more))) names (NameSupply.advance · more)
      (Stmt.rename (shift more) (shift more))
  | .breakLoop span _, _ | .continueLoop span _, _ => by
    cases loop with
    | none => exact Pass.follows_fail rfl
    | some id => exact Pass.follows_pure rfl
  | .branch _ cond yes none, fits => by
    rw [Stmt.rename, Stmt.label, Stmt.label]
    exact (Stmt.label_shifts yes fits.2).map fun _ => rfl
  | .branch _ cond yes (some no), fits => by
    rw [Stmt.rename, Stmt.label, Stmt.label]
    refine (Stmt.label_shifts yes fits.2.1).bind fun _ _ _ => ?_
    exact (Stmt.label_shifts no fits.2.2).map fun _ => rfl
  | .block body, fits => by
    rw [Stmt.rename, Stmt.label, Stmt.label]
    exact (Block.label_shifts body fits).map fun _ => rfl
  | .whileLoop _ cond body _, fits => by
    rw [Stmt.rename, Stmt.label, Stmt.label]
    refine (loopId_shifts "while" more names).bind fun id _ _ => ?_
    exact (Stmt.label_shifts body fits.2).map fun _ => rfl
  | .doLoop _ body cond _, fits => by
    rw [Stmt.rename, Stmt.label, Stmt.label]
    refine (loopId_shifts "dowhile" more names).bind fun id _ _ => ?_
    exact (Stmt.label_shifts body fits.1).map fun _ => rfl
  | .forLoop _ init cond post body _, fits => by
    rw [Stmt.rename, Stmt.label, Stmt.label]
    refine (loopId_shifts "for" more names).bind fun id _ _ => ?_
    exact (Stmt.label_shifts body fits.2.2.2).map fun _ => rfl
  | .ret .., _ | .expr .., _ | .empty _, _ => Pass.follows_pure rfl
  | .misplaced _, fits => fits.elim

theorem Block.label_shifts {more bound : Nat} {known : List String} {loop : Option String} {names : NameSupply} :
    ∀ block : Block, block.Bound bound known → Pass.Follows (block.label loop)
      ((block.rename (shift more) id).label (loop.map (shift more))) names (NameSupply.advance · more)
      (Block.rename (shift more) (shift more))
  | ⟨_, items⟩, fits => by
    rw [Block.rename, Block.label, Block.label]
    exact (labelItems_shifts items fits).map fun _ => rfl

theorem labelItems_shifts {more bound : Nat} {known : List String} {loop : Option String} {names : NameSupply} :
    ∀ items : List Item, itemsBound bound known items → Pass.Follows (labelItems loop items)
      (labelItems (loop.map (shift more)) (renameItems (shift more) id items)) names (NameSupply.advance · more)
      (renameItems (shift more) (shift more))
  | [], _ => Pass.follows_pure rfl
  | .stmt stmt :: rest, fits => by
    rw [renameItems, labelItems, labelItems]
    refine (Stmt.label_shifts stmt fits.1).bind fun _ _ _ => ?_
    exact (labelItems_shifts rest fits.2).map fun _ => rfl
  | .var decl :: rest, fits => by
    rw [renameItems, labelItems, labelItems]
    exact (labelItems_shifts rest fits.2).map fun _ => rfl
  | .func decl :: rest, fits => by
    obtain ⟨⟨-, prototype⟩, later⟩ := fits
    rw [renameItems, labelItems, labelItems]
    refine (labelItems_shifts rest later).map fun _ => ?_
    rw [renameItems, FuncDecl.rename_prototype prototype]

end

theorem labelUnit_shifts {more bound : Nat} {known : List String} {names : NameSupply} {items : List Item}
    (fits : unitBound bound known items) : Pass.Follows (items.mapM Item.label)
      ((renameItems (shift more) id items).mapM Item.label) names (NameSupply.advance · more)
      (renameItems (shift more) (shift more)) := by
  induction items generalizing known names with
  | nil => exact Pass.follows_pure rfl
  | cons item rest ih =>
    cases item with
    | stmt other => exact fits.elim
    | var decl =>
      rw [renameItems, List.mapM_cons, List.mapM_cons]
      exact (ih fits.2).map fun _ => rfl
    | func decl =>
      obtain ⟨span, name, params, body, storage⟩ := decl
      rw [renameItems, List.mapM_cons, List.mapM_cons]
      cases body with
      | none => exact (ih fits.2).map fun _ => rfl
      | some body =>
        simp only [FuncDecl.rename, Item.label, bind_assoc, pure_bind]
        refine (Block.label_shifts body (fits.1.2.2 body rfl)).bind fun _ _ _ => ?_
        exact (ih fits.2).map fun _ => rfl

theorem Program.label_shifts {more bound : Nat} {program : Program} (fits : unitBound bound [] program.items)
    (names : NameSupply) : Pass.Follows program.label (program.rename (shift more) id).label names
      (NameSupply.advance · more) (Program.rename (shift more) (shift more)) :=
  (labelUnit_shifts fits).map fun _ => rfl

end IntC
