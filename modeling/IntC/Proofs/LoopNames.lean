import IntC.Loop
import IntC.Proofs.NameDraw
import IntC.Proofs.Tree.Rename

namespace IntC

abbrev Stmt.unlabelled (stmt : Stmt) : Stmt := stmt.rename id fun _ => ""

abbrev Block.unlabelled (block : Block) : Block := block.rename id fun _ => ""

abbrev unlabelledItems (items : List Item) : List Item := renameItems id (fun _ => "") items

theorem loopId_draws {α : Type} {stem : String} {f : String → Pass NameSupply α} {names : NameSupply}
    {stems : List String} {done : α → List String → NameSupply → Prop}
    (later : ∀ loop after, Pass.Draws id (f loop) after stems fun a others => done a (loop :: others)) :
    Pass.Draws id (loopId stem >>= f) names (stem :: stems) done :=
  draws_fresh fun name => later name _

mutual

theorem Stmt.label_draws (loop : Option String) (names : NameSupply) :
    ∀ stmt : Stmt, Pass.Draws id (stmt.label loop) names stmt.loopStems
      (fun found given _ => found.loops = given ∧ found.unlabelled = stmt.unlabelled)
  | .breakLoop span _ | .continueLoop span _ => by
    unfold Stmt.label
    cases loop with
    | none => exact Pass.draws_fail _ _
    | some loop => exact Pass.draws_pure ⟨rfl, rfl⟩
  | .branch _ cond yes none => by
    unfold Stmt.label
    refine ((Stmt.label_draws loop names yes).mono ?_).map
    rintro made _ _ ⟨rfl, same⟩
    refine ⟨rfl, ?_⟩
    simp only [Stmt.unlabelled, Stmt.rename] at same ⊢
    rw [same]
  | .branch _ cond yes (some no) => by
    unfold Stmt.label
    refine (Stmt.label_draws loop names yes).bind ?_
    rintro made _ after ⟨rfl, first⟩
    refine ((Stmt.label_draws loop after no).mono ?_).map
    rintro other _ _ ⟨rfl, second⟩
    refine ⟨rfl, ?_⟩
    simp only [Stmt.unlabelled, Stmt.rename] at first second ⊢
    rw [first, second]
  | .block body => by
    unfold Stmt.label
    refine ((Block.label_draws loop names body).mono ?_).map
    rintro made _ _ ⟨rfl, same⟩
    exact ⟨rfl, congrArg Stmt.block same⟩
  | .whileLoop _ _ body _ | .doLoop _ body _ _ | .forLoop _ _ _ _ body _ => by
    unfold Stmt.label
    refine loopId_draws fun name after => ((Stmt.label_draws (some name) after body).mono ?_).map
    rintro made _ _ ⟨rfl, same⟩
    refine ⟨rfl, ?_⟩
    simp only [Stmt.unlabelled, Stmt.rename] at same ⊢
    rw [same]
  | .ret .. | .expr .. | .empty _ | .misplaced _ => Pass.draws_pure ⟨rfl, rfl⟩

theorem Block.label_draws (loop : Option String) (names : NameSupply) :
    ∀ block : Block, Pass.Draws id (block.label loop) names block.loopStems
      (fun found given _ => found.loops = given ∧ found.unlabelled = block.unlabelled)
  | ⟨span, items⟩ => by
    unfold Block.label
    refine ((labelItems_draws loop names items).mono ?_).map
    rintro made _ _ ⟨rfl, same⟩
    exact ⟨rfl, congrArg (Block.mk span) same⟩

theorem labelItems_draws (loop : Option String) (names : NameSupply) :
    ∀ items : List Item, Pass.Draws id (labelItems loop items) names (itemsLoopStems items)
      (fun found given _ => itemsLoops found = given ∧ unlabelledItems found = unlabelledItems items)
  | [] => Pass.draws_pure ⟨rfl, rfl⟩
  | .stmt stmt :: rest => by
    unfold labelItems
    refine (Stmt.label_draws loop names stmt).bind ?_
    rintro made _ after ⟨rfl, first⟩
    refine ((labelItems_draws loop after rest).mono ?_).map
    rintro others _ _ ⟨rfl, second⟩
    exact ⟨rfl, congrArg₂ (fun stmt rest => Item.stmt stmt :: rest) first second⟩
  | .var decl :: rest | .func decl :: rest => by
    unfold labelItems
    refine ((labelItems_draws loop names rest).mono ?_).map
    rintro others _ _ ⟨rfl, same⟩
    exact ⟨rfl, congrArg (List.cons _) same⟩

end

theorem labelUnit_draws (names : NameSupply) (items : List Item) :
    Pass.Draws id (items.mapM Item.label) names (unitLoopStems items)
      (fun found given _ => unitLoops found = given ∧ unlabelledItems found = unlabelledItems items) := by
  induction items generalizing names with
  | nil => exact Pass.draws_pure ⟨rfl, rfl⟩
  | cons item rest ih =>
    rw [List.mapM_cons]
    cases item with
    | var decl | stmt other =>
      refine ((ih names).mono ?_).map
      rintro others _ _ ⟨rfl, same⟩
      exact ⟨rfl, congrArg (List.cons _) same⟩
    | func decl =>
      obtain ⟨span, name, params, body, storage⟩ := decl
      cases body with
      | none =>
        refine ((ih names).mono ?_).map
        rintro others _ _ ⟨rfl, same⟩
        exact ⟨rfl, congrArg (List.cons _) same⟩
      | some body =>
        have labelled : Pass.Draws id (Item.label (.func ⟨span, name, params, some body, storage⟩)) names body.loopStems
            (fun found given _ => ∃ made, found = .func ⟨span, name, params, some made, storage⟩ ∧ made.loops = given ∧
              made.unlabelled = body.unlabelled) :=
          ((Block.label_draws none names body).mono fun made _ _ good => ⟨made, rfl, good⟩).map
        refine labelled.bind ?_
        rintro _ _ after ⟨made, rfl, rfl, first⟩
        refine ((ih after).mono ?_).map
        rintro others _ _ ⟨rfl, second⟩
        exact ⟨rfl, congrArg₂ (fun body rest => Item.func ⟨span, name, params.map (Param.rename id), some body, storage⟩ ::
          rest) first second⟩

/-- Labelling takes one name for every loop, in their order, and changes nothing but the ids. -/
theorem Program.label_draws (names : NameSupply) (program : Program) :
    Pass.Draws id program.label names (unitLoopStems program.items) (fun found given _ =>
      unitLoops found.items = given ∧ unlabelledItems found.items = unlabelledItems program.items) :=
  (labelUnit_draws names program.items).map

/-- Trees that differ in the ids of loops only declare the same names and become code with the same stems. -/
theorem stems_of_unlabelled {items others : List Item} (same : unlabelledItems items = unlabelledItems others) :
    unitDeclared items = unitDeclared others ∧ unitCodeStems items = unitCodeStems others := by
  have declared := congrArg unitDeclared same
  have code := congrArg unitCodeStems same
  rw [unitDeclared_rename, unitDeclared_rename, List.map_id, List.map_id] at declared
  rw [unitCodeStems_rename, unitCodeStems_rename] at code
  exact ⟨declared, code⟩

end IntC
