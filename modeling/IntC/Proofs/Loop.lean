import IntC.Loop
import IntC.Proofs.Pass
import IntC.Proofs.Tree.Shape

namespace IntC

mutual

theorem Stmt.label_meets (loop : Option String) (names : NameSupply) :
    ∀ stmt : Stmt, Pass.Meets (stmt.label loop) names (fun found after => found.Labelled loop ∧
      Fresh names.next after.next found.loops ∧ ∀ bound known, stmt.Bound bound known → found.Bound bound known)
      Error.IsUser
  | .breakLoop span _ | .continueLoop span _ => by
    unfold Stmt.label
    cases loop with
    | none => rfl
    | some id => exact ⟨rfl, .nil Nat.le.refl, fun _ _ bound => bound⟩
  | .branch _ cond yes none => by
    unfold Stmt.label
    simp only [Pass.meets_bind, Pass.meets_pure]
    refine (Stmt.label_meets loop names yes).mono ?_
    rintro _ _ ⟨labelled, fresh, kept⟩
    exact ⟨labelled, fresh, fun bound known old => ⟨old.1, kept bound known old.2⟩⟩
  | .branch _ cond yes (some no) => by
    unfold Stmt.label
    simp only [Pass.meets_bind, Pass.meets_pure]
    refine (Stmt.label_meets loop names yes).mono ?_
    rintro _ middle ⟨labelled, fresh, kept⟩
    refine (Stmt.label_meets loop middle no).mono ?_
    rintro _ _ ⟨labelledToo, more, keptToo⟩
    exact ⟨⟨labelled, labelledToo⟩, fresh.append more, fun bound known old =>
      ⟨old.1, kept bound known old.2.1, keptToo bound known old.2.2⟩⟩
  | .block body => by
    unfold Stmt.label
    simp only [Pass.meets_bind, Pass.meets_pure]
    exact Block.label_meets loop names body
  | .whileLoop _ cond body _ => by
    unfold Stmt.label
    simp only [Pass.meets_bind, Pass.meets_pure, loopId, Pass.meets_modifyGet]
    refine (Stmt.label_meets _ _ body).mono ?_
    rintro _ _ ⟨labelled, fresh, kept⟩
    exact ⟨labelled, fresh.cons "while", fun bound known old => ⟨old.1, kept bound known old.2⟩⟩
  | .doLoop _ body cond _ => by
    unfold Stmt.label
    simp only [Pass.meets_bind, Pass.meets_pure, loopId, Pass.meets_modifyGet]
    refine (Stmt.label_meets _ _ body).mono ?_
    rintro _ _ ⟨labelled, fresh, kept⟩
    exact ⟨labelled, fresh.cons "dowhile", fun bound known old => ⟨kept bound known old.1, old.2⟩⟩
  | .forLoop _ init cond post body _ => by
    unfold Stmt.label
    simp only [Pass.meets_bind, Pass.meets_pure, loopId, Pass.meets_modifyGet]
    refine (Stmt.label_meets _ _ body).mono ?_
    rintro _ _ ⟨labelled, fresh, kept⟩
    exact ⟨labelled, fresh.cons "for", fun bound known old =>
      ⟨old.1, old.2.1, old.2.2.1, kept bound _ old.2.2.2⟩⟩
  | .ret .. | .expr .. | .empty _ | .misplaced _ => ⟨trivial, .nil Nat.le.refl, fun _ _ bound => bound⟩

theorem Block.label_meets (loop : Option String) (names : NameSupply) :
    ∀ block : Block, Pass.Meets (block.label loop) names (fun found after => found.Labelled loop ∧
      Fresh names.next after.next found.loops ∧ ∀ bound known, block.Bound bound known → found.Bound bound known)
      Error.IsUser
  | ⟨_, items⟩ => by
    unfold Block.label
    simp only [Pass.meets_bind, Pass.meets_pure]
    exact labelItems_meets loop names items

theorem labelItems_meets (loop : Option String) (names : NameSupply) :
    ∀ items : List Item, Pass.Meets (labelItems loop items) names (fun found after => itemsLabelled loop found ∧
      Fresh names.next after.next (itemsLoops found) ∧
      ∀ bound known, itemsBound bound known items → itemsBound bound known found) Error.IsUser
  | [] => ⟨trivial, .nil Nat.le.refl, fun _ _ bound => bound⟩
  | .stmt stmt :: rest => by
    unfold labelItems
    simp only [Pass.meets_bind, Pass.meets_pure]
    refine (Stmt.label_meets loop names stmt).mono ?_
    rintro _ middle ⟨labelled, fresh, kept⟩
    refine (labelItems_meets loop middle rest).mono ?_
    rintro _ _ ⟨labelledToo, more, keptToo⟩
    exact ⟨⟨labelled, labelledToo⟩, fresh.append more, fun bound known old =>
      ⟨kept bound known old.1, keptToo bound known old.2⟩⟩
  | .var decl :: rest | .func decl :: rest => by
    unfold labelItems
    simp only [Pass.meets_bind, Pass.meets_pure]
    refine (labelItems_meets loop names rest).mono ?_
    rintro _ _ ⟨labelled, fresh, kept⟩
    exact ⟨labelled, fresh, fun bound known old => ⟨old.1, kept bound _ old.2⟩⟩

end

/-- A function whose loops are told apart by their ids. -/
def FuncDecl.Labelled (bound : Nat) (decl : FuncDecl) : Prop :=
  ∀ body ∈ decl.body, body.Labelled none ∧ body.loops.Nodup ∧ ∀ id ∈ body.loops, Minted 0 bound id

/-- A function keeps its name and its parameters. -/
theorem FuncDecl.label_meets (names : NameSupply) (decl : FuncDecl) :
    Pass.Meets (Item.label (.func decl)) names (fun found after => names.next ≤ after.next ∧
      ∃ made, found = .func made ∧ made.name = decl.name ∧
        (∀ bound known, decl.Bound bound known → made.Bound bound known) ∧
        ∀ bound, after.next ≤ bound → made.Labelled bound) Error.IsUser := by
  obtain ⟨span, name, params, body, storage⟩ := decl
  cases body with
  | none =>
    exact ⟨Nat.le.refl, _, rfl, rfl, fun _ _ old => old, fun _ _ _ found => nomatch found⟩
  | some body =>
    refine (Block.label_meets none names body).bind ?_
    rintro found after ⟨labelled, fresh, kept⟩
    refine ⟨fresh.le, ⟨span, name, params, some found, storage⟩, rfl, rfl, fun bound known old => ?_, fun bound upper => ?_⟩
    · refine ⟨old.1, old.2.1, ?_⟩
      rintro _ ⟨⟩
      exact kept bound _ (old.2.2 body rfl)
    · rintro _ ⟨⟩
      exact ⟨labelled, fresh.distinct, fun id member => (fresh.minted id member).mono (Nat.zero_le _) upper⟩

theorem labelUnit_meets (names : NameSupply) (items : List Item) :
    Pass.Meets (items.mapM Item.label) names (fun found after => names.next ≤ after.next ∧
      (∀ bound known, unitBound bound known items → unitBound bound known found) ∧
      ∀ bound, after.next ≤ bound → ∀ decl, .func decl ∈ found → decl.Labelled bound) Error.IsUser := by
  induction items generalizing names with
  | nil => exact ⟨Nat.le.refl, fun _ _ bound => bound, fun _ _ _ member => nomatch member⟩
  | cons item rest ih =>
    rw [List.mapM_cons]
    cases item with
    | func decl =>
      refine (FuncDecl.label_meets names decl).bind ?_
      rintro _ middle ⟨first, made, same, name, kept, labelled⟩
      refine (ih middle).bind ?_
      rintro more last ⟨second, keptToo, labelledToo⟩
      subst same
      refine ⟨Nat.le_trans first second, fun bound known old => ⟨kept bound known old.1, ?_⟩, ?_⟩
      · rw [name]
        exact keptToo bound _ old.2
      · intro bound upper other member
        rcases List.mem_cons.mp member with same | later
        · cases same
          exact labelled bound (Nat.le_trans second upper)
        · exact labelledToo bound upper other later
    | var decl =>
      refine (ih names).bind ?_
      rintro more last ⟨second, kept, labelled⟩
      refine ⟨second, fun bound known old => ⟨old.1, kept bound _ old.2⟩, fun bound upper other member => ?_⟩
      rcases List.mem_cons.mp member with same | later
      · cases same
      · exact labelled bound upper other later
    | stmt stmt =>
      refine (ih names).bind ?_
      rintro more last ⟨second, kept, labelled⟩
      refine ⟨second, fun bound known old => old.elim, fun bound upper other member => ?_⟩
      rcases List.mem_cons.mp member with same | later
      · cases same
      · exact labelled bound upper other later

theorem Program.label_meets (names : NameSupply) (program : Program) :
    Pass.Meets program.label names (fun found after => names.next ≤ after.next ∧
      (∀ bound known, unitBound bound known program.items → unitBound bound known found.items) ∧
      ∀ bound, after.next ≤ bound → ∀ decl, .func decl ∈ found.items → decl.Labelled bound) Error.IsUser :=
  (labelUnit_meets names program.items).bind fun _ _ found => found

/-- No two loops of a unit have the same id, in whatever functions they stand. -/
theorem Program.label_fresh (names : NameSupply) (program : Program) :
    Pass.Meets program.label names (fun found after => Fresh names.next after.next (unitLoops found.items))
      Error.IsUser := by
  have all : Pass.Meets (program.items.mapM Item.label) names
      (fun found after => Fresh names.next after.next (unitLoops found)) Error.IsUser := by
    induction program.items generalizing names with
    | nil => exact .nil Nat.le.refl
    | cons item rest ih =>
      rw [List.mapM_cons]
      cases item with
      | var decl | stmt decl => exact (ih names).bind fun _ _ fresh => fresh
      | func decl =>
        obtain ⟨span, name, params, body, storage⟩ := decl
        cases body with
        | none => exact (ih names).bind fun _ _ fresh => fresh
        | some body =>
          have labelled : Pass.Meets (Item.label (.func ⟨span, name, params, some body, storage⟩)) names
              (fun found after => ∃ made, found = .func ⟨span, name, params, some made, storage⟩ ∧
                Fresh names.next after.next made.loops) Error.IsUser :=
            (Block.label_meets none names body).bind fun made _ good => ⟨made, rfl, good.2.1⟩
          refine labelled.bind ?_
          rintro _ middle ⟨made, rfl, fresh⟩
          exact (ih middle).bind fun _ _ later => fresh.append later
  exact all.bind fun _ _ fresh => fresh

end IntC
