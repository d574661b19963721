import IntC.Proofs.Loop
import IntC.Proofs.LoopNames

namespace IntC

/-- A `break` or a `continue`, as it stands in a function. -/
structure Jump where
  leaves : Bool
  span : Span
  label : String
  /-- The ids of the loops in whose bodies it stands, the innermost one first. -/
  around : List String
deriving DecidableEq

namespace Jump

def isStray (jump : Jump) : Bool := jump.around.isEmpty

/-- What is said about a jump outside of all loops. -/
def error (jump : Jump) : Error := ⟨if jump.leaves then .breakOutsideLoop else .continueOutsideLoop, jump.span⟩

/-- Whether a jump carries the id of the innermost loop around it. -/
def IsBound (jump : Jump) : Prop := jump.around.head? = some jump.label

end Jump

mutual

/-- The jumps of a statement in the order in which they are written, where the statement stands in the bodies of the
given loops. The header of a loop holds none, and a function that a block declares has no body to hold one. -/
def Stmt.jumps (around : List String) : Stmt → List Jump
  | .breakLoop span label => [⟨true, span, label, around⟩]
  | .continueLoop span label => [⟨false, span, label, around⟩]
  | .branch _ _ yes none => yes.jumps around
  | .branch _ _ yes (some no) => yes.jumps around ++ no.jumps around
  | .block body => body.jumps around
  | .whileLoop _ _ body id => body.jumps (id :: around)
  | .doLoop _ body _ id => body.jumps (id :: around)
  | .forLoop _ _ _ _ body id => body.jumps (id :: around)
  | .ret .. => []
  | .expr .. => []
  | .empty _ => []
  | .misplaced _ => []

def Block.jumps (around : List String) : Block → List Jump
  | ⟨_, items⟩ => itemsJumps around items

def itemsJumps (around : List String) : List Item → List Jump
  | [] => []
  | .stmt stmt :: rest => stmt.jumps around ++ itemsJumps around rest
  | .func _ :: rest => itemsJumps around rest
  | .var _ :: rest => itemsJumps around rest

end

def unitJumps (items : List Item) : List Jump := (definitions items).flatMap fun made => made.2.jumps []

mutual

/-- In a labelled statement every jump is bound, whatever loops are around it. -/
theorem Stmt.jumps_bound {loop : Option String} {around : List String} (inside : loop = around.head?) :
    ∀ stmt : Stmt, stmt.Labelled loop → ∀ jump ∈ stmt.jumps around, jump.IsBound
  | .breakLoop .., labelled | .continueLoop .., labelled => List.forall_mem_singleton.mpr (inside.symm.trans labelled)
  | .branch _ _ yes none, labelled => Stmt.jumps_bound inside yes labelled
  | .branch _ _ yes (some no), labelled =>
    List.forall_mem_append.mpr ⟨Stmt.jumps_bound inside yes labelled.1, Stmt.jumps_bound inside no labelled.2⟩
  | .block body, labelled => Block.jumps_bound inside body labelled
  | .whileLoop _ _ body _, labelled | .doLoop _ body _ _, labelled | .forLoop _ _ _ _ body _, labelled =>
    Stmt.jumps_bound rfl body labelled
  | .ret .., _ | .expr .., _ | .empty _, _ | .misplaced _, _ => List.forall_mem_nil _

theorem Block.jumps_bound {loop : Option String} {around : List String} (inside : loop = around.head?) :
    ∀ block : Block, block.Labelled loop → ∀ jump ∈ block.jumps around, jump.IsBound
  | ⟨_, items⟩, labelled => itemsJumps_bound inside items labelled

theorem itemsJumps_bound {loop : Option String} {around : List String} (inside : loop = around.head?) :
    ∀ items : List Item, itemsLabelled loop items → ∀ jump ∈ itemsJumps around items, jump.IsBound
  | [], _ => List.forall_mem_nil _
  | .stmt stmt :: rest, labelled =>
    List.forall_mem_append.mpr ⟨Stmt.jumps_bound inside stmt labelled.1, itemsJumps_bound inside rest labelled.2⟩
  | .func _ :: rest, labelled | .var _ :: rest, labelled => itemsJumps_bound inside rest labelled

end

/-- A step succeeds if none of the jumps is stray, and else it fails at the first one that is. -/
def Catches {α : Type} (pass : Pass NameSupply α) (names : NameSupply) (jumps : List Jump) : Prop :=
  Pass.Meets pass names (fun _ _ => jumps.find? Jump.isStray = none)
    fun error => ∃ jump, jumps.find? Jump.isStray = some jump ∧ error = jump.error

section Catches
variable {α β : Type} {names : NameSupply} {jumps more : List Jump}

theorem catches_pure (a : α) : Catches (pure a) names [] := rfl

theorem Catches.bind {pass : Pass NameSupply β} {f : β → Pass NameSupply α} (first : Catches pass names jumps)
    (later : ∀ b after, Catches (f b) after more) : Catches (pass >>= f) names (jumps ++ more) := by
  unfold Catches
  rw [Pass.meets_bind, List.find?_append]
  refine first.imp (fun b after none => ?_) ?_
  · rw [none]
    exact later b after
  · rintro error ⟨jump, stray, rfl⟩
    exact ⟨jump, by rw [stray]; rfl, rfl⟩

theorem Catches.map {pass : Pass NameSupply β} (f : β → α) (first : Catches pass names jumps) :
    Catches (pass >>= fun b => pure (f b)) names jumps := by
  rw [← List.append_nil jumps]
  exact first.bind fun b _ => catches_pure (f b)

theorem catches_loopId {stem : String} {f : String → Pass NameSupply α}
    (later : ∀ id after, Catches (f id) after jumps) : Catches (loopId stem >>= f) names jumps := later _ _

/-- There is a result and no jump is stray, or there is an error about the first stray jump. -/
theorem Catches.cases {pass : Pass NameSupply α} (catches : Catches pass names jumps) :
    (∃ a after, pass names = (.ok a, after) ∧ jumps.find? Jump.isStray = none) ∨
      ∃ jump after, pass names = (.error jump.error, after) ∧ jumps.find? Jump.isStray = some jump := by
  unfold Catches Pass.Meets at catches
  rcases outcome : pass names with ⟨error | a, after⟩ <;> rw [outcome] at catches
  · obtain ⟨jump, stray, rfl⟩ := catches
    exact .inr ⟨jump, after, rfl, stray⟩
  · exact .inl ⟨a, after, rfl, catches⟩

theorem catches_jump {jump : Jump} {pass : Pass NameSupply α}
    (refused : jump.around = [] → pass = Pass.fail jump.error.cause jump.error.span)
    (passed : jump.around ≠ [] → ∃ a, pass = pure a) : Catches pass names [jump] := by
  by_cases outside : jump.around = []
  · rw [refused outside]
    exact ⟨jump, by simp [Jump.isStray, outside], rfl⟩
  · obtain ⟨a, same⟩ := passed outside
    rw [same]
    exact List.find?_eq_none.mpr (by simp [Jump.isStray, outside])

end Catches

mutual

theorem Stmt.label_catches {loop : Option String} {around : List String} (inside : loop = none ↔ around = [])
    (names : NameSupply) : ∀ stmt : Stmt, Catches (stmt.label loop) names (stmt.jumps around)
  | .breakLoop span _ => by
    refine catches_jump (fun outside => ?_) fun within => ?_
    · rw [inside.mpr outside]
      rfl
    · obtain ⟨id, rfl⟩ := Option.ne_none_iff_exists'.mp (mt inside.mp within)
      exact ⟨.breakLoop span id, rfl⟩
  | .continueLoop span _ => by
    refine catches_jump (fun outside => ?_) fun within => ?_
    · rw [inside.mpr outside]
      rfl
    · obtain ⟨id, rfl⟩ := Option.ne_none_iff_exists'.mp (mt inside.mp within)
      exact ⟨.continueLoop span id, rfl⟩
  | .branch _ cond yes none => (Stmt.label_catches inside names yes).map _
  | .branch _ cond yes (some no) =>
    (Stmt.label_catches inside names yes).bind fun _ after => (Stmt.label_catches inside after no).map _
  | .block body => (Block.label_catches inside names body).map _
  | .whileLoop _ _ body _ | .doLoop _ body _ _ | .forLoop _ _ _ _ body _ =>
    catches_loopId fun id after => (Stmt.label_catches (by simp) after body).map _
  | .ret .. | .expr .. | .empty _ | .misplaced _ => catches_pure _

theorem Block.label_catches {loop : Option String} {around : List String} (inside : loop = none ↔ around = [])
    (names : NameSupply) : ∀ block : Block, Catches (block.label loop) names (block.jumps around)
  | ⟨_, items⟩ => (labelItems_catches inside names items).map _

theorem labelItems_catches {loop : Option String} {around : List String} (inside : loop = none ↔ around = [])
    (names : NameSupply) : ∀ items : List Item, Catches (labelItems loop items) names (itemsJumps around items)
  | [] => catches_pure _
  | .stmt stmt :: rest =>
    (Stmt.label_catches inside names stmt).bind fun _ after => (labelItems_catches inside after rest).map _
  | .var _ :: rest | .func _ :: rest => (labelItems_catches inside names rest).map _

end

theorem labelUnit_catches (names : NameSupply) (items : List Item) :
    Catches (items.mapM Item.label) names (unitJumps items) := by
  induction items generalizing names with
  | nil => exact catches_pure _
  | cons item rest ih =>
    rw [List.mapM_cons]
    cases item with
    | var decl | stmt other => exact (ih names).map _
    | func decl =>
      obtain ⟨span, name, params, body, storage⟩ := decl
      cases body with
      | none => exact (ih names).map _
      | some body =>
        have first : Catches (Item.label (.func ⟨span, name, params, some body, storage⟩)) names (body.jumps []) :=
          (Block.label_catches ⟨fun _ => rfl, fun _ => rfl⟩ names body).map _
        exact first.bind fun _ after => (ih after).map _

/-- Labelling fails at the first jump that no loop is around, if there is one. -/
theorem Program.label_catches (names : NameSupply) (program : Program) :
    Catches program.label names (unitJumps program.items) :=
  (labelUnit_catches names program.items).map _

theorem unitJumps_bound {items : List Item} {bound : Nat} (labelled : ∀ decl, .func decl ∈ items → decl.Labelled bound) :
    ∀ jump ∈ unitJumps items, jump.IsBound := by
  intro jump member
  obtain ⟨⟨decl, body⟩, made, inside⟩ := List.mem_flatMap.mp member
  obtain ⟨listed, defined⟩ := mem_definitions.mp made
  have outside : none = ([] : List String).head? := rfl
  exact Block.jumps_bound outside body (labelled decl listed body defined).1 jump inside

/-- Labelling succeeds if and only if every `break` and `continue` stands in the body of some loop of its function, and it
fails with an error about the first one that does not. If it succeeds, nothing changes but the ids of loops: each loop has
an id of its own that was not given out before, and each jump has that of the innermost loop whose body it stands in. -/
theorem label_binds_jumps (names : NameSupply) (program : Program) :
    ((∃ found after, program.label names = (.ok found, after)) ↔
      ∀ jump ∈ unitJumps program.items, jump.isStray = false) ∧
    (∀ jump, (unitJumps program.items).find? Jump.isStray = some jump →
      ∃ after, program.label names = (.error jump.error, after)) ∧
    ∀ found after, program.label names = (.ok found, after) →
      found.rename id (fun _ => "") = program.rename id (fun _ => "") ∧
      Fresh names.next after.next (unitLoops found.items) ∧
      ∀ jump ∈ unitJumps found.items, jump.IsBound := by
  refine ⟨?_, fun jump stray => ?_, fun found after done => ⟨?_, ?_, ?_⟩⟩
  · have none_iff : (unitJumps program.items).find? Jump.isStray = none ↔
        ∀ jump ∈ unitJumps program.items, jump.isStray = false := by simp
    rw [← none_iff]
    rcases (Program.label_catches names program).cases with ⟨found, after, done, none⟩ | ⟨jump, after, failed, stray⟩
    · exact ⟨fun _ => none, fun _ => ⟨found, after, done⟩⟩
    · constructor
      · rintro ⟨found, last, done⟩
        cases failed.symm.trans done
      · intro none
        cases stray.symm.trans none
  · rcases (Program.label_catches names program).cases with ⟨found, after, -, none⟩ | ⟨first, after, failed, found⟩
    · cases stray.symm.trans none
    · cases stray.symm.trans found
      exact ⟨after, failed⟩
  · have same := ((Program.label_draws names program).of_ok done).2.2
    obtain ⟨items, middle, -, made⟩ := Pass.bind_eq_ok.mp done
    cases made
    exact congrArg (Program.mk program.span) same
  · exact (Program.label_fresh names program).of_ok done
  · exact unitJumps_bound (((Program.label_meets names program).of_ok done).2.2 _ (Nat.le_refl _))

/-- A loop in the other branch of another loop, with a jump behind it. -/
def branchingLoops (last : Stmt) : Program where
  items := [.func ⟨{}, "f", [], some ⟨{}, [
    .stmt (.whileLoop {} (.number {} 1) (.block ⟨{}, [
      .stmt (.branch {} (.number {} 2) (.breakLoop {} "") (some (.doLoop {} (.continueLoop {} "") (.number {} 3) ""))),
      .stmt (.continueLoop {} "")]⟩) ""),
    .stmt last]⟩, .automatic⟩]

/-- The outer loop is the innermost one again behind the inner one, and behind both of them there is none. -/
theorem label_binds_jumps_branching :
    (∃ found after, (branchingLoops (.empty {})).label {} = (.ok found, after) ∧
      unitJumps found.items = [
        ⟨true, {}, "while.0", ["while.0"]⟩, ⟨false, {}, "dowhile.1", ["dowhile.1", "while.0"]⟩,
        ⟨false, {}, "while.0", ["while.0"]⟩] ∧ ∀ jump ∈ unitJumps found.items, jump.IsBound) ∧
    ∃ after, (branchingLoops (.breakLoop { line := 7 } "")).label {} =
      (.error ⟨.breakOutsideLoop, { line := 7 }⟩, after) := by
  obtain ⟨-, -, bound⟩ := label_binds_jumps {} (branchingLoops (.empty {}))
  obtain ⟨-, stray, -⟩ := label_binds_jumps {} (branchingLoops (.breakLoop { line := 7 } ""))
  exact ⟨⟨_, _, rfl, by decide +kernel, (bound _ _ rfl).2.2⟩, stray ⟨true, { line := 7 }, "", []⟩ (by decide +kernel)⟩

end IntC
