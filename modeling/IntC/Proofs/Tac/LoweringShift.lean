import IntC.Proofs.Symbol.CheckShift
import IntC.Proofs.Tac.Lowering

namespace IntC

variable {bound more : Nat} {id : String} {names : NameSupply}

namespace Tac

def Value.rename (names : String → String) : Value → Value
  | .const value => .const value
  | .var name => .var (names name)
  | .absent => .absent

/-- Variables, functions and labels are renamed alike. -/
def Instr.rename (names : String → String) : Instr → Instr
  | .ret value => .ret (value.rename names)
  | .copy source dest => .copy (source.rename names) (dest.rename names)
  | .jump target => .jump (names target)
  | .jumpIfZero cond target => .jumpIfZero (cond.rename names) (names target)
  | .jumpIfNotZero cond target => .jumpIfNotZero (cond.rename names) (names target)
  | .label name => .label (names name)
  | .call callee args dest => .call (names callee) (args.map (Value.rename names)) (dest.rename names)
  | .unary op source dest => .unary op (source.rename names) (dest.rename names)
  | .binary op left right dest => .binary op (left.rename names) (right.rename names) (dest.rename names)
  | .unknown code => .unknown code
  | .lacking operands => .lacking operands
  | .mention name => .mention (names name)

def Func.rename (names : String → String) (func : Func) : Func :=
  { func with
    name := names func.name
    params := func.params.map names
    body := func.body.map (Instr.rename names) }

def StaticVar.rename (names : String → String) (var : StaticVar) : StaticVar := { var with name := names var.name }

def Program.rename (names : String → String) (program : Program) : Program :=
  ⟨program.statics.map (StaticVar.rename names), program.funcs.map (Func.rename names)⟩

end Tac

open Tac (Value Instr)

theorem ShortCircuit.leave_rename (names : String → String) (op : ShortCircuit) (value : Value) (target : String) :
    (op.leave value target).rename names = op.leave (value.rename names) (names target) := by
  cases op <;> rfl

theorem breakTarget_shift (minted : Minted 0 bound id) (more : Nat) :
    shift more (breakTarget id) = breakTarget (shift more id) := by
  obtain ⟨number, -, -, numbered⟩ := minted
  exact numbered.shift_append more "break."

theorem continueTarget_shift (minted : Minted 0 bound id) (more : Nat) :
    shift more (continueTarget id) = continueTarget (shift more id) := by
  obtain ⟨number, -, -, numbered⟩ := minted
  exact numbered.shift_append more "continue."

/-- A part of lowering that uses up the same names from a supply that is ahead. -/
abbrev LowerFollows {α β : Type} (more : Nat) (left : Lower α) (right : Lower β) (names : NameSupply) (image : α → β) :
    Prop :=
  Pass.Follows left right names (NameSupply.advance · more) image

section Steps
variable {more : Nat} {names : NameSupply}

theorem label_follows (stem : String) : LowerFollows more (Lower.label stem) (Lower.label stem) names (shift more) :=
  loopId_shifts stem more names

theorem temp_follows : LowerFollows more Lower.temp Lower.temp names (Value.rename (shift more)) := by
  unfold Lower.temp
  simp only [map_eq_pure_bind]
  exact (loopId_shifts "tmp" more names).map fun _ => rfl

/-- Code and the place of a value, under names that are ahead. -/
def shiftedCode (more : Nat) (found : List Instr × Value) : List Instr × Value :=
  (found.1.map (Instr.rename (shift more)), found.2.rename (shift more))

end Steps

mutual

theorem Expr.lower_shifts {more : Nat} {names : NameSupply} : ∀ expr : Expr,
    LowerFollows more expr.lower (expr.rename (shift more)).lower names (shiftedCode more)
  | .number .. | .ident .. => Pass.follows_pure rfl
  | .unary _ op operand => by
    rw [Expr.rename, Expr.lower, Expr.lower]
    cases unaryOp? op with
    | none => exact Pass.follows_breach
    | some op =>
      refine (Expr.lower_shifts operand).bind ?_
      rintro ⟨code, source⟩ after -
      refine temp_follows.map fun dest => ?_
      simp [shiftedCode, Instr.rename]
  | .binary _ op left right => by
    rw [Expr.rename, Expr.lower, Expr.lower]
    cases ShortCircuit.ofKind? op with
    | some op =>
      refine (label_follows _).bind fun short _ _ => (label_follows _).bind fun done _ _ => ?_
      refine temp_follows.bind fun dest _ _ => (Expr.lower_shifts left).bind ?_
      rintro ⟨leftCode, leftValue⟩ after -
      refine (Expr.lower_shifts right).map fun found => ?_
      simp only [shiftedCode, List.map_append, List.map_cons, List.map_nil, ShortCircuit.leave_rename]
      rfl
    | none =>
      cases binaryOp? op with
      | none => exact Pass.follows_breach
      | some op =>
        refine (Expr.lower_shifts left).bind ?_
        rintro ⟨leftCode, leftValue⟩ after -
        refine (Expr.lower_shifts right).bind ?_
        rintro ⟨rightCode, rightValue⟩ after -
        refine temp_follows.map fun dest => ?_
        simp [shiftedCode, Instr.rename]
  | .assign _ target value => by
    cases target with
    | ident _ name =>
      rw [Expr.rename, Expr.rename, Expr.lower, Expr.lower]
      refine (Expr.lower_shifts value).map fun found => ?_
      simp [shiftedCode, Instr.rename, Value.rename]
    | _ => exact Pass.follows_breach
  | .conditional _ cond yes no => by
    rw [Expr.rename, Expr.lower, Expr.lower]
    refine (Expr.lower_shifts cond).bind ?_
    rintro ⟨condCode, condValue⟩ after -
    refine (label_follows _).bind fun otherwise _ _ => (Expr.lower_shifts yes).bind ?_
    rintro ⟨yesCode, yesValue⟩ after -
    refine temp_follows.bind fun dest _ _ => (label_follows _).bind fun done _ _ => ?_
    refine (Expr.lower_shifts no).map fun found => ?_
    simp [shiftedCode, Instr.rename]
  | .call _ name args => by
    rw [Expr.rename, Expr.lower, Expr.lower]
    refine (lowerArgs_shifts args).bind ?_
    rintro ⟨code, values⟩ after -
    refine temp_follows.map fun dest => ?_
    simp [shiftedCode, Instr.rename]
  | .misplaced _ => Pass.follows_breach

theorem lowerArgs_shifts {more : Nat} {names : NameSupply} : ∀ args : List Expr,
    LowerFollows more (lowerArgs args) (lowerArgs (renameArgs (shift more) args)) names
      (fun found => (found.1.map (Instr.rename (shift more)), found.2.map (Value.rename (shift more))))
  | [] => Pass.follows_pure rfl
  | arg :: rest => by
    rw [renameArgs, lowerArgs, lowerArgs]
    refine (Expr.lower_shifts arg).bind ?_
    rintro ⟨code, value⟩ after -
    refine (lowerArgs_shifts rest).map fun found => ?_
    simp

end

theorem VarDecl.lower_shifts (decl : VarDecl) :
    LowerFollows more decl.lower (decl.rename (shift more)).lower names (List.map (Instr.rename (shift more))) := by
  obtain ⟨span, name, init, storage⟩ := decl
  cases storage with
  | static | external => exact Pass.follows_pure rfl
  | automatic =>
    cases init with
    | none => exact Pass.follows_pure rfl
    | some init =>
      refine init.lower_shifts.map fun found => ?_
      rw [List.map_append]
      rfl

theorem ForInit.lower_shifts (init : ForInit) :
    LowerFollows more init.lower (init.rename (shift more)).lower names (List.map (Instr.rename (shift more))) := by
  cases init with
  | none => exact Pass.follows_pure rfl
  | var decl => exact decl.lower_shifts
  | expr value => exact value.lower_shifts.map fun _ => rfl

theorem lowerGuard_shifts (minted : Minted 0 bound id) (cond : Option Expr) : LowerFollows more (lowerGuard id cond)
      (lowerGuard (shift more id) (cond.map (Expr.rename (shift more)))) names (List.map (Instr.rename (shift more))) := by
  cases cond with
  | none => exact Pass.follows_pure rfl
  | some cond =>
    refine cond.lower_shifts.map fun found => ?_
    rw [List.map_append, ← breakTarget_shift minted]
    rfl

theorem lowerPost_shifts (post : Option Expr) :
    LowerFollows more (lowerPost post) (lowerPost (post.map (Expr.rename (shift more)))) names
      (List.map (Instr.rename (shift more))) := by
  cases post with
  | none => exact Pass.follows_pure rfl
  | some value => exact value.lower_shifts.map fun _ => rfl

theorem around_loop (minted : Minted 0 bound id) : ∀ other ∈ some id, Minted 0 bound other := by
  rintro _ ⟨⟩
  exact minted

mutual

/-- A statement becomes the same code from a supply that is ahead, under names that are ahead by as much. -/
theorem Stmt.lower_shifts {more bound : Nat} {loop : Option String} {names : NameSupply}
    (around : ∀ id ∈ loop, Minted 0 bound id) : ∀ stmt : Stmt, stmt.Labelled loop →
      (∀ id ∈ stmt.loops, Minted 0 bound id) →
      LowerFollows more stmt.lower (stmt.rename (shift more) (shift more)).lower names
        (List.map (Instr.rename (shift more)))
  | .ret _ value, _, _ => by
    rw [Stmt.rename, Stmt.lower, Stmt.lower]
    refine value.lower_shifts.map fun found => ?_
    rw [List.map_append]
    rfl
  | .expr _ value, _, _ => by
    rw [Stmt.rename, Stmt.lower, Stmt.lower]
    exact value.lower_shifts.map fun _ => rfl
  | .branch _ cond yes none, labelled, inside => by
    rw [Stmt.rename, Stmt.lower, Stmt.lower]
    refine cond.lower_shifts.bind ?_
    rintro ⟨condCode, condValue⟩ after -
    refine (label_follows _).bind fun done _ _ => (Stmt.lower_shifts around yes labelled inside).map fun code => ?_
    simp only [List.map_append, List.map_cons, List.map_nil]
    rfl
  | .branch _ cond yes (some no), labelled, inside => by
    obtain ⟨inYes, inNo⟩ := List.forall_mem_append.mp inside
    rw [Stmt.rename, Stmt.lower, Stmt.lower]
    refine cond.lower_shifts.bind ?_
    rintro ⟨condCode, condValue⟩ after -
    refine (label_follows _).bind fun otherwise _ _ => (Stmt.lower_shifts around yes labelled.1 inYes).bind fun yesCode _ _ => ?_
    refine (label_follows _).bind fun done _ _ => (Stmt.lower_shifts around no labelled.2 inNo).map fun noCode => ?_
    simp only [List.map_append, List.map_cons, List.map_nil]
    rfl
  | .block body, labelled, inside => Block.lower_shifts around body labelled inside
  -- The targets of a loop end in the number of its id, so they are ahead by as much only if the id has been given out.
  | .breakLoop _ id, labelled, _ => by
    refine Pass.follows_pure ?_
    rw [← breakTarget_shift (around id labelled)]
    rfl
  | .continueLoop _ id, labelled, _ => by
    refine Pass.follows_pure ?_
    rw [← continueTarget_shift (around id labelled)]
    rfl
  | .whileLoop _ cond body id, labelled, inside => by
    obtain ⟨minted, inBody⟩ := List.forall_mem_cons.mp inside
    rw [Stmt.rename, Stmt.lower, Stmt.lower, ← breakTarget_shift minted, ← continueTarget_shift minted]
    refine cond.lower_shifts.bind ?_
    rintro ⟨condCode, condValue⟩ after -
    refine (Stmt.lower_shifts (around_loop minted) body labelled inBody).map fun code => ?_
    simp only [List.map_append, List.map_cons, List.map_nil]
    rfl
  | .doLoop _ body cond id, labelled, inside => by
    obtain ⟨minted, inBody⟩ := List.forall_mem_cons.mp inside
    rw [Stmt.rename, Stmt.lower, Stmt.lower, ← breakTarget_shift minted, ← continueTarget_shift minted]
    refine (label_follows _).bind fun start _ _ => (Stmt.lower_shifts (around_loop minted) body labelled inBody).bind fun code _ _ => ?_
    refine cond.lower_shifts.map fun found => ?_
    simp only [shiftedCode, List.map_append, List.map_cons, List.map_nil]
    rfl
  | .forLoop _ init cond post body id, labelled, inside => by
    obtain ⟨minted, inBody⟩ := List.forall_mem_cons.mp inside
    rw [Stmt.rename, Stmt.lower_forLoop, Stmt.lower_forLoop, ← breakTarget_shift minted, ← continueTarget_shift minted]
    refine (label_follows _).bind fun start _ _ => init.lower_shifts.bind fun initCode _ _ => ?_
    refine (lowerGuard_shifts minted cond).bind fun condCode _ _ => ?_
    refine (Stmt.lower_shifts (around_loop minted) body labelled inBody).bind fun bodyCode _ _ => ?_
    refine (lowerPost_shifts post).map fun postCode => ?_
    simp only [List.map_append, List.map_cons, List.map_nil]
    rfl
  | .empty _, _, _ => Pass.follows_pure rfl
  | .misplaced _, _, _ => Pass.follows_breach

theorem Block.lower_shifts {more bound : Nat} {loop : Option String} {names : NameSupply}
    (around : ∀ id ∈ loop, Minted 0 bound id) : ∀ block : Block, block.Labelled loop →
      (∀ id ∈ block.loops, Minted 0 bound id) →
      LowerFollows more block.lower (block.rename (shift more) (shift more)).lower names
        (List.map (Instr.rename (shift more)))
  | ⟨_, items⟩, labelled, inside => lowerItems_shifts around items labelled inside

theorem lowerItems_shifts {more bound : Nat} {loop : Option String} {names : NameSupply}
    (around : ∀ id ∈ loop, Minted 0 bound id) : ∀ items : List Item, itemsLabelled loop items →
      (∀ id ∈ itemsLoops items, Minted 0 bound id) →
      LowerFollows more (lowerItems items) (lowerItems (renameItems (shift more) (shift more) items)) names
        (List.map (Instr.rename (shift more)))
  | [], _, _ => Pass.follows_pure rfl
  | .func _ :: rest, labelled, inside => by
    rw [renameItems, lowerItems, lowerItems]
    exact lowerItems_shifts around rest labelled inside
  | .var decl :: rest, labelled, inside => by
    rw [renameItems, lowerItems, lowerItems]
    refine decl.lower_shifts.bind fun code _ _ => (lowerItems_shifts around rest labelled inside).map fun others => ?_
    rw [List.map_append]
  | .stmt stmt :: rest, labelled, inside => by
    obtain ⟨here, later⟩ := List.forall_mem_append.mp inside
    rw [renameItems, lowerItems, lowerItems]
    refine (Stmt.lower_shifts around stmt labelled.1 here).bind fun code _ _ => ?_
    refine (lowerItems_shifts around rest labelled.2 later).map fun others => ?_
    rw [List.map_append]

end

theorem FuncDecl.lower_shifts (table : SymbolTable) {decl : FuncDecl} {body : Block} (labelled : body.Labelled none)
    (inside : ∀ id ∈ body.loops, Minted 0 bound id) :
    LowerFollows more (decl.lower table body)
      ((decl.rename (shift more) (shift more)).lower (table.rename (shift more)) (body.rename (shift more) (shift more)))
      names (Tac.Func.rename (shift more)) := by
  rw [FuncDecl.rename_eq]
  unfold FuncDecl.lower
  simp only [SymbolTable.get?_rename (shift_injective more)]
  have free : ∀ id ∈ (none : Option String), Minted 0 bound id := nofun
  rcases table.get? decl.name with _ | ⟨type, _ | _ | _⟩
  · exact Pass.follows_breach
  · refine (Block.lower_shifts free body labelled inside).map fun code => ?_
    simp only [Tac.Func.rename, List.map_append, List.map_map]
    rfl
  · exact Pass.follows_breach
  · exact Pass.follows_breach

theorem lowerUnit_shifts (table : SymbolTable) {items : List Item}
    (labelled : ∀ decl, .func decl ∈ items → decl.Labelled bound) :
    LowerFollows more (lowerUnit table items)
      (lowerUnit (table.rename (shift more)) (renameItems (shift more) (shift more) items)) names
      (List.map (Tac.Func.rename (shift more))) := by
  induction items generalizing names with
  | nil => exact Pass.follows_pure rfl
  | cons item rest ih =>
    have later := fun decl member => labelled decl (List.mem_cons_of_mem _ member)
    cases item with
    | var decl | stmt other =>
      rw [renameItems, lowerUnit, lowerUnit]
      · exact ih later
      all_goals nofun
    | func decl =>
      have here := labelled decl List.mem_cons_self
      obtain ⟨span, name, params, body, storage⟩ := decl
      rw [renameItems, lowerUnit, lowerUnit]
      cases body with
      | none => exact ih later
      | some body =>
        obtain ⟨told, -, minted⟩ := here body rfl
        refine (FuncDecl.lower_shifts table told minted).bind fun func _ _ => ?_
        exact (ih later).map fun _ => rfl

theorem SymbolTable.statics_rename (names : String → String) (table : SymbolTable) :
    (table.rename names).statics = table.statics.map (Tac.StaticVar.rename names) := by
  unfold SymbolTable.statics SymbolTable.rename
  rw [List.filterMap_map, List.map_filterMap]
  refine List.filterMap_congr fun entry _ => ?_
  obtain ⟨name, type, attr⟩ := entry
  rcases attr with _ | ⟨_ | _ | _, _⟩ | _ <;> rfl

theorem Program.lower_shifts {program : Program} {symbols : SymbolTable} (accepted : Accepted bound program symbols)
    (more : Nat) (names : NameSupply) :
    LowerFollows more (program.lower symbols)
      ((program.rename (shift more) (shift more)).lower (symbols.rename (shift more))) names
      (Tac.Program.rename (shift more)) := by
  unfold Program.lower
  refine (lowerUnit_shifts symbols accepted.labelled).map fun funcs => ?_
  rw [SymbolTable.statics_rename]
  rfl

end IntC
