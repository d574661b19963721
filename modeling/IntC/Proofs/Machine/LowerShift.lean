import IntC.Compile
import IntC.Proofs.Machine.Frame
import IntC.Proofs.Tac.LoweringShift

namespace IntC

namespace Machine

def Operand.rename (names : String → String) : Operand → Operand
  | .pseudo name => .pseudo (names name)
  | .data name => .data (names name)
  | op => op

/-- Variables, functions and labels are renamed alike. -/
def Instr.rename (names : String → String) : Instr → Instr
  | .mov source dest => .mov (source.rename names) (dest.rename names)
  | .unary op dest => .unary op (dest.rename names)
  | .binary op source dest => .binary op (source.rename names) (dest.rename names)
  | .cmp source dest => .cmp (source.rename names) (dest.rename names)
  | .idiv source => .idiv (source.rename names)
  | .cdq => .cdq
  | .jmp target => .jmp (names target)
  | .jmpCC cc target => .jmpCC cc (names target)
  | .setCC cc dest => .setCC cc (dest.rename names)
  | .label name => .label (names name)
  | .allocate bytes => .allocate bytes
  | .deallocate bytes => .deallocate bytes
  | .push source => .push (source.rename names)
  | .call name => .call (names name)
  | .ret => .ret

/-- The frame keeps its size. -/
def Func.rename (names : String → String) (func : Func) : Func :=
  { func with name := names func.name, instrs := func.instrs.map (Instr.rename names) }

def StaticVar.rename (names : String → String) (var : StaticVar) : StaticVar := { var with name := names var.name }

def Program.rename (names : String → String) (program : Program) : Program :=
  ⟨program.statics.map (StaticVar.rename names), program.funcs.map (Func.rename names)⟩

end Machine

theorem alike_mapM {α β γ δ : Type} {f : α → Except Error β} {g : γ → Except Error δ} {view : α → γ} {image : β → δ}
    {list : List α} (each : ∀ a ∈ list, Alike (f a) (g (view a)) (fun b d => d = image b) Error.Like) :
    Alike (list.mapM f) ((list.map view).mapM g) (fun found other => other = found.map image) Error.Like := by
  induction list with
  | nil => exact rfl
  | cons a rest ih =>
    obtain ⟨here, later⟩ := List.forall_mem_cons.mp each
    rw [List.map_cons, List.mapM_cons, List.mapM_cons]
    refine here.bind ?_
    rintro b _ rfl
    refine (ih later).bind ?_
    rintro found _ rfl
    exact rfl

namespace Machine
section Select
variable {names : String → String}

theorem operand_alike (func other : String) (value : Tac.Value) :
    Alike (operand func value) (operand other (value.rename names)) (fun op renamed => renamed = op.rename names)
      Error.Like := by
  cases value with
  | const | var => exact rfl
  | absent => exact ⟨rfl, rfl⟩

theorem pushArg_rename (arg : Operand) : pushArg (arg.rename names) = (pushArg arg).map (Instr.rename names) := by
  cases arg <;> rfl

theorem call_rename (callee : String) (args : List Operand) (dest : Operand) :
    call (names callee) (args.map (Operand.rename names)) (dest.rename names) =
      (call callee args dest).map (Instr.rename names) := by
  have stacked : ((args.map (Operand.rename names)).drop Reg.args.length).reverse.flatMap pushArg =
      ((args.drop Reg.args.length).reverse.flatMap pushArg).map (Instr.rename names) := by
    rw [← List.map_drop, ← List.map_reverse, List.flatMap_map, List.map_flatMap]
    simp only [pushArg_rename]
  have moved : List.zipWith (fun arg reg => Instr.mov arg (.reg reg)) (args.map (Operand.rename names)) Reg.args =
      (List.zipWith (fun arg reg => Instr.mov arg (.reg reg)) args Reg.args).map (Instr.rename names) := by
    rw [List.zipWith_map_left, List.map_zipWith]
    rfl
  -- What adjusts the stack pointer has no name in it.
  have kept : ∀ (cond : Prop) [Decidable cond] (instr : Instr), instr.rename names = instr →
      (if cond then [] else [instr]).map (Instr.rename names) = if cond then [] else [instr] := by
    intro cond _ instr same
    split
    · rfl
    · rw [List.map_singleton, same]
  unfold call
  simp only [stacked, moved, List.map_append, List.length_drop, List.length_map]
  rw [kept _ (.allocate _) rfl, kept _ (.deallocate _) rfl]
  rfl

theorem selectInstr_alike (func other : String) (instr : Tac.Instr) :
    Alike (selectInstr func instr) (selectInstr other (instr.rename names))
      (fun code renamed => renamed = code.map (Instr.rename names)) Error.Like := by
  cases instr with
  | ret value =>
    refine (operand_alike func other value).bind ?_
    rintro op _ rfl
    exact rfl
  | copy source dest =>
    refine (operand_alike func other source).bind ?_
    rintro op _ rfl
    refine (operand_alike func other dest).bind ?_
    rintro op _ rfl
    exact rfl
  | jump target => exact rfl
  | jumpIfZero cond target | jumpIfNotZero cond target =>
    refine (operand_alike func other cond).bind ?_
    rintro op _ rfl
    exact rfl
  | label name => exact rfl
  | call callee args dest =>
    refine (alike_mapM fun arg _ => operand_alike func other arg).bind ?_
    rintro ops _ rfl
    refine (operand_alike func other dest).bind ?_
    rintro op _ rfl
    exact call_rename callee ops op
  | unary op source dest =>
    cases op <;>
    · refine (operand_alike func other dest).bind ?_
      rintro home _ rfl
      refine (operand_alike func other source).bind ?_
      rintro op _ rfl
      exact rfl
  | binary op left right dest =>
    refine (operand_alike func other left).bind ?_
    rintro first _ rfl
    refine (operand_alike func other right).bind ?_
    rintro second _ rfl
    refine (operand_alike func other dest).bind ?_
    rintro home _ rfl
    cases op <;> exact rfl
  | unknown code | lacking operands => exact ⟨rfl, rfl⟩
  | mention name => exact rfl

theorem incoming_rename (regs : List Reg) (homes : List Operand) (index : Nat) :
    (incoming (regs.map .reg) homes index).map (Operand.rename names) = incoming (regs.map .reg) homes index := by
  induction homes generalizing regs index with
  | nil => cases regs <;> rfl
  | cons home rest ih =>
    cases regs with
    | nil =>
      have later := ih [] (index + 1)
      rw [List.map_nil] at later ⊢
      rw [incoming, List.map_cons, later]
      rfl
    | cons reg regs =>
      rw [List.map_cons, incoming, List.map_cons, ih regs index]
      rfl

theorem incoming_map (f : Operand → Operand) (regs homes : List Operand) (index : Nat) :
    incoming regs (homes.map f) index = incoming regs homes index := by
  induction homes generalizing regs index with
  | nil => cases regs <;> rfl
  | cons home rest ih =>
    cases regs with
    | nil | cons reg regs => rw [List.map_cons, incoming, incoming, ih]

theorem paramMoves_rename (params : List String) :
    paramMoves (params.map names) = (paramMoves params).map (Instr.rename names) := by
  have homes : (params.map names).map Operand.pseudo = (params.map Operand.pseudo).map (Operand.rename names) := by
    rw [List.map_map, List.map_map]
    rfl
  unfold paramMoves
  simp only [homes, incoming_map, List.map_zipWith]
  nth_rewrite 1 [← incoming_rename]
  rw [List.zipWith_map]
  rfl

theorem selectFunc_alike (func : Tac.Func) :
    Alike (selectFunc func) (selectFunc (func.rename names)) (fun made renamed => renamed = made.rename names)
      Error.Like := by
  unfold selectFunc
  refine (alike_mapM fun instr _ => selectInstr_alike func.name _ instr).bind ?_
  rintro code _ rfl
  simp only [Tac.Func.rename, paramMoves_rename, Func.rename, List.map_append, List.map_flatten, alike_pure]

theorem select_alike (code : Tac.Program) :
    Alike (select code) (select (code.rename names)) (fun made renamed => renamed = made.rename names) Error.Like := by
  unfold select
  refine (alike_mapM fun func _ => selectFunc_alike func).bind ?_
  rintro funcs _ rfl
  simp only [Tac.Program.rename, Program.rename, List.map_map, alike_pure]
  rfl

end Select

section Storage
variable {names : String → String} (distinct : Function.Injective names) (table : SymbolTable)
include distinct

theorem idxOf?_rename (name : String) (frame : Frame) :
    List.idxOf? (names name) (frame.map names) = List.idxOf? name frame := by
  unfold List.idxOf?
  rw [List.findIdx?_map]
  congr 1
  funext other
  simp only [Function.comp, distinct.beq_eq]

theorem place_rename (op : Operand) (frame : Frame) :
    Frame.place (table.rename names) (op.rename names) (frame.map names) =
      ((Frame.place table op frame).1.rename names, (Frame.place table op frame).2.map names) := by
  cases op with
  | pseudo name =>
    rw [Operand.rename, Frame.place_pseudo, Frame.place_pseudo, SymbolTable.isStatic_rename distinct,
      idxOf?_rename distinct, List.length_map]
    split
    · rfl
    · cases List.idxOf? name frame with
      | some index => rfl
      | none =>
        change _ = (_, (frame ++ [name]).map names)
        rw [List.map_append]
        rfl
  | _ => rfl

theorem mapOperandsM_rename (instr : Instr) (frame : Frame) :
    (instr.rename names).mapOperandsM (Frame.place (table.rename names)) (frame.map names) =
      ((instr.mapOperandsM (Frame.place table) frame).1.rename names,
        (instr.mapOperandsM (Frame.place table) frame).2.map names) := by
  have placed := place_rename distinct table
  cases instr <;> simp only [Instr.rename, Instr.mapOperandsM, bind, StateT.bind, placed] <;> rfl

theorem mapM_place_rename (instrs : List Instr) (frame : Frame) :
    (instrs.map (Instr.rename names)).mapM (Instr.mapOperandsM (Frame.place (table.rename names))) (frame.map names) =
      ((instrs.mapM (Instr.mapOperandsM (Frame.place table)) frame).1.map (Instr.rename names),
        (instrs.mapM (Instr.mapOperandsM (Frame.place table)) frame).2.map names) := by
  induction instrs generalizing frame with
  | nil => rfl
  | cons instr rest ih =>
    simp only [List.map_cons, List.mapM_cons, bind, StateT.bind, mapOperandsM_rename distinct table, ih]
    rfl

theorem assignStorage_rename (func : Func) :
    (func.rename names).assignStorage (table.rename names) = (func.assignStorage table).rename names := by
  have placed := mapM_place_rename distinct table func.instrs []
  rw [List.map_nil] at placed
  simp only [Func.assignStorage, Func.rename, placed, Frame.size, List.length_map]
  rfl

end Storage

section Legal
variable {names : String → String}

theorem isMemory_rename (op : Operand) : (op.rename names).isMemory = op.isMemory := by
  cases op <;> rfl

theorem isImm_rename (op : Operand) : (op.rename names).isImm = op.isImm := by
  cases op <;> rfl

theorem pseudo?_rename (instr : Instr) : (instr.rename names).pseudo? = instr.pseudo?.map names := by
  have operands : (instr.rename names).operands = instr.operands.map (Operand.rename names) := by
    cases instr <;> rfl
  unfold Instr.pseudo?
  rw [operands, List.findSome?_map, List.map_findSome?]
  congr 1
  funext op
  cases op <;> rfl

theorem encodable_rename (instr : Instr) :
    (instr.rename names).encodable = instr.encodable.map (Instr.rename names) := by
  cases instr with
  | mov source dest =>
    simp only [Instr.rename, Instr.encodable, isMemory_rename]
    split <;> rfl
  | idiv source =>
    simp only [Instr.rename, Instr.encodable, isImm_rename]
    split <;> rfl
  | binary op source dest =>
    cases op <;> simp only [Instr.rename, Instr.encodable, isMemory_rename]
    · split <;> rfl
    · split <;> rfl
    · rfl
  | cmp source dest =>
    simp only [Instr.rename, Instr.encodable, isMemory_rename, isImm_rename]
    split
    · rfl
    · split <;> rfl
  | _ => rfl

theorem legalizeInstr_alike (instr : Instr) : Alike instr.legalize (instr.rename names).legalize
    (fun code renamed => renamed = code.map (Instr.rename names)) Error.Like := by
  unfold Instr.legalize
  rw [pseudo?_rename]
  cases instr.pseudo? with
  | none => exact encodable_rename instr
  | some name => exact ⟨rfl, rfl⟩

theorem legalizeFunc_alike (align : Int) (func : Func) : Alike (func.legalize align) ((func.rename names).legalize align)
    (fun made renamed => renamed = made.rename names) Error.Like := by
  unfold Func.legalize
  refine (alike_mapM fun instr _ => legalizeInstr_alike instr).bind ?_
  rintro code _ rfl
  simp only [Func.rename, List.map_cons, List.map_flatten, alike_pure]
  rfl

end Legal

/-- The machine program does not depend on the numbers of names: every slot and every frame is the same. -/
theorem lower_alike {names : String → String} (distinct : Function.Injective names) (code : Tac.Program)
    (symbols : SymbolTable) (align : Int) :
    Alike (lower code symbols align) (lower (code.rename names) (symbols.rename names) align)
      (fun made renamed => renamed = made.rename names) Error.Like := by
  unfold lower
  refine (select_alike code).bind ?_
  rintro selected _ rfl
  have placed : (selected.rename names).assignStorage (symbols.rename names) =
      (selected.assignStorage symbols).rename names := by
    simp only [Program.assignStorage, Program.rename, List.map_map]
    congr 1
    exact List.map_congr_left fun func _ => assignStorage_rename distinct symbols func
  rw [placed]
  unfold Program.legalize
  refine (alike_mapM fun func _ => legalizeFunc_alike align func).bind ?_
  rintro funcs _ rfl
  exact rfl

end Machine

end IntC
