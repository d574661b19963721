import IntC.Proofs.Compile

namespace IntC.Machine

/-- Where an operand of a selected function can come from. -/
inductive Operand.Source (func : Tac.Func) : Operand → Prop
  | zero : Source func (.imm 0)
  | reg (reg : Reg) : Source func (.reg reg)
  | incoming (index : Nat) : Source func (.stack (16 + 8 * index))
  | param {name : String} : name ∈ func.params → Source func (.pseudo name)
  | const {value : Int} {instr : Tac.Instr} : instr ∈ func.body → .const value ∈ instr.values → Source func (.imm value)
  | var {name : String} {instr : Tac.Instr} : instr ∈ func.body → .var name ∈ instr.values → Source func (.pseudo name)

/-- Only constants and registers are pushed. -/
def Instr.pushesPlainly : Instr → Bool
  | .push (.imm _) | .push (.reg _) => true
  | .push _ => false
  | _ => true

theorem operand_source {func : Tac.Func} {instr : Tac.Instr} {value : Tac.Value} {op : Operand}
    (member : instr ∈ func.body) (among : value ∈ instr.values) (made : operand func.name value = .ok op) :
    op.Source func := by
  cases value with
  | const value =>
    cases made
    exact .const member among
  | var name =>
    cases made
    exact .var member among
  | absent => cases made

theorem call_source {func : Tac.Func} {callee : String} {args : List Operand} {dest : Operand}
    (sources : ∀ arg ∈ args, arg.Source func) (destSource : dest.Source func) :
    ∀ part ∈ call callee args dest, (∀ op ∈ part.operands, op.Source func) ∧ part.pushesPlainly = true := by
  intro part member
  simp only [call, List.mem_append, List.mem_ite_nil_left, List.mem_singleton] at member
  rcases member with ((((⟨-, rfl⟩ | inRegister) | pushed) | rfl) | ⟨-, rfl⟩) | rfl
  · exact ⟨List.forall_mem_nil _, rfl⟩
  · obtain ⟨arg, inside, reg, -, rfl⟩ := exists_of_mem_zipWith inRegister
    exact ⟨by simp [Instr.operands, sources arg inside, Operand.Source.reg], rfl⟩
  · obtain ⟨arg, inside, here⟩ := List.mem_flatMap.mp pushed
    have source := sources arg (List.mem_of_mem_drop (List.mem_reverse.mp inside))
    cases arg <;> simp only [pushArg, List.mem_cons, List.not_mem_nil, or_false] at here <;>
      rcases here with rfl | rfl <;>
      simp [Instr.operands, Instr.pushesPlainly, source, Operand.Source.reg]
  · exact ⟨List.forall_mem_nil _, rfl⟩
  · exact ⟨List.forall_mem_nil _, rfl⟩
  · exact ⟨by simp [Instr.operands, destSource, Operand.Source.reg], rfl⟩

/-- A block uses the operands of the instruction it is selected for, registers, and the constant zero. -/
theorem selectInstr_source {func : Tac.Func} {instr : Tac.Instr} {block : List Instr} (member : instr ∈ func.body)
    (selected : selectInstr func.name instr = .ok block) :
    ∀ part ∈ block, (∀ op ∈ part.operands, op.Source func) ∧ part.pushesPlainly = true := by
  have source : ∀ {value op}, value ∈ instr.values → operand func.name value = .ok op → op.Source func :=
    fun among made => operand_source member among made
  cases instr with
  | call callee args dest =>
    simp only [selectInstr, bind_eq_ok, pure_eq_ok] at selected
    obtain ⟨ops, each, op, last, rfl⟩ := selected
    refine call_source (fun arg inside => ?_) (source (by simp [Tac.Instr.values]) last)
    obtain ⟨value, among, made⟩ := exists_of_mem_mapM each inside
    exact source (List.mem_append_left _ among) made
  | unary op value dest =>
    cases op <;> simp only [selectInstr, bind_eq_ok, pure_eq_ok] at selected <;>
      obtain ⟨b, madeB, a, madeA, rfl⟩ := selected <;>
      have first := source (by simp [Tac.Instr.values]) madeA <;>
      have second := source (by simp [Tac.Instr.values]) madeB <;>
      simp [Instr.operands, Instr.pushesPlainly, first, second, Operand.Source.zero]
  | binary op left right dest =>
    simp only [selectInstr, bind_eq_ok, pure_eq_ok] at selected
    obtain ⟨a, madeA, b, madeB, c, madeC, rfl⟩ := selected
    have first := source (by simp [Tac.Instr.values]) madeA
    have second := source (by simp [Tac.Instr.values]) madeB
    have third := source (by simp [Tac.Instr.values]) madeC
    cases op <;> simp [Instr.operands, Instr.pushesPlainly, first, second, third, Operand.Source.zero, Operand.Source.reg]
  | copy value dest =>
    simp only [selectInstr, bind_eq_ok, pure_eq_ok] at selected
    obtain ⟨a, madeA, b, madeB, rfl⟩ := selected
    have first := source (by simp [Tac.Instr.values]) madeA
    have second := source (by simp [Tac.Instr.values]) madeB
    simp [Instr.operands, Instr.pushesPlainly, first, second]
  | ret value | jumpIfZero value target | jumpIfNotZero value target =>
    obtain ⟨a, made, ⟨⟩⟩ := bind_eq_ok.mp selected
    have first := source (by simp [Tac.Instr.values]) made
    simp [Instr.operands, Instr.pushesPlainly, first, Operand.Source.zero, Operand.Source.reg]
  | jump | label | mention =>
    cases selected
    simp [Instr.operands, Instr.pushesPlainly]
  | unknown | lacking => cases selected

theorem mem_incoming_source {func : Tac.Func} {homes regs : List Operand} {op : Operand} {index : Nat}
    (known : ∀ reg ∈ regs, reg.Source func) (member : op ∈ incoming regs homes index) : op.Source func := by
  induction homes generalizing regs index with
  | nil => cases regs <;> cases member
  | cons home homes ih =>
    cases regs with
    | nil =>
      rcases List.mem_cons.mp member with rfl | later
      · exact .incoming index
      · exact ih known later
    | cons reg regs =>
      rcases List.mem_cons.mp member with rfl | later
      · exact known _ List.mem_cons_self
      · exact ih (fun other inside => known other (List.mem_cons_of_mem _ inside)) later

theorem selectFunc_source {func : Tac.Func} {machine : Func} (selected : selectFunc func = .ok machine) :
    ∀ part ∈ machine.instrs, (∀ op ∈ part.operands, op.Source func) ∧ part.pushesPlainly = true := by
  obtain ⟨code, same, blocks, each, rfl⟩ := selectFunc_eq_ok selected
  intro part member
  rw [same, List.mem_append] at member
  rcases member with moved | inside
  · obtain ⟨source, incoming, home, param, rfl⟩ := exists_of_mem_zipWith moved
    obtain ⟨name, among, rfl⟩ := List.mem_map.mp param
    have registers : ∀ reg ∈ Reg.args.map Operand.reg, reg.Source func := by
      intro op listed
      obtain ⟨reg, -, rfl⟩ := List.mem_map.mp listed
      exact .reg reg
    have first := mem_incoming_source registers incoming
    exact ⟨by simp [Instr.operands, first, Operand.Source.param among], rfl⟩
  · obtain ⟨block, among, here⟩ := List.mem_flatten.mp inside
    obtain ⟨instr, body, made⟩ := exists_of_mem_mapM each among
    exact selectInstr_source body made part here

/-- A selected function with its frame laid out and its instructions made encodable. -/
def Func.finished (symbols : SymbolTable) (align : Int) (func : Func) : Func :=
  { func.assignStorage symbols with
    instrs := .allocate (roundUp (func.assignStorage symbols).stackSize align) ::
      legalized (func.assignStorage symbols).instrs }

theorem exists_lower_eq {code : Tac.Program} (symbols : SymbolTable) (align : Int)
    (complete : ∀ func ∈ code.funcs, ∀ instr ∈ func.body, instr.isComplete = true) :
    ∃ funcs, List.Forall₂ (fun func machine => selectFunc func = .ok machine) code.funcs funcs ∧
      lower code symbols align = .ok
        ⟨code.statics.map fun var => ⟨var.name, var.global, var.init⟩, funcs.map (Func.finished symbols align)⟩ := by
  obtain ⟨selected, made⟩ := exists_select complete
  have settled := select_assignStorage_isSettled symbols made fun func member instr inside =>
    Tac.Instr.dest_isVar (complete func member instr inside)
  have whole := made
  simp only [select, bind_eq_ok, pure_eq_ok] at made
  obtain ⟨funcs, each, rfl⟩ := made
  have legal : ∀ func ∈ funcs, (func.assignStorage symbols).legalize align = .ok (func.finished symbols align) :=
    fun func member => Func.legalize_eq_ok (settled _ (List.mem_map_of_mem member))
  refine ⟨funcs, mapM_ok_iff.mp each, bind_eq_ok.mpr ⟨_, whole, bind_eq_ok.mpr ⟨_, ?_, rfl⟩⟩⟩
  rw [Program.assignStorage, List.mapM_map]
  exact mapM_ok_map legal

end IntC.Machine
