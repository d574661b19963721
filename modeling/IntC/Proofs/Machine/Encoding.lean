import IntC.Proofs.Machine.Lower

namespace IntC.Machine

/-- Whether a value fits into an immediate operand, which has thirty-two bits with sign. -/
def fitsImmediate (value : Int) : Bool := -0x80000000 ≤ value && value < 0x80000000

def Operand.isReg : Operand → Bool
  | .reg _ => true
  | _ => false

/-- An operand that instructions have a form for. -/
def Operand.isLegal : Operand → Bool
  | .imm value => fitsImmediate value
  | .reg _ | .stack _ | .data _ => true
  | .pseudo _ | .absent => false

/-- An instruction that the machine has a form for. At most one operand is in memory, and nothing is written to
a constant; comparisons and divisions have their own rules, products need a register, and what is pushed must
be a constant or a register. -/
def Instr.isLegal (instr : Instr) : Bool :=
  instr.operands.all Operand.isLegal && match instr with
    | .mov source dest | .cmp source dest => !(source.isMemory && dest.isMemory) && !dest.isImm
    | .binary op source dest =>
      !(source.isMemory && dest.isMemory) && !dest.isImm && (op ≠ .mult || dest.isReg)
    | .unary _ dest | .setCC _ dest => !dest.isImm
    | .idiv source => !source.isImm
    | .push source => source.isImm || source.isReg
    | _ => true

/-- Placing an operand leaves constants and registers alone, and puts variables into memory. -/
theorem place_isLegal {table : SymbolTable} {op : Operand} (frame : Frame)
    (known : op.isLegal = true ∨ ∃ name, op = .pseudo name) : (Frame.place table op frame).1.isLegal = true := by
  rcases known with legal | ⟨name, rfl⟩
  · cases op with
    | pseudo => cases legal
    | _ => exact legal
  · have memory := Frame.place_pseudo_isMemory table name frame
    cases home : (Frame.place table (.pseudo name) frame).1 <;> rw [home] at memory <;>
      simp_all [Operand.isMemory, Operand.isLegal]

theorem mapOperandsM_pushesPlainly {table : SymbolTable} {instr : Instr} (frame : Frame)
    (plain : instr.pushesPlainly = true) :
    (instr.mapOperandsM (Frame.place table) frame).1.pushesPlainly = true := by
  cases instr with
  | push source =>
    cases source with
    | imm | reg => rfl
    | _ => cases plain
  | _ => rfl

@[simp] theorem Operand.isLegal_reg (reg : Reg) : (Operand.reg reg).isLegal = true := rfl

@[simp] theorem Operand.isMemory_reg (reg : Reg) : (Operand.reg reg).isMemory = false := rfl

@[simp] theorem Operand.isImm_reg (reg : Reg) : (Operand.reg reg).isImm = false := rfl

@[simp] theorem Operand.isReg_reg (reg : Reg) : (Operand.reg reg).isReg = true := rfl

theorem Operand.isImm_of_isMemory {op : Operand} (memory : op.isMemory = true) : op.isImm = false := by
  cases op with
  | imm => cases memory
  | _ => rfl

theorem Operand.isImm_of_isPlace {op : Operand} (place : op.isPlace = true) : op.isImm = false := by
  cases op with
  | imm => cases place
  | _ => rfl

/-- The rewrites for operands that do not go together cover all that a settled instruction can have. -/
theorem encodable_isLegal {instr : Instr} (settled : instr.isSettled = true)
    (legal : ∀ op ∈ instr.operands, op.isLegal = true) (plain : instr.pushesPlainly = true) :
    ∀ part ∈ instr.encodable, part.isLegal = true := by
  have written : ∀ dest ∈ instr.dest?, dest.isImm = false := fun dest found =>
    Operand.isImm_of_isPlace ((isSelected_iff.mp (isSettled_iff.mp settled).1).2 dest found)
  clear settled
  fun_cases Instr.encodable instr
  -- The last case is that of all instructions that are left as they are; the others are split by their operands.
  case case11 =>
    rw [List.forall_mem_singleton]
    cases instr with
    | push source => cases source <;> simp_all [Instr.isLegal, Instr.operands, Instr.pushesPlainly, Operand.isImm]
    | _ => simp_all [Instr.isLegal, Instr.operands, Instr.dest?]
  all_goals simp_all [Instr.isLegal, Instr.operands, Instr.dest?, Operand.isImm_of_isMemory] <;> grind

/-- A finished function has legal instructions only, if the constants of the function it is selected for fit. -/
theorem finished_isLegal {func : Tac.Func} {machine : Func} (symbols : SymbolTable) (align : Int)
    (selected : selectFunc func = .ok machine)
    (results : ∀ instr ∈ func.body, ∀ dest ∈ instr.dest?, dest.isVar = true)
    (fits : ∀ instr ∈ func.body, ∀ value, .const value ∈ instr.values → fitsImmediate value = true) :
    ∀ instr ∈ (machine.finished symbols align).instrs, instr.isLegal = true := by
  have known : ∀ op : Operand, op.Source func → op.isLegal = true ∨ ∃ name, op = .pseudo name := by
    intro op source
    cases source with
    | zero | reg | incoming => exact .inl rfl
    | param => exact .inr ⟨_, rfl⟩
    | const member among => exact .inl (fits _ member _ among)
    | var => exact .inr ⟨_, rfl⟩
  have settled : ∀ instr ∈ (machine.assignStorage symbols).instrs, instr.isSettled = true :=
    assignStorage_isSettled (selectFunc_isSelected selected results)
  have sources := selectFunc_source selected
  refine List.forall_mem_cons.mpr ⟨rfl, fun part encoded => ?_⟩
  obtain ⟨instr, member, here⟩ := List.mem_flatMap.mp encoded
  have still := settled instr member
  obtain ⟨old, inside, frame, rfl⟩ := exists_of_mem_mapM_state member
  refine encodable_isLegal still ?_ (mapOperandsM_pushesPlainly frame (sources old inside).2) part here
  intro op among
  obtain ⟨before, listed, frame, rfl⟩ := (mapOperandsM_operands (Frame.place symbols) old frame).1 op among
  exact place_isLegal frame (known before ((sources old inside).1 before listed))

end IntC.Machine
