import IntC.Machine.Frame
import IntC.Proofs.Traverse

namespace IntC.Machine

/-- Two registers are kept for the work of the legalizer. -/
def Operand.isScratch : Operand → Bool
  | .reg r => r = .r10 || r = .r11
  | _ => false

@[simp] theorem Operand.isScratch_imm (value : Int) : (Operand.imm value).isScratch = false := rfl

@[simp] theorem Operand.isScratch_reg (reg : Reg) : (Operand.reg reg).isScratch = (reg = .r10 || reg = .r11) := rfl

def Operand.isSettled : Operand → Bool
  | .pseudo _ => false
  | _ => true

def Operand.isPlace : Operand → Bool
  | .imm _ | .absent => false
  | _ => true

@[simp] theorem Operand.isPlace_reg (reg : Reg) : (Operand.reg reg).isPlace = true := rfl

/-- The operand that an instruction writes to. The second one of a comparison is only read. -/
def Instr.dest? : Instr → Option Operand
  | .mov _ dest | .unary _ dest | .binary _ _ dest | .setCC _ dest => some dest
  | _ => none

/-- An instruction that leaves the scratch registers alone and writes to places only. -/
def Instr.isSelected (instr : Instr) : Bool :=
  (instr.operands.all fun op => !op.isScratch) && instr.dest?.all Operand.isPlace

/-- An instruction of which, besides, every operand has its home. -/
def Instr.isSettled (instr : Instr) : Bool := instr.isSelected && instr.operands.all Operand.isSettled

theorem isSelected_iff {instr : Instr} : instr.isSelected = true ↔
    (∀ op ∈ instr.operands, op.isScratch = false) ∧ ∀ op ∈ instr.dest?, op.isPlace = true := by
  cases found : instr.dest? <;> simp [Instr.isSelected, found]

theorem isSettled_iff {instr : Instr} :
    instr.isSettled = true ↔ instr.isSelected = true ∧ ∀ op ∈ instr.operands, op.isSettled = true := by
  simp [Instr.isSettled]

theorem isSettled_free {instr : Instr} (settled : instr.isSettled = true) :
    ∀ op ∈ instr.operands, op.isScratch = false :=
  (isSelected_iff.mp (isSettled_iff.mp settled).1).1

/-- Static names become data. Another name has the slot it was given before, or it gets the next one. -/
theorem Frame.place_pseudo (table : SymbolTable) (name : String) (frame : Frame) :
    Frame.place table (.pseudo name) frame =
      if table.isStatic name then (.data name, frame)
      else match List.idxOf? name frame with
        | some index => (.stack (offset index), frame)
        | none => (.stack (offset frame.length), frame ++ [name]) := by
  by_cases static : table.isStatic name = true
  · simp only [Frame.place, static, if_true]
    rfl
  · simp only [Frame.place, if_neg static, bind, StateT.bind, get, getThe, MonadStateOf.get, StateT.get, pure]
    cases List.idxOf? name frame <;> rfl

theorem Frame.place_pseudo_isMemory (table : SymbolTable) (name : String) (frame : Frame) :
    (Frame.place table (.pseudo name) frame).1.isMemory = true := by
  rw [Frame.place_pseudo]
  split
  · rfl
  · split <;> rfl

/-- The operands of an instruction change one by one, and its destination with them. -/
theorem mapOperandsM_operands {σ : Type} (f : Operand → StateM σ Operand) (instr : Instr) (state : σ) :
    (∀ op ∈ (instr.mapOperandsM f state).1.operands, ∃ old ∈ instr.operands, ∃ before, op = (f old before).1) ∧
    (∀ op ∈ (instr.mapOperandsM f state).1.dest?, ∃ old ∈ instr.dest?, ∃ before, op = (f old before).1) := by
  cases instr with
  | mov source dest | binary _ source dest =>
    constructor
    · intro op member
      rcases List.mem_pair.mp member with rfl | rfl
      · exact ⟨source, by simp [Instr.operands], state, rfl⟩
      · exact ⟨dest, by simp [Instr.operands], (f source state).2, rfl⟩
    · intro op member
      cases member
      exact ⟨dest, rfl, (f source state).2, rfl⟩
  | cmp source dest =>
    constructor
    · intro op member
      rcases List.mem_pair.mp member with rfl | rfl
      · exact ⟨source, by simp [Instr.operands], state, rfl⟩
      · exact ⟨dest, by simp [Instr.operands], (f source state).2, rfl⟩
    · intro op member
      cases member
  | unary op dest | setCC cc dest =>
    constructor
    · intro op member
      cases List.mem_singleton.mp member
      exact ⟨dest, List.mem_singleton_self _, state, rfl⟩
    · intro op member
      cases member
      exact ⟨dest, rfl, state, rfl⟩
  | idiv source | push source =>
    constructor
    · intro op member
      cases List.mem_singleton.mp member
      exact ⟨source, List.mem_singleton_self _, state, rfl⟩
    · intro op member
      cases member
  | _ => exact ⟨fun op member => absurd member List.not_mem_nil, fun op member => nomatch member⟩

theorem place_kept {table : SymbolTable} {op : Operand} (frame : Frame) (free : op.isScratch = false) :
    (Frame.place table op frame).1.isScratch = false ∧ (Frame.place table op frame).1.isSettled = true ∧
      (op.isPlace = true → (Frame.place table op frame).1.isPlace = true) := by
  cases op with
  | pseudo name =>
    have memory := Frame.place_pseudo_isMemory table name frame
    cases home : (Frame.place table (.pseudo name) frame).1 <;> rw [home] at memory <;>
      simp_all [Operand.isMemory, Operand.isScratch, Operand.isSettled, Operand.isPlace]
  | _ => exact ⟨free, rfl, id⟩

theorem mapOperandsM_isSettled {table : SymbolTable} {instr : Instr} (frame : Frame)
    (selected : instr.isSelected = true) : (instr.mapOperandsM (Frame.place table) frame).1.isSettled = true := by
  obtain ⟨operands, dest⟩ := mapOperandsM_operands (Frame.place table) instr frame
  obtain ⟨free, places⟩ := isSelected_iff.mp selected
  have subset : ∀ op ∈ instr.dest?, op ∈ instr.operands := by
    cases instr <;> simp [Instr.dest?, Instr.operands]
  refine isSettled_iff.mpr ⟨isSelected_iff.mpr ⟨?_, ?_⟩, ?_⟩
  · intro op member
    obtain ⟨old, inside, before, rfl⟩ := operands op member
    exact (place_kept before (free old inside)).1
  · intro op member
    obtain ⟨old, inside, before, rfl⟩ := dest op member
    exact (place_kept before (free old (subset old inside))).2.2 (places old inside)
  · intro op member
    obtain ⟨old, inside, before, rfl⟩ := operands op member
    exact (place_kept before (free old inside)).2.1

/-- Every instruction of a function is settled once its frame is laid out. -/
theorem assignStorage_isSettled {table : SymbolTable} {func : Func}
    (selected : ∀ instr ∈ func.instrs, instr.isSelected = true) :
    ∀ instr ∈ (func.assignStorage table).instrs, instr.isSettled = true := by
  intro instr member
  obtain ⟨old, inside, frame, rfl⟩ := exists_of_mem_mapM_state member
  exact mapOperandsM_isSettled frame (selected old inside)

end IntC.Machine
