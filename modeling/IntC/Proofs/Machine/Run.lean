import IntC.Machine
import IntC.Proofs.Word
import Mathlib.Data.BitVec
import Mathlib.Data.List.Infix
import Mathlib.Logic.Relation

namespace IntC.Machine

variable {block rest code : List Instr} {env : Environment}

/-- What a comparison leaves behind: whether the difference is zero, whether it is negative, and whether
it did not fit. -/
@[ext]
structure Flags where
  zero : Bool
  sign : Bool
  overflow : Bool

namespace Flags

/-- The flags of the difference of two words. -/
def compare (a b : Word) : Flags where
  zero := a - b = 0
  sign := (a - b).msb
  overflow := a.ssubOverflow b

end Flags

def CondCode.holds (flags : Flags) : CondCode → Bool
  | .e => flags.zero
  | .ne => !flags.zero
  | .g => !flags.zero && flags.sign == flags.overflow
  | .ge => flags.sign == flags.overflow
  | .l => flags.sign != flags.overflow
  | .le => flags.zero || flags.sign != flags.overflow

/-- The state of the machine. Arguments that are pushed lie on a stack of their own, the last one first;
a cell that was only reserved holds nothing. -/
@[ext]
structure State where
  regs : Reg → Word
  pseudos : Store
  slots : Int → Word
  data : Store
  flags : Flags
  pushed : List (Option Word)
  calls : List (String × List Word)

namespace State

def setReg (state : State) (reg : Reg) (value : Word) : State :=
  { state with regs := Function.update state.regs reg value }

@[simp] theorem setReg_pseudos (state : State) (reg : Reg) (value : Word) :
    (state.setReg reg value).pseudos = state.pseudos := rfl

@[simp] theorem setReg_calls (state : State) (reg : Reg) (value : Word) :
    (state.setReg reg value).calls = state.calls := rfl

@[simp] theorem setReg_flags (state : State) (reg : Reg) (value : Word) :
    (state.setReg reg value).flags = state.flags := rfl

@[simp] theorem setReg_pushed (state : State) (reg : Reg) (value : Word) :
    (state.setReg reg value).pushed = state.pushed := rfl

@[simp] theorem setReg_same (state : State) (reg : Reg) (value : Word) :
    (state.setReg reg value).regs reg = value := Function.update_self ..

theorem setReg_other (state : State) {reg other : Reg} (value : Word) (different : other ≠ reg) :
    (state.setReg reg value).regs other = state.regs other := Function.update_of_ne different ..

/-- The state without the two registers that no instruction of a program names. -/
def visible (state : State) : State :=
  { state with regs := fun reg => if reg = .r10 ∨ reg = .r11 then 0 else state.regs reg }

end State

def Operand.read (state : State) : Operand → Option Word
  | .imm value => some (BitVec.ofInt 32 value)
  | .reg r => some (state.regs r)
  | .pseudo name => some (state.pseudos name)
  | .stack offset => some (state.slots offset)
  | .data name => some (state.data name)
  | .absent => none

/-- Puts a value into a place; a constant is none. -/
def Operand.write (state : State) (value : Word) : Operand → Option State
  | .reg r => some (state.setReg r value)
  | .pseudo name => some { state with pseudos := Function.update state.pseudos name value }
  | .stack offset => some { state with slots := Function.update state.slots offset value }
  | .data name => some { state with data := Function.update state.data name value }
  | .imm _ | .absent => none

@[simp] theorem Operand.read_imm (state : State) (value : Int) :
    (Operand.imm value).read state = some (BitVec.ofInt 32 value) := rfl

@[simp] theorem Operand.read_reg (state : State) (reg : Reg) :
    (Operand.reg reg).read state = some (state.regs reg) := rfl

@[simp] theorem Operand.read_pseudo (state : State) (name : String) :
    (Operand.pseudo name).read state = some (state.pseudos name) := rfl

@[simp] theorem Operand.write_reg (state : State) (reg : Reg) (value : Word) :
    (Operand.reg reg).write state value = some (state.setReg reg value) := rfl

@[simp] theorem Operand.write_pseudo (state : State) (name : String) (value : Word) :
    (Operand.pseudo name).write state value =
      some { state with pseudos := Function.update state.pseudos name value } := rfl

def UnaryOp.apply : UnaryOp → Word → Word
  | .neg, a => -a
  | .not, a => ~~~a

/-- The destination is the left operand. -/
def BinaryOp.apply : BinaryOp → Word → Word → Word
  | .add, a, b => a + b
  | .sub, a, b => a - b
  | .mult, a, b => a * b

/-- The flags after arithmetic that is no comparison. Code may not rely on them, so they are left open. -/
structure Processor where
  unaryFlags : UnaryOp → Word → Flags → Flags
  binaryFlags : BinaryOp → Word → Word → Flags → Flags
  idivFlags : Int → Word → Flags → Flags

/-- The dividend of a division, which takes two registers. -/
def State.dividend (state : State) : Int :=
  (state.regs .dx).toInt * 4294967296 + (state.regs .ax).toNat

/-- The low byte of a word replaced by a condition. -/
def withLowByte (value : Word) (holds : Bool) : Word :=
  (value &&& 0xffffff00) ||| Word.truth holds

@[simp] theorem withLowByte_zero (holds : Bool) : withLowByte 0#32 holds = Word.truth holds := by
  cases holds <;> rfl

/-- The cells of the pushed stack that so many bytes take. -/
def cells (bytes : Int) : Nat := (bytes / 8).toNat

/-- What an instruction does that hands control to the one behind it. A quotient that does not fit stops
the machine. -/
def Instr.effect (cpu : Processor) (state : State) : Instr → Option State
  | .mov source dest => do
    let value ← source.read state
    dest.write state value
  | .unary op dest => do
    let a ← dest.read state
    dest.write { state with flags := cpu.unaryFlags op a state.flags } (op.apply a)
  | .binary op source dest => do
    let b ← source.read state
    let a ← dest.read state
    dest.write { state with flags := cpu.binaryFlags op a b state.flags } (op.apply a b)
  | .cmp source dest => do
    let b ← source.read state
    let a ← dest.read state
    return { state with flags := .compare a b }
  | .cdq => some (state.setReg .dx (if (state.regs .ax).msb then -1 else 0))
  | .idiv source => do
    let divisor ← source.read state
    let quotient := state.dividend.tdiv divisor.toInt
    let remainder := state.dividend.tmod divisor.toInt
    if divisor ≠ 0 ∧ -2147483648 ≤ quotient ∧ quotient < 2147483648 then
      let flags := cpu.idivFlags state.dividend divisor state.flags
      some (({ state with flags }.setReg .ax (BitVec.ofInt 32 quotient)).setReg .dx (BitVec.ofInt 32 remainder))
    else none
  | .setCC cc dest => do
    let a ← dest.read state
    dest.write state (withLowByte a (cc.holds state.flags))
  | .label _ => some state
  | .allocate bytes => some { state with pushed := List.replicate (cells bytes) none ++ state.pushed }
  | .deallocate bytes => some { state with pushed := state.pushed.drop (cells bytes) }
  | .push source => do
    let value ← source.read state
    return { state with pushed := some value :: state.pushed }
  | .jmp _ | .jmpCC .. | .call _ | .ret => none

section Effect
variable {cpu : Processor} {state : State} {source dest : Operand} {a b : Word}

attribute [local simp] Instr.effect

theorem effect_mov (readSource : source.read state = some b) :
    (Instr.mov source dest).effect cpu state = dest.write state b := by
  simp [readSource]

theorem effect_binary {op : BinaryOp} (readSource : source.read state = some b) (readDest : dest.read state = some a) :
    (Instr.binary op source dest).effect cpu state =
      dest.write { state with flags := cpu.binaryFlags op a b state.flags } (op.apply a b) := by
  simp [readSource, readDest]

theorem effect_cmp (readSource : source.read state = some b) (readDest : dest.read state = some a) :
    (Instr.cmp source dest).effect cpu state = some { state with flags := .compare a b } := by
  simp [readSource, readDest]

theorem effect_idiv (readSource : source.read state = some b) (nonzero : b ≠ 0)
    (fits : -2147483648 ≤ state.dividend.tdiv b.toInt ∧ state.dividend.tdiv b.toInt < 2147483648) :
    (Instr.idiv source).effect cpu state =
      some (({ state with flags := cpu.idivFlags state.dividend b state.flags }.setReg .ax
        (BitVec.ofInt 32 (state.dividend.tdiv b.toInt))).setReg .dx
        (BitVec.ofInt 32 (state.dividend.tmod b.toInt))) := by
  simp only [Instr.effect, readSource, Option.bind_eq_bind, Option.bind_some]
  exact if_pos ⟨nonzero, fits⟩

end Effect

/-- What a machine stands in: its processor, and what calls do to its state. A call never sees the two
registers that no instruction of a program names. -/
structure Environment where
  cpu : Processor
  calls : String → State → State → Prop

/-- A point of a run: the instructions from the next one on, and the state. -/
structure Config where
  rest : List Instr
  state : State

def seek (target : String) : List Instr → Option (List Instr)
  | [] => none
  | .label name :: rest => if name = target then some rest else seek target rest
  | _ :: rest => seek target rest

theorem seek_cons_self {target : String} : seek target (.label target :: rest) = some rest := if_pos rfl

theorem seek_cons_of_ne {target : String} {instr : Instr} (other : instr ≠ .label target) :
    seek target (instr :: rest) = seek target rest := by
  cases instr with
  | label name => exact if_neg fun same : name = target => other (congrArg Instr.label same)
  | _ => rfl

theorem seek_append_of_plain {target : String} (plain : ∀ name, .label name ∉ block) :
    seek target (block ++ rest) = seek target rest := by
  induction block with
  | nil => rfl
  | cons instr block ih =>
    have other : instr ≠ .label target := fun same => plain target (same ▸ List.mem_cons_self)
    rw [List.cons_append, seek_cons_of_ne other]
    exact ih fun name member => plain name (List.mem_cons_of_mem _ member)

theorem seek_suffix {target : String} {next : List Instr} (found : seek target code = some next) : next <:+ code := by
  induction code with
  | nil => cases found
  | cons instr rest ih =>
    by_cases here : instr = .label target
    · subst here
      cases seek_cons_self.symm.trans found
      exact List.suffix_cons ..
    · rw [seek_cons_of_ne here] at found
      exact (ih found).trans (List.suffix_cons ..)

/-- One step of the machine in the given code. A return makes none. -/
inductive Step (env : Environment) (code : List Instr) : Config → Config → Prop
  | effect {instr rest state after} : instr.effect env.cpu state = some after →
      Step env code ⟨instr :: rest, state⟩ ⟨rest, after⟩
  | jmp {target rest state next} : seek target code = some next →
      Step env code ⟨.jmp target :: rest, state⟩ ⟨next, state⟩
  | taken {cc target rest state next} : cc.holds state.flags = true → seek target code = some next →
      Step env code ⟨.jmpCC cc target :: rest, state⟩ ⟨next, state⟩
  | passed {cc target rest state} : cc.holds state.flags = false →
      Step env code ⟨.jmpCC cc target :: rest, state⟩ ⟨rest, state⟩
  | call {name rest state after} : env.calls name state.visible after →
      Step env code ⟨.call name :: rest, state⟩ ⟨rest, after⟩

abbrev Steps (env : Environment) (code : List Instr) : Config → Config → Prop :=
  Relation.ReflTransGen (Step env code)

theorem Step.suffix {before after : Config} (inside : before.rest <:+ code) (step : Step env code before after) :
    after.rest <:+ code := by
  cases step with
  | effect | passed | call => exact (List.suffix_cons ..).trans inside
  | jmp found | taken _ found => exact seek_suffix found

def effects (cpu : Processor) : List Instr → State → Option State
  | [], state => some state
  | instr :: rest, state => (instr.effect cpu state).bind (effects cpu rest)

theorem effects_singleton (cpu : Processor) (instr : Instr) (state : State) :
    effects cpu [instr] state = instr.effect cpu state := by
  exact Option.bind_fun_some _

theorem Steps.effects {state after : State} (run : effects env.cpu block state = some after) :
    Steps env code ⟨block ++ rest, state⟩ ⟨rest, after⟩ := by
  induction block generalizing state with
  | nil =>
    cases Option.some.inj run
    exact .refl
  | cons instr block ih =>
    obtain ⟨middle, first, others⟩ := Option.bind_eq_some_iff.mp run
    exact .head (.effect first) (ih others)

theorem Steps.effects_cons {instr : Instr} {state after : State}
    (run : Machine.effects env.cpu (instr :: block) state = some after) :
    Relation.TransGen (Step env code) ⟨instr :: block ++ rest, state⟩ ⟨rest, after⟩ := by
  obtain ⟨middle, first, others⟩ := Option.bind_eq_some_iff.mp run
  exact .head' (.effect first) (Steps.effects others)

theorem effects_append (cpu : Processor) (first second : List Instr) (state : State) :
    effects cpu (first ++ second) state = (effects cpu first state).bind (effects cpu second) := by
  induction first generalizing state with
  | nil => rfl
  | cons instr rest ih =>
    cases step : instr.effect cpu state with
    | none => simp [effects, step]
    | some middle => simp [effects, step, ih]

/-- The relation between two words that a condition code stands for, once they have been compared. -/
def CondCode.relates (a b : Word) : CondCode → Bool
  | .e => a = b
  | .ne => a ≠ b
  | .g => b.slt a
  | .ge => b.sle a
  | .l => a.slt b
  | .le => a.sle b

theorem Flags.compare_zero (a b : Word) : (Flags.compare a b).zero = decide (a = b) := by
  have equal : a - b = 0 ↔ a = b := sub_eq_zero
  simp only [Flags.compare, equal]

theorem Flags.compare_sign_ne_overflow (a b : Word) :
    ((Flags.compare a b).sign != (Flags.compare a b).overflow) = a.slt b := by
  have boundsA := Word.toInt_bounds a
  have boundsB := Word.toInt_bounds b
  have wrapped : (a - b).toInt = (a.toInt - b.toInt).bmod 4294967296 := BitVec.toInt_sub ..
  simp only [Flags.compare, BitVec.msb_eq_toInt, BitVec.ssubOverflow, BitVec.slt_eq_decide, wrapped]
  rw [Int.bmod_eq_emod]
  by_cases order : a.toInt < b.toInt <;> simp [order] <;> grind

theorem CondCode.holds_compare (a b : Word) (cc : CondCode) :
    cc.holds (.compare a b) = cc.relates a b := by
  have equal := Flags.compare_zero a b
  have order := Flags.compare_sign_ne_overflow a b
  have same : a = b ↔ a.toInt = b.toInt := BitVec.toInt_inj.symm
  have unordered : ((Flags.compare a b).sign == (Flags.compare a b).overflow) = !a.slt b := by
    rw [← order, bne, Bool.not_not]
  cases cc with
  | e => exact equal
  | ne => simp only [holds, relates, equal, ne_eq, decide_not]
  | l => exact order
  | ge =>
    simp only [holds, relates, unordered, BitVec.slt_eq_decide, BitVec.sle_eq_decide]
    rw [← decide_not, decide_eq_decide]
    omega
  | le =>
    simp only [holds, relates, equal, order, same, BitVec.slt_eq_decide, BitVec.sle_eq_decide]
    rw [← Bool.decide_or, decide_eq_decide]
    omega
  | g =>
    simp only [holds, relates, equal, unordered, same, BitVec.slt_eq_decide]
    rw [← decide_not, ← decide_not, ← Bool.decide_and, decide_eq_decide]
    omega

end IntC.Machine
