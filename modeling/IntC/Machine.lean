import IntC.Text.Quoted

namespace IntC.Machine

inductive Reg where
  | ax | cx | dx | di | si | r8 | r9 | r10 | r11
deriving DecidableEq, Repr, Inhabited

namespace Reg

/-- The registers, each at the place of its number. -/
def all : List Reg := [.ax, .cx, .dx, .di, .si, .r8, .r9, .r10, .r11]

/-- The registers of the first arguments of a call, in order. -/
def args : List Reg := [.di, .si, .dx, .cx, .r8, .r9]

def code (reg : Reg) : Nat := all.idxOf reg

end Reg

inductive Operand where
  | imm (value : Int)
  | reg (name : Reg)
  /-- A variable that has no home yet. -/
  | pseudo (name : String)
  /-- An offset from the frame pointer. -/
  | stack (offset : Int)
  | data (name : String)
  /-- No operand at all; only code made by hand holds it. -/
  | absent
deriving DecidableEq, Repr, Inhabited

namespace Operand

def isMemory : Operand → Bool
  | .stack _ | .data _ => true
  | _ => false

def isImm : Operand → Bool
  | .imm _ => true
  | _ => false

end Operand

inductive UnaryOp where
  | neg | not
deriving DecidableEq, Repr, Inhabited

inductive BinaryOp where
  | add | sub | mult
deriving DecidableEq, Repr, Inhabited

inductive CondCode where
  | e | ne | g | ge | l | le
deriving DecidableEq, Repr, Inhabited

def UnaryOp.code : UnaryOp → Nat
  | .neg => 0
  | .not => 1

def BinaryOp.code : BinaryOp → Nat
  | .add => 0
  | .sub => 1
  | .mult => 2

namespace CondCode

/-- The condition codes, each at the place of its number. -/
def all : List CondCode := [.e, .ne, .g, .ge, .l, .le]

def code (cc : CondCode) : Nat := all.idxOf cc

def suffix : CondCode → String
  | .e => "e"
  | .ne => "ne"
  | .g => "g"
  | .ge => "ge"
  | .l => "l"
  | .le => "le"

end CondCode

inductive Instr where
  | mov (source dest : Operand)
  | unary (op : UnaryOp) (dest : Operand)
  | binary (op : BinaryOp) (source dest : Operand)
  /-- Sets the flags from `dest - source`. -/
  | cmp (source dest : Operand)
  | idiv (source : Operand)
  | cdq
  | jmp (target : String)
  | jmpCC (cc : CondCode) (target : String)
  | setCC (cc : CondCode) (dest : Operand)
  | label (name : String)
  | allocate (bytes : Int)
  | deallocate (bytes : Int)
  | push (source : Operand)
  | call (name : String)
  | ret
deriving DecidableEq, Repr, Inhabited

namespace Instr

def operands : Instr → List Operand
  | .mov source dest | .binary _ source dest | .cmp source dest => [source, dest]
  | .unary _ dest | .setCC _ dest => [dest]
  | .idiv source | .push source => [source]
  | .cdq | .jmp _ | .jmpCC .. | .label _ | .allocate _ | .deallocate _ | .call _ | .ret => []

/-- Replaces the operands, sources before destinations, and keeps all else. -/
def mapOperandsM {m : Type → Type} [Monad m] (f : Operand → m Operand) : Instr → m Instr
  | .mov source dest => do
    let source ← f source
    return .mov source (← f dest)
  | .unary op dest => return .unary op (← f dest)
  | .binary op source dest => do
    let source ← f source
    return .binary op source (← f dest)
  | .cmp source dest => do
    let source ← f source
    return .cmp source (← f dest)
  | .idiv source => return .idiv (← f source)
  | .setCC cc dest => return .setCC cc (← f dest)
  | .push source => return .push (← f source)
  | instr => return instr

end Instr

structure Func where
  name : String
  global : Bool
  instrs : List Instr
  stackSize : Int := 0
deriving DecidableEq, Repr, Inhabited

structure StaticVar where
  name : String
  global : Bool
  init : Int
deriving DecidableEq, Repr, Inhabited

structure Program where
  statics : List StaticVar
  funcs : List Func
deriving DecidableEq, Repr, Inhabited

/-- The plain form of an operand in messages: numbers as they are, names in quotes. -/
def Operand.shown : Operand → String
  | .imm value => toString value
  | .reg r => toString r.code
  | .pseudo name => quoted name
  | .stack offset => toString offset
  | .data name => quoted name
  | .absent => "asm.Operand(nil)"

/-- Field by field, in braces behind the name of the record. -/
def shownRecord (name : String) (fields : List (String × String)) : String :=
  "asm." ++ name ++ "\x7b" ++ ", ".intercalate (fields.map fun (key, value) => key ++ ":" ++ value)
    ++ "\x7d"

/-- The plain form of an instruction with operands in messages. -/
def Instr.shown : Instr → String
  | .mov source dest => shownRecord "Mov" [("Src", source.shown), ("Dst", dest.shown)]
  | .unary op dest => shownRecord "Unary" [("Op", toString op.code), ("Dst", dest.shown)]
  | .binary op source dest =>
    shownRecord "Binary" [("Op", toString op.code), ("Src", source.shown), ("Dst", dest.shown)]
  | .cmp source dest => shownRecord "Cmp" [("Src", source.shown), ("Dst", dest.shown)]
  | .idiv source => shownRecord "Idiv" [("Src", source.shown)]
  | .setCC cc dest => shownRecord "SetCC" [("CC", toString cc.code), ("Dst", dest.shown)]
  | .push source => shownRecord "Push" [("Src", source.shown)]
  | .cdq => shownRecord "Cdq" []
  | .jmp target => shownRecord "Jmp" [("Target", quoted target)]
  | .jmpCC cc target => shownRecord "JmpCC" [("CC", toString cc.code), ("Target", quoted target)]
  | .label name => shownRecord "Label" [("Name", quoted name)]
  | .allocate bytes => shownRecord "AllocateStack" [("Bytes", toString bytes)]
  | .deallocate bytes => shownRecord "DeallocateStack" [("Bytes", toString bytes)]
  | .call name => shownRecord "Call" [("Name", quoted name)]
  | .ret => shownRecord "Ret" []

end IntC.Machine
