import IntC.Error
import IntC.Machine
import IntC.Number.Word

namespace IntC.Machine

/-- The next multiple of the alignment, in the arithmetic of signed words of 64 bits that divides
toward zero. An alignment that is not positive leaves the number as it is. -/
def roundUp (n align : Int) : Int :=
  if align ≤ 0 then n
  else Number.toWord ((Number.toWord (n + align - 1)).tdiv align * align)

/-- The first pseudo operand of an instruction. -/
def Instr.pseudo? (instr : Instr) : Option String :=
  instr.operands.findSome? fun op =>
    match op with
    | .pseudo name => some name
    | _ => none

/-- The encodable instructions that do the work of one. Two scratch registers serve for that: one
takes a source out of memory, the other stands in for a destination. -/
def Instr.encodable (instr : Instr) : List Instr :=
  match instr with
  | .mov source dest =>
    if source.isMemory && dest.isMemory then [.mov source (.reg .r10), .mov (.reg .r10) dest]
    else [instr]
  | .idiv source =>
    if source.isImm then [.mov source (.reg .r10), .idiv (.reg .r10)] else [instr]
  | .binary .mult source dest =>
    [.mov dest (.reg .r11), .binary .mult source (.reg .r11), .mov (.reg .r11) dest]
  | .binary op source dest =>
    if source.isMemory && dest.isMemory then [.mov source (.reg .r10), .binary op (.reg .r10) dest]
    else [instr]
  | .cmp source dest =>
    if source.isMemory && dest.isMemory then [.mov source (.reg .r10), .cmp (.reg .r10) dest]
    else if dest.isImm then [.mov dest (.reg .r11), .cmp source (.reg .r11)]
    else [instr]
  | _ => [instr]

def Instr.legalize (instr : Instr) : Except Error (List Instr) :=
  match instr.pseudo? with
  | some name => .error (.ofBreach (.pseudoLeft name instr.shown))
  | none => .ok instr.encodable

/-- Reserves the frame and makes every instruction encodable. -/
def Func.legalize (align : Int) (func : Func) : Except Error Func := do
  let code ← func.instrs.mapM Instr.legalize
  return { func with instrs := .allocate (roundUp func.stackSize align) :: code.flatten }

/-- The alignment of a frame where nothing else is said. -/
def defaultAlignment : Int := 16

def Program.legalize (align : Int) (program : Program) : Except Error Program := do
  return { program with funcs := ← program.funcs.mapM (Func.legalize align) }

end IntC.Machine
