import IntC.Machine
import IntC.Symbol

namespace IntC.Machine

/-- The names that have a slot in a function's frame, in the order of their slots. -/
abbrev Frame := List String

namespace Frame

/-- Every slot has four bytes, and the slots lie one below the other under the frame pointer. -/
def offset (index : Nat) : Int := -4 * (index + 1)

def size (frame : Frame) : Int := 4 * frame.length

/-- The home of an operand: a pseudo operand becomes data if its name is static, and else the slot of
its name, which is a new one for a new name. -/
def place (table : SymbolTable) (op : Operand) : StateM Frame Operand := do
  match op with
  | .pseudo name =>
    if table.isStatic name then return .data name
    let frame ← get
    match List.idxOf? name frame with
    | some index => return .stack (offset index)
    | none =>
      set (frame ++ [name])
      return .stack (offset frame.length)
  | op => return op

end Frame

/-- Each function has a frame of its own. -/
def Func.assignStorage (table : SymbolTable) (func : Func) : Func :=
  let (instrs, frame) := func.instrs.mapM (Instr.mapOperandsM (Frame.place table)) []
  { func with instrs, stackSize := frame.size }

def Program.assignStorage (table : SymbolTable) (program : Program) : Program :=
  { program with funcs := program.funcs.map (Func.assignStorage table) }

end IntC.Machine
