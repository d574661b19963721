import IntC.Error
import IntC.Machine
import IntC.Tac.Listing

namespace IntC

open Machine (Reg Operand CondCode)

namespace Machine

/-- The machine operand of a value; variables become pseudo operands. -/
def operand (func : String) : Tac.Value → Except Error Operand
  | .const value => .ok (.imm value)
  | .var name => .ok (.pseudo name)
  | .absent => .error (.ofBreach (.absentOperand func))

/-- Pushes one argument. A variable goes through a register, since its slot is narrower than what a
push reads. -/
def pushArg (arg : Operand) : List Instr :=
  match arg with
  | .imm _ | .reg _ => [.push arg]
  | _ => [.mov arg (.reg .ax), .push (.reg .ax)]

/-- The first six arguments go into registers; the others are pushed from the last to the seventh,
above eight bytes of padding if their number is odd. -/
def call (callee : String) (args : List Operand) (dest : Operand) : List Instr :=
  let inRegisters := List.zipWith (fun arg reg => Instr.mov arg (.reg reg)) args Reg.args
  let onStack := args.drop Reg.args.length
  let padding := if onStack.length % 2 = 1 then 8 else 0
  let pushed := 8 * onStack.length + padding
  (if padding = 0 then [] else [.allocate padding])
    ++ inRegisters
    ++ onStack.reverse.flatMap pushArg
    ++ [.call callee]
    ++ (if pushed = 0 then [] else [.deallocate pushed])
    ++ [.mov (.reg .ax) dest]

/-- The instructions for one step of three-address code in the function of the given name. -/
def selectInstr (func : String) : Tac.Instr → Except Error (List Instr)
  | .ret value => return [.mov (← operand func value) (.reg .ax), .ret]
  | .copy source dest => return [.mov (← operand func source) (← operand func dest)]
  | .jump target => return [.jmp target]
  | .jumpIfZero cond target => return [.cmp (.imm 0) (← operand func cond), .jmpCC .e target]
  | .jumpIfNotZero cond target => return [.cmp (.imm 0) (← operand func cond), .jmpCC .ne target]
  | .label name => return [.label name]
  | .call callee args dest => do
    let args ← args.mapM (operand func)
    return call callee args (← operand func dest)
  | .unary .not source dest => do
    let dest ← operand func dest
    return [.cmp (.imm 0) (← operand func source), .mov (.imm 0) dest, .setCC .e dest]
  | .unary .negate source dest => do
    let dest ← operand func dest
    return [.mov (← operand func source) dest, .unary .neg dest]
  | .unary .complement source dest => do
    let dest ← operand func dest
    return [.mov (← operand func source) dest, .unary .not dest]
  | .binary op left right dest => do
    let left ← operand func left
    let right ← operand func right
    let dest ← operand func dest
    return match op with
      | .add => [.mov left dest, .binary .add right dest]
      | .sub => [.mov left dest, .binary .sub right dest]
      | .mul => [.mov left dest, .binary .mult right dest]
      | .div => [.mov left (.reg .ax), .cdq, .idiv right, .mov (.reg .ax) dest]
      | .rem => [.mov left (.reg .ax), .cdq, .idiv right, .mov (.reg .dx) dest]
      | .eq => [.cmp right left, .mov (.imm 0) dest, .setCC .e dest]
      | .ne => [.cmp right left, .mov (.imm 0) dest, .setCC .ne dest]
      | .lt => [.cmp right left, .mov (.imm 0) dest, .setCC .l dest]
      | .le => [.cmp right left, .mov (.imm 0) dest, .setCC .le dest]
      | .gt => [.cmp right left, .mov (.imm 0) dest, .setCC .g dest]
      | .ge => [.cmp right left, .mov (.imm 0) dest, .setCC .ge dest]
  | .unknown code =>
    let name := match Tac.unknownName code with
      | .ok name => quoted name
      | .error why => why.text "q"
    throw (.ofBreach (.operation func name))
  | .lacking _ => throw (.ofBreach (.absentOperand func))
  | .mention _ => return []

/-- Where a function finds its parameters: in the argument registers, then above the return address
and the saved frame pointer. -/
def incoming : List Operand → List Operand → Nat → List Operand
  | _, [], _ => []
  | reg :: regs, _ :: rest, index => reg :: incoming regs rest index
  | [], _ :: rest, index => .stack (16 + 8 * index) :: incoming [] rest (index + 1)

def paramMoves (params : List String) : List Instr :=
  let homes := params.map Operand.pseudo
  List.zipWith Instr.mov (incoming (Reg.args.map .reg) homes 0) homes

def selectFunc (func : Tac.Func) : Except Error Func := do
  let body ← func.body.mapM (selectInstr func.name)
  return { name := func.name, global := func.global, instrs := paramMoves func.params ++ body.flatten }

/-- Turns three-address code into machine code over pseudo operands. -/
def select (program : Tac.Program) : Except Error Program := do
  let funcs ← program.funcs.mapM selectFunc
  return { statics := program.statics.map fun var => ⟨var.name, var.global, var.init⟩, funcs }

end Machine

end IntC
