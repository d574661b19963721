import IntC.Machine

namespace IntC.Machine

/-- How a target spells symbols and calls. -/
structure Naming where
  symbolPrefix : String := ""
  labelPrefix : String := ".L"
  /-- Whether a note says that the stack is not executable. -/
  stackNote : Bool := true
  /-- Whether functions defined elsewhere are called through the linkage table. -/
  linkageTable : Bool := true
deriving DecidableEq, Repr, Inhabited

inductive Width where
  | byte | long | quad
deriving DecidableEq, Repr, Inhabited

def Reg.name : Width → Reg → String
  | .long, .ax => "%eax"
  | .long, .cx => "%ecx"
  | .long, .dx => "%edx"
  | .long, .di => "%edi"
  | .long, .si => "%esi"
  | .long, .r8 => "%r8d"
  | .long, .r9 => "%r9d"
  | .long, .r10 => "%r10d"
  | .long, .r11 => "%r11d"
  | .byte, .ax => "%al"
  | .byte, .cx => "%cl"
  | .byte, .dx => "%dl"
  | .byte, .di => "%dil"
  | .byte, .si => "%sil"
  | .byte, .r8 => "%r8b"
  | .byte, .r9 => "%r9b"
  | .byte, .r10 => "%r10b"
  | .byte, .r11 => "%r11b"
  | .quad, .ax => "%rax"
  | .quad, .cx => "%rcx"
  | .quad, .dx => "%rdx"
  | .quad, .di => "%rdi"
  | .quad, .si => "%rsi"
  | .quad, .r8 => "%r8"
  | .quad, .r9 => "%r9"
  | .quad, .r10 => "%r10"
  | .quad, .r11 => "%r11"

def Operand.text (naming : Naming) (width : Width) : Operand → String
  | .imm value => "$" ++ toString value
  | .reg r => r.name width
  | .stack offset => toString offset ++ "(%rbp)"
  | .data name => naming.symbolPrefix ++ name ++ "(%rip)"
  | .pseudo _ | .absent => "?"

def UnaryOp.mnemonic : UnaryOp → String
  | .neg => "negl"
  | .not => "notl"

def BinaryOp.mnemonic : BinaryOp → String
  | .add => "addl"
  | .sub => "subl"
  | .mult => "imull"

/-- A line of its own for an instruction or a directive. -/
def codeLine (text : String) : String := "\t" ++ text ++ "\n"

def labelLine (name : String) : String := name ++ ":\n"

/-- The name under which a function is called, where the given functions are defined. -/
def callTarget (naming : Naming) (defined : List String) (name : String) : String :=
  if naming.linkageTable && !defined.contains name then naming.symbolPrefix ++ name ++ "@PLT"
  else naming.symbolPrefix ++ name

def Instr.text (naming : Naming) (defined : List String) : Instr → String
  | .mov source dest =>
    codeLine ("movl " ++ source.text naming .long ++ ", " ++ dest.text naming .long)
  | .unary op dest => codeLine (op.mnemonic ++ " " ++ dest.text naming .long)
  | .binary op source dest =>
    codeLine (op.mnemonic ++ " " ++ source.text naming .long ++ ", " ++ dest.text naming .long)
  | .cmp source dest =>
    codeLine ("cmpl " ++ source.text naming .long ++ ", " ++ dest.text naming .long)
  | .idiv source => codeLine ("idivl " ++ source.text naming .long)
  | .cdq => codeLine "cdq"
  | .jmp target => codeLine ("jmp " ++ naming.labelPrefix ++ target)
  | .jmpCC cc target => codeLine ("j" ++ cc.suffix ++ " " ++ naming.labelPrefix ++ target)
  | .setCC cc dest => codeLine ("set" ++ cc.suffix ++ " " ++ dest.text naming .byte)
  | .label name => labelLine (naming.labelPrefix ++ name)
  | .allocate bytes => codeLine ("subq $" ++ toString bytes ++ ", %rsp")
  | .deallocate bytes => codeLine ("addq $" ++ toString bytes ++ ", %rsp")
  | .push source => codeLine ("pushq " ++ source.text naming .quad)
  | .call name => codeLine ("call " ++ callTarget naming defined name)
  | .ret => codeLine "movq %rbp, %rsp" ++ codeLine "popq %rbp" ++ codeLine "ret"

def globalLine (symbol : String) (global : Bool) : String :=
  if global then codeLine (".globl " ++ symbol) else ""

def StaticVar.text (naming : Naming) (var : StaticVar) : String :=
  let symbol := naming.symbolPrefix ++ var.name
  globalLine symbol var.global ++
    if var.init = 0 then
      codeLine ".bss" ++ codeLine ".balign 4" ++ labelLine symbol ++ codeLine ".zero 4"
    else
      codeLine ".data" ++ codeLine ".balign 4" ++ labelLine symbol
        ++ codeLine (".long " ++ toString var.init)

def Func.text (naming : Naming) (defined : List String) (func : Func) : String :=
  let symbol := naming.symbolPrefix ++ func.name
  globalLine symbol func.global ++ codeLine ".text" ++ labelLine symbol
    ++ codeLine "pushq %rbp" ++ codeLine "movq %rsp, %rbp"
    ++ String.join (func.instrs.map (Instr.text naming defined))

/-- The program as assembly text: variables first, then functions. -/
def Program.text (naming : Naming) (program : Program) : String :=
  let defined := program.funcs.map Func.name
  String.join (program.statics.map (StaticVar.text naming))
    ++ String.join (program.funcs.map (Func.text naming defined))
    ++ (if naming.stackNote then codeLine ".section .note.GNU-stack,\"\",@progbits" else "")

end IntC.Machine
