import IntC.Tac

namespace IntC.Tac

def Value.text : Value → String
  | .const value => toString value
  | .var name => name
  | .absent => "%!s(<nil>)"

/-- Why an instruction cannot be written out. -/
inductive Unwritable where
  | operandMissing (operands : Nat)
  | operandAbsent
  | negativeCode (code : Int)
deriving DecidableEq, Repr, Inhabited

def Unwritable.message : Unwritable → String
  | .operandMissing operands =>
    "index out of range [" ++ toString operands ++ "] with length " ++ toString operands
  | .operandAbsent => "invalid memory address or nil pointer dereference"
  | .negativeCode code => "index out of range [" ++ toString code ++ "]"

/-- What stands for a text that cannot be written, where a text of the given form was wanted. -/
def Unwritable.text (form : String) (why : Unwritable) : String :=
  "%!" ++ form ++ "(PANIC=String method: runtime error: " ++ why.message ++ ")"

/-- The operand of an instruction that cannot be written without it. -/
def Value.needed : Value → Except Unwritable String
  | .absent => .error .operandAbsent
  | value => .ok value.text

/-- The name of an operation that is not known; it is known by its number, unless that is negative. -/
def unknownName (code : Int) : Except Unwritable String :=
  if code < 0 then .error (.negativeCode code) else .ok (Opcode.unknown code).name

def Instr.written : Instr → Except Unwritable String
  | .ret value => return "return " ++ (← value.needed)
  | .copy source dest => return dest.text ++ " = " ++ source.text
  | .jump target => return "jump " ++ target
  | .jumpIfZero cond target => return "jz " ++ cond.text ++ ", " ++ target
  | .jumpIfNotZero cond target => return "jnz " ++ cond.text ++ ", " ++ target
  | .label name => return name ++ ":"
  | .call callee args dest => do
    let args ← args.mapM Value.needed
    return dest.text ++ " = " ++ callee ++ "(" ++ ", ".intercalate args ++ ")"
  | .unary op source dest => return dest.text ++ " = " ++ op.sign ++ source.text
  | .binary op left right dest =>
    return dest.text ++ " = " ++ left.text ++ " " ++ op.sign ++ " " ++ right.text
  | .unknown code => unknownName code
  | .lacking operands => .error (.operandMissing operands)
  | .mention _ => return ""

def Instr.text (instr : Instr) : String :=
  match instr.written with
  | .ok text => text
  | .error why => why.text "s"

def Instr.isMention : Instr → Bool
  | .mention _ => true
  | _ => false

/-- Labels are indented less than the other instructions; a mention has no line. -/
def Instr.line (instr : Instr) : String :=
  match instr with
  | .label _ => "  " ++ instr.text ++ "\n"
  | .mention _ => ""
  | _ => "    " ++ instr.text ++ "\n"

def linkage (global : Bool) : String := if global then "global " else ""

def StaticVar.line (var : StaticVar) : String :=
  linkage var.global ++ "static " ++ var.name ++ " = " ++ toString var.init ++ "\n"

/-- The instructions of a function, each written out. -/
def Func.lines (func : Func) : List String :=
  (func.body.filter fun instr => !instr.isMention).map Instr.text

def Func.listing (func : Func) : String :=
  "\n" ++ linkage func.global ++ "function " ++ func.name ++ "(" ++ ", ".intercalate func.params
    ++ "):\n" ++ String.join (func.body.map Instr.line)

/-- A readable text of a program, one instruction per line. -/
def Program.listing (program : Program) : String :=
  String.join (program.statics.map StaticVar.line) ++ String.join (program.funcs.map Func.listing)

end IntC.Tac
