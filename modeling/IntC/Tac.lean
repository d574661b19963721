namespace IntC.Tac

/-- An operand of three-address code. -/
inductive Value where
  | const (value : Int)
  | var (name : String)
  /-- No operand at all; only code made by hand holds it. -/
  | absent
deriving DecidableEq, Repr, Inhabited

inductive UnaryOp where
  | complement | negate | not
deriving DecidableEq, Repr, Inhabited

inductive BinaryOp where
  | add | sub | mul | div | rem
  | eq | ne | lt | le | gt | ge
deriving DecidableEq, Repr, Inhabited

namespace UnaryOp

def sign : UnaryOp → String
  | .complement => "~"
  | .negate => "-"
  | .not => "!"

end UnaryOp

namespace BinaryOp

def sign : BinaryOp → String
  | .add => "+"
  | .sub => "-"
  | .mul => "*"
  | .div => "/"
  | .rem => "%"
  | .eq => "=="
  | .ne => "!="
  | .lt => "<"
  | .le => "<="
  | .gt => ">"
  | .ge => ">="

def isRelational : BinaryOp → Bool
  | .add | .sub | .mul | .div | .rem => false
  | .eq | .ne | .lt | .le | .gt | .ge => true

end BinaryOp

/-- What an instruction does, without its operands. -/
inductive Opcode where
  | ret | copy | jump | jumpIfZero | jumpIfNotZero | label | call
  | unary (op : UnaryOp)
  | binary (op : BinaryOp)
  | unknown (code : Int)
deriving DecidableEq, Repr, Inhabited

namespace Opcode

/-- The known operations, each at the place of its number. -/
def all : List Opcode := [
  .ret, .copy, .jump, .jumpIfZero, .jumpIfNotZero, .label, .call,
  .unary .complement, .unary .negate, .unary .not,
  .binary .add, .binary .sub, .binary .mul, .binary .div, .binary .rem,
  .binary .eq, .binary .ne, .binary .lt, .binary .le, .binary .gt, .binary .ge]

def ofCode (code : Int) : Opcode :=
  match code with
  | .ofNat n => all.getD n (.unknown code)
  | .negSucc _ => .unknown code

def name : Opcode → String
  | .ret => "return"
  | .copy => "copy"
  | .jump => "jump"
  | .jumpIfZero => "jz"
  | .jumpIfNotZero => "jnz"
  | .label => "label"
  | .call => "call"
  | .unary op => op.sign
  | .binary op => op.sign
  | .unknown code => "op(" ++ toString code ++ ")"

def isUnary : Opcode → Bool
  | .unary _ => true
  | _ => false

def isBinary : Opcode → Bool
  | .binary _ => true
  | _ => false

def isRelational : Opcode → Bool
  | .binary op => op.isRelational
  | _ => false

end Opcode

/-- One step of three-address code. Control moves only by labels and jumps. -/
inductive Instr where
  | ret (value : Value)
  | copy (source dest : Value)
  | jump (target : String)
  | jumpIfZero (cond : Value) (target : String)
  | jumpIfNotZero (cond : Value) (target : String)
  | label (name : String)
  | call (callee : String) (args : List Value) (dest : Value)
  | unary (op : UnaryOp) (source dest : Value)
  | binary (op : BinaryOp) (left right dest : Value)
  -- Only code made by hand holds the others.
  | unknown (code : Int)
  /-- An operation that has only so many operands, and needs more. -/
  | lacking (operands : Nat)
  /-- Names a variable as a result and does nothing. -/
  | mention (name : String)
deriving DecidableEq, Repr, Inhabited

/-- The value that an instruction names as its result, if it has one. -/
def Instr.dest? : Instr → Option Value
  | .copy _ dest | .call _ _ dest | .unary _ _ dest | .binary _ _ _ dest => some dest
  | .mention name => some (.var name)
  | _ => none

structure Func where
  name : String
  global : Bool
  params : List String
  body : List Instr
deriving DecidableEq, Repr, Inhabited

/-- A variable with static storage and the value it starts with. -/
structure StaticVar where
  name : String
  global : Bool
  init : Int
deriving DecidableEq, Repr, Inhabited

structure Program where
  statics : List StaticVar
  funcs : List Func
deriving DecidableEq, Repr, Inhabited

end IntC.Tac
