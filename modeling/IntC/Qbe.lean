import IntC.Error
import IntC.Symbol
import IntC.Tac.Listing

namespace IntC.Qbe

open Tac (Value)

/-- What writing a function changes: the number of temporaries and blocks made so far, and whether the
block before is closed, so that a new one has to be opened. -/
structure Writing where
  count : Nat := 0
  closed : Bool := false
deriving DecidableEq, Repr, Inhabited

abbrev Write := StateM Writing

def number : Write Nat :=
  modifyGet fun state => (state.count + 1, { state with count := state.count + 1 })

def temp : Write String := return "%.q" ++ toString (← number)

def block : Write String := return "@.b" ++ toString (← number)

/-- Closes the block, or opens one. -/
def setClosed (closed : Bool) : Write Unit := modify fun state => { state with closed }

def exported (global : Bool) : String := if global then "export " else ""

/-- The data definition of a variable; a zero needs no contents. -/
def dataLine (wordSize : Int) (var : Tac.StaticVar) : String :=
  let contents :=
    if var.init = 0 then "z " ++ toString wordSize else "w " ++ toString var.init
  exported var.global ++ "data $" ++ var.name ++ " = align " ++ toString wordSize ++ " \x7b "
    ++ contents ++ " \x7d\n"

/-- The lines that a value needs before it can be used, and how it is then written. A variable with
static storage is loaded first. -/
def operand (table : SymbolTable) : Value → Write (String × String)
  | .const value => return ("", toString value)
  | .var name => do
    if table.isStatic name then
      let loaded ← temp
      return ("\t" ++ loaded ++ " =w loadw $" ++ name ++ "\n", loaded)
    else return ("", "%" ++ name)
  | .absent => return ("", "")

def operands (table : SymbolTable) : List Value → Write (String × List String)
  | [] => return ("", [])
  | value :: rest => do
    let (lines, text) ← operand table value
    let (more, texts) ← operands table rest
    return (lines ++ more, text :: texts)

/-- The lines that put a result into its destination; a static one is stored from a temporary. -/
def assign (table : SymbolTable) (dest : Value) (result : String) : Write String := do
  match dest with
  | .var name =>
    if table.isStatic name then
      let made ← temp
      return "\t" ++ made ++ " =w " ++ result ++ "\n\tstorew " ++ made ++ ", $" ++ name ++ "\n"
    else return "\t%" ++ name ++ " =w " ++ result ++ "\n"
  | .const _ | .absent => return ""

def operation : Tac.BinaryOp → String
  | .add => "add"
  | .sub => "sub"
  | .mul => "mul"
  | .div => "div"
  | .rem => "rem"
  | .eq => "ceqw"
  | .ne => "cnew"
  | .lt => "csltw"
  | .le => "cslew"
  | .gt => "csgtw"
  | .ge => "csgew"

def unaryResult (source : String) : Tac.UnaryOp → String
  | .negate => "neg " ++ source
  | .complement => "xor " ++ source ++ ", -1"
  | .not => "ceqw " ++ source ++ ", 0"

def openBlock : Write String := do
  if (← get).closed then
    let name ← block
    setClosed false
    return name ++ "\n"
  else return ""

/-- A conditional jump ends its block: the next one has a new name. -/
def branch (table : SymbolTable) (cond : Value) (targets : String → String) : Write String := do
  let (lines, cond) ← operand table cond
  let next ← block
  return lines ++ "\tjnz " ++ cond ++ ", " ++ targets next ++ "\n" ++ next ++ "\n"

/-- The lines of one instruction, apart from those that open a block; none for an unknown or
incomplete one. -/
def body (table : SymbolTable) : Tac.Instr → Write (Option String)
  | .label name => return some ("@" ++ name ++ "\n")
  | .ret value => do
    let (lines, text) ← operand table value
    setClosed true
    return some (lines ++ "\tret " ++ text ++ "\n")
  | .jump target => do
    setClosed true
    return some ("\tjmp @" ++ target ++ "\n")
  | .jumpIfZero cond target => some <$> branch table cond fun next => next ++ ", @" ++ target
  | .jumpIfNotZero cond target => some <$> branch table cond fun next => "@" ++ target ++ ", " ++ next
  | .copy source dest => do
    let (lines, text) ← operand table source
    return some (lines ++ (← assign table dest ("copy " ++ text)))
  | .call callee args dest => do
    let (lines, texts) ← operands table args
    let result := "call $" ++ callee ++ "(" ++ ", ".intercalate (texts.map ("w " ++ ·)) ++ ")"
    return some (lines ++ (← assign table dest result))
  | .unary op source dest => do
    let (lines, text) ← operand table source
    return some (lines ++ (← assign table dest (unaryResult text op)))
  | .binary op left right dest => do
    let (leftLines, left) ← operand table left
    let (rightLines, right) ← operand table right
    let result := operation op ++ " " ++ left ++ ", " ++ right
    return some (leftLines ++ rightLines ++ (← assign table dest result))
  | .mention _ => return some ""
  | .unknown _ | .lacking _ => return none

/-- The lines of one instruction. A label opens a block itself, and a mention needs none. -/
def instr (table : SymbolTable) (code : Tac.Instr) : ExceptT Error Write String := do
  let opening ←
    match code with
    | .label _ => do
      setClosed false
      pure ""
    | .mention _ => pure ""
    | _ => openBlock
  match ← body table code with
  | some lines => return opening ++ lines
  | none => throw ⟨.unsupportedInstruction code.text, {}⟩

/-- The variables that a function names as results and that live in temporaries, parameters apart,
each once. -/
def written (table : SymbolTable) (func : Tac.Func) : List String :=
  (func.body.filterMap fun code =>
    match code.dest? with
    | some (.var name) =>
      if func.params.contains name || table.isStatic name then none else some name
    | _ => none).eraseDups

/-- All temporaries are set to zero at the start, so that each is defined wherever it is read. -/
def func (table : SymbolTable) (code : Tac.Func) : ExceptT Error Write String := do
  setClosed false
  let params := ", ".intercalate (code.params.map ("w %" ++ ·))
  let zeros := (written table code).map fun name => "\t%" ++ name ++ " =w copy 0\n"
  let lines ← code.body.mapM (instr table)
  return "\n" ++ exported code.global ++ "function w $" ++ code.name ++ "(" ++ params ++ ") \x7b\n@start\n"
    ++ String.join zeros ++ String.join lines ++ "\x7d\n"

/-- The whole program as intermediate language text. Every value is a word. -/
def program (table : SymbolTable) (wordSize : Int) (code : Tac.Program) : Except Error String := do
  let (outcome, _) := code.funcs.mapM (func table) {}
  let funcs ← outcome
  return String.join (code.statics.map (dataLine wordSize)) ++ String.join funcs

end IntC.Qbe
