import IntC.Name
import IntC.Pass
import IntC.Symbol
import IntC.Tac

namespace IntC

open Tac (Value Instr UnaryOp BinaryOp)

/-- A step of lowering; only names are used up. -/
abbrev Lower := Pass NameSupply

namespace Lower

def temp : Lower Value := .var <$> modifyGet fun names => names.temp

def label (stem : String) : Lower String := modifyGet fun names => names.fresh stem

end Lower

/-- Where `break` leads in the loop with the given id. -/
def breakTarget (loop : String) : String := "break." ++ loop

/-- Where `continue` leads in the loop with the given id. -/
def continueTarget (loop : String) : String := "continue." ++ loop

def unaryOp? : TokenKind → Option UnaryOp
  | .tilde => some .complement
  | .minus => some .negate
  | .bang => some .not
  | _ => none

def binaryOp? : TokenKind → Option BinaryOp
  | .plus => some .add
  | .minus => some .sub
  | .star => some .mul
  | .slash => some .div
  | .percent => some .rem
  | .eqEq => some .eq
  | .notEq => some .ne
  | .less => some .lt
  | .lessEq => some .le
  | .greater => some .gt
  | .greaterEq => some .ge
  | _ => none

/-- An operator that may settle its result before its right operand. -/
inductive ShortCircuit where
  | and | or
deriving DecidableEq, Repr, Inhabited

namespace ShortCircuit

def ofKind? : TokenKind → Option ShortCircuit
  | .andAnd => some .and
  | .orOr => some .or
  | _ => none

def shortStem : ShortCircuit → String
  | .and => "and_false"
  | .or => "or_true"

def endStem : ShortCircuit → String
  | .and => "and_end"
  | .or => "or_end"

/-- The jump taken when an operand settles the result. -/
def leave : ShortCircuit → Value → String → Instr
  | .and => .jumpIfZero
  | .or => .jumpIfNotZero

def shortValue : ShortCircuit → Int
  | .and => 0
  | .or => 1

def fullValue : ShortCircuit → Int
  | .and => 1
  | .or => 0

end ShortCircuit

mutual

/-- The code that evaluates an expression, and where its value is afterwards. -/
def Expr.lower : Expr → Lower (List Instr × Value)
  | .number _ value => return ([], .const value)
  | .ident _ name => return ([], .var name)
  | .unary _ op operand =>
    match unaryOp? op with
    | none => Pass.breach (.unaryOperator op)
    | some op => do
      let (code, source) ← operand.lower
      let dest ← Lower.temp
      return (code ++ [.unary op source dest], dest)
  | .binary _ op left right =>
    match ShortCircuit.ofKind? op with
    | some op => do
      let short ← Lower.label op.shortStem
      let done ← Lower.label op.endStem
      let dest ← Lower.temp
      let (leftCode, leftValue) ← left.lower
      let (rightCode, rightValue) ← right.lower
      return (leftCode ++ [op.leave leftValue short] ++ rightCode ++ [
        op.leave rightValue short,
        .copy (.const op.fullValue) dest,
        .jump done,
        .label short,
        .copy (.const op.shortValue) dest,
        .label done], dest)
    | none =>
      match binaryOp? op with
      | none => Pass.breach (.binaryOperator op)
      | some op => do
        let (leftCode, leftValue) ← left.lower
        let (rightCode, rightValue) ← right.lower
        let dest ← Lower.temp
        return (leftCode ++ rightCode ++ [.binary op leftValue rightValue dest], dest)
  | .assign _ (.ident _ name) value => do
    let (code, source) ← value.lower
    return (code ++ [.copy source (.var name)], .var name)
  | .assign _ target _ => Pass.breach (.assignmentTo target.kind)
  | .conditional _ cond yes no => do
    let (condCode, condValue) ← cond.lower
    let other ← Lower.label "conditional_else"
    let (yesCode, yesValue) ← yes.lower
    let dest ← Lower.temp
    let done ← Lower.label "conditional_end"
    let (noCode, noValue) ← no.lower
    return (condCode ++ [.jumpIfZero condValue other] ++ yesCode
      ++ [.copy yesValue dest, .jump done, .label other] ++ noCode
      ++ [.copy noValue dest, .label done], dest)
  | .call _ name args => do
    let (code, values) ← lowerArgs args
    let dest ← Lower.temp
    return (code ++ [.call name values dest], dest)
  | .misplaced node => Pass.breach (.expression node.kind)

def lowerArgs : List Expr → Lower (List Instr × List Value)
  | [] => return ([], [])
  | arg :: rest => do
    let (code, value) ← arg.lower
    let (more, values) ← lowerArgs rest
    return (code ++ more, value :: values)

end

/-- Only an automatic variable with an initializer needs code. -/
def VarDecl.lower (decl : VarDecl) : Lower (List Instr) :=
  match decl.storage, decl.init with
  | .automatic, some init => do
    let (code, value) ← init.lower
    return code ++ [.copy value (.var decl.name)]
  | _, _ => return []

/-- The code of the first part of a `for` header. -/
def ForInit.lower : ForInit → Lower (List Instr)
  | .none => return []
  | .var decl => decl.lower
  | .expr value => return (← value.lower).1

mutual

def Stmt.lower : Stmt → Lower (List Instr)
  | .ret _ value => do
    let (code, value) ← value.lower
    return code ++ [.ret value]
  | .expr _ value => return (← value.lower).1
  | .branch _ cond yes none => do
    let (condCode, condValue) ← cond.lower
    let done ← Lower.label "if_end"
    let yesCode ← yes.lower
    return condCode ++ [.jumpIfZero condValue done] ++ yesCode ++ [.label done]
  | .branch _ cond yes (some no) => do
    let (condCode, condValue) ← cond.lower
    let other ← Lower.label "else"
    let yesCode ← yes.lower
    let done ← Lower.label "if_else_end"
    let noCode ← no.lower
    return condCode ++ [.jumpIfZero condValue other] ++ yesCode ++ [.jump done, .label other]
      ++ noCode ++ [.label done]
  | .block body => body.lower
  | .breakLoop _ loop => return [.jump (breakTarget loop)]
  | .continueLoop _ loop => return [.jump (continueTarget loop)]
  | .whileLoop _ cond body loop => do
    let (condCode, condValue) ← cond.lower
    let bodyCode ← body.lower
    return [.label (continueTarget loop)] ++ condCode ++ [.jumpIfZero condValue (breakTarget loop)]
      ++ bodyCode ++ [.jump (continueTarget loop), .label (breakTarget loop)]
  | .doLoop _ body cond loop => do
    let start ← Lower.label "do_loop_start"
    let bodyCode ← body.lower
    let (condCode, condValue) ← cond.lower
    return [.label start] ++ bodyCode ++ [.label (continueTarget loop)] ++ condCode
      ++ [.jumpIfNotZero condValue start, .label (breakTarget loop)]
  | .forLoop _ init cond post body loop => do
    let start ← Lower.label "for_start"
    let initCode ← init.lower
    let condCode ←
      match cond with
      | none => pure []
      | some cond => do
        let (code, value) ← cond.lower
        pure (code ++ [.jumpIfZero value (breakTarget loop)])
    let bodyCode ← body.lower
    let postCode ←
      match post with
      | none => pure []
      | some post => do pure (← post.lower).1
    return initCode ++ [.label start] ++ condCode ++ bodyCode ++ [.label (continueTarget loop)]
      ++ postCode ++ [.jump start, .label (breakTarget loop)]
  | .empty _ => return []
  | .misplaced node => Pass.breach (.statement node.kind)

def Block.lower : Block → Lower (List Instr)
  | ⟨_, items⟩ => lowerItems items

def lowerItems : List Item → Lower (List Instr)
  | [] => return []
  | .func _ :: rest => lowerItems rest
  | .var decl :: rest => do
    let code ← decl.lower
    return code ++ (← lowerItems rest)
  | .stmt stmt :: rest => do
    let code ← stmt.lower
    return code ++ (← lowerItems rest)

end

/-- A body that runs off its end returns zero. -/
def FuncDecl.lower (table : SymbolTable) (decl : FuncDecl) (body : Block) : Lower Tac.Func :=
  match table.get? decl.name with
  | none => Pass.breach (.missingFunction decl.name)
  | some ⟨_, .func _ global⟩ => do
    let code ← body.lower
    return {
      name := decl.name
      global
      params := decl.params.map Param.name
      body := code ++ [.ret (.const 0)] }
  | some _ => Pass.breach (.notFunction decl.name)

def lowerUnit (table : SymbolTable) : List Item → Lower (List Tac.Func)
  | [] => return []
  | .func decl :: rest =>
    match decl.body with
    | none => lowerUnit table rest
    | some body => do
      let func ← decl.lower table body
      return func :: (← lowerUnit table rest)
  | _ :: rest => lowerUnit table rest

/-- The variables with static storage that the unit defines. -/
def SymbolTable.statics (table : SymbolTable) : List Tac.StaticVar :=
  table.entries.filterMap fun (name, symbol) =>
    match symbol.attr with
    | .static .tentative global => some ⟨name, global, 0⟩
    | .static (.value value) global => some ⟨name, global, value⟩
    | _ => none

def Program.lower (table : SymbolTable) (program : Program) : Lower Tac.Program :=
  return { statics := table.statics, funcs := ← lowerUnit table program.items }

end IntC
