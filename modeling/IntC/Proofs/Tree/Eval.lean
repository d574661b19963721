import IntC.Proofs.Word
import IntC.Tree

namespace IntC

/-- What an operator makes of its operand. -/
def TokenKind.unary? (op : TokenKind) (a : Word) : Option Word :=
  match op with
  | .tilde => some (~~~a)
  | .minus => some (-a)
  | .bang => some (Word.truth (a = 0))
  | _ => none

/-- What an operator makes of its operands when it needs both. A quotient that does not exist, or that is
no word, has no value. -/
def TokenKind.binary? (op : TokenKind) (a b : Word) : Option Word :=
  match op with
  | .plus => some (a + b)
  | .minus => some (a - b)
  | .star => some (a * b)
  | .slash => Word.quotient? a b
  | .percent => Word.remainder? a b
  | .eqEq => some (Word.truth (a = b))
  | .notEq => some (Word.truth (a ≠ b))
  | .less => some (Word.truth (a.slt b))
  | .lessEq => some (Word.truth (a.sle b))
  | .greater => some (Word.truth (b.slt a))
  | .greaterEq => some (Word.truth (b.sle a))
  | _ => none

/-- What an operand leaves for its operator. A variable, also one that was just assigned to, is only read
when the operator is applied. -/
inductive Held where
  | word (value : Word)
  | named (name : String)

def Held.read (store : Store) : Held → Word
  | .word value => value
  | .named name => store name

mutual

/-- Evaluates an expression, operands from the left to the right. -/
def Expr.eval (world : World) : Expr → Memory → Option (Held × Memory)
  | .number _ value, memory => some (.word (BitVec.ofInt 32 value), memory)
  | .ident _ name, memory => some (.named name, memory)
  | .unary _ op operand, memory => do
    let (held, memory) ← operand.eval world memory
    let result ← op.unary? (held.read memory.store)
    return (.word result, memory)
  | .binary _ .andAnd left right, memory => do
    let (held, memory) ← left.eval world memory
    if held.read memory.store = 0 then return (.word 0, memory)
    let (held, memory) ← right.eval world memory
    return (.word (Word.truth (held.read memory.store ≠ 0)), memory)
  | .binary _ .orOr left right, memory => do
    let (held, memory) ← left.eval world memory
    if held.read memory.store ≠ 0 then return (.word 1, memory)
    let (held, memory) ← right.eval world memory
    return (.word (Word.truth (held.read memory.store ≠ 0)), memory)
  | .binary _ op left right, memory => do
    let (first, memory) ← left.eval world memory
    let (second, memory) ← right.eval world memory
    let result ← op.binary? (first.read memory.store) (second.read memory.store)
    return (.word result, memory)
  | .assign _ (.ident _ name) value, memory => do
    let (held, memory) ← value.eval world memory
    return (.named name, memory.set name (held.read memory.store))
  | .assign .., _ => none
  | .conditional _ cond yes no, memory => do
    let (held, memory) ← cond.eval world memory
    let (held, memory) ← if held.read memory.store ≠ 0 then yes.eval world memory else no.eval world memory
    return (.word (held.read memory.store), memory)
  | .call _ callee args, memory => do
    let (held, memory) ← evalArgs world args memory
    let (result, memory) := world.call callee (held.map (Held.read memory.store)) memory
    return (.word result, memory)
  | .misplaced _, _ => none

def evalArgs (world : World) : List Expr → Memory → Option (List Held × Memory)
  | [], memory => some ([], memory)
  | arg :: rest, memory => do
    let (held, memory) ← arg.eval world memory
    let (others, memory) ← evalArgs world rest memory
    return (held :: others, memory)

end

/-- Evaluates a condition. -/
def Expr.test (world : World) (cond : Expr) (memory : Memory) : Option (Bool × Memory) := do
  let (held, memory) ← cond.eval world memory
  return (held.read memory.store ≠ 0, memory)

/-- Evaluates an expression for what it does to the memory. -/
def Expr.run (world : World) (value : Expr) (memory : Memory) : Option Memory :=
  (value.eval world memory).map Prod.snd

/-- Only an automatic variable with an initializer gets a value where it is declared. -/
def VarDecl.run (world : World) (decl : VarDecl) (memory : Memory) : Option Memory :=
  match decl.storage, decl.init with
  | .automatic, some init => do
    let (held, memory) ← init.eval world memory
    return memory.set decl.name (held.read memory.store)
  | _, _ => some memory

def ForInit.run (world : World) : ForInit → Memory → Option Memory
  | .none, memory => some memory
  | .var decl, memory => decl.run world memory
  | .expr value, memory => value.run world memory

/-- How the run of a statement ends. -/
inductive Outcome where
  | normal | broke | continued
  | returned (value : Word)
deriving DecidableEq

/-- A loop: what it tests before each round, a round, and what it does behind each round. A round that
breaks off ends it. -/
inductive Rounds (test : Memory → Option (Bool × Memory)) (round : Memory → Outcome → Memory → Prop)
    (post : Memory → Option Memory) : Memory → Outcome → Memory → Prop
  | stop {memory after} : test memory = some (false, after) → Rounds test round post memory .normal after
  | broke {memory inside after} : test memory = some (true, inside) → round inside .broke after →
      Rounds test round post memory .normal after
  | returned {memory inside after value} : test memory = some (true, inside) → round inside (.returned value) after →
      Rounds test round post memory (.returned value) after
  | next {memory inside between again outcome last after} : test memory = some (true, inside) →
      round inside outcome between → outcome = .normal ∨ outcome = .continued → post between = some again →
      Rounds test round post again last after → Rounds test round post memory last after

/-- What a `for` loop tests; without a condition it goes on. -/
def testOptional (world : World) : Option Expr → Memory → Option (Bool × Memory)
  | none, memory => some (true, memory)
  | some cond, memory => cond.test world memory

def runOptional (world : World) : Option Expr → Memory → Option Memory
  | none, memory => some memory
  | some value, memory => value.run world memory

mutual

/-- The runs of a statement that come to an end. -/
def Stmt.Runs (world : World) : Stmt → Memory → Outcome → Memory → Prop
  | .ret _ value, memory, outcome, after =>
    ∃ held, value.eval world memory = some (held, after) ∧ outcome = .returned (held.read after.store)
  | .expr _ value, memory, outcome, after => value.run world memory = some after ∧ outcome = .normal
  | .branch _ cond yes none, memory, outcome, after =>
    ∃ holds between, cond.test world memory = some (holds, between) ∧
      if holds then yes.Runs world between outcome after else outcome = .normal ∧ after = between
  | .branch _ cond yes (some no), memory, outcome, after =>
    ∃ holds between, cond.test world memory = some (holds, between) ∧
      if holds then yes.Runs world between outcome after else no.Runs world between outcome after
  | .block body, memory, outcome, after => body.Runs world memory outcome after
  | .breakLoop .., memory, outcome, after => outcome = .broke ∧ after = memory
  | .continueLoop .., memory, outcome, after => outcome = .continued ∧ after = memory
  | .whileLoop _ cond body _, memory, outcome, after =>
    Rounds (cond.test world) (body.Runs world) some memory outcome after
  | .doLoop _ body cond _, memory, outcome, after =>
    ∃ first between, body.Runs world memory first between ∧
      match first with
      | .normal | .continued => Rounds (cond.test world) (body.Runs world) some between outcome after
      | .broke => outcome = .normal ∧ after = between
      | .returned value => outcome = .returned value ∧ after = between
  | .forLoop _ init cond post body _, memory, outcome, after =>
    ∃ start, init.run world memory = some start ∧
      Rounds (testOptional world cond) (body.Runs world) (runOptional world post) start outcome after
  | .empty _, memory, outcome, after => outcome = .normal ∧ after = memory
  | .misplaced _, _, _, _ => False

def Block.Runs (world : World) : Block → Memory → Outcome → Memory → Prop
  | ⟨_, items⟩, memory, outcome, after => itemsRun world items memory outcome after

/-- Items run one after the other until one of them breaks off. -/
def itemsRun (world : World) : List Item → Memory → Outcome → Memory → Prop
  | [], memory, outcome, after => outcome = .normal ∧ after = memory
  | .func _ :: rest, memory, outcome, after => itemsRun world rest memory outcome after
  | .var decl :: rest, memory, outcome, after =>
    ∃ between, decl.run world memory = some between ∧ itemsRun world rest between outcome after
  | .stmt stmt :: rest, memory, outcome, after =>
    ∃ first between, stmt.Runs world memory first between ∧
      if first = .normal then itemsRun world rest between outcome after else outcome = first ∧ after = between

end

/-- The body of a function, started with the memory, returns the value. One that runs off its end
returns zero. -/
def Block.Returns (world : World) (body : Block) (start : Memory) (value : Word) (final : Memory) : Prop :=
  body.Runs world start (.returned value) final ∨ body.Runs world start .normal final ∧ value = 0

end IntC
