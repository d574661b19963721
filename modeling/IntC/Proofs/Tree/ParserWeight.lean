import IntC.Proofs.Tree.Parser
import IntC.Proofs.Tree.Weight

namespace IntC

def TokenKind.weight (w : Weights) : TokenKind → Nat
  | .kwWhile | .kwDo | .kwFor | .kwBreak | .kwContinue => w.loop ""
  | _ => w.mark

def Terminal.weight (w : Weights) : Terminal → Nat
  | .mark kind => kind.weight w
  | .name text => w.name text
  | .constant (.ok value) => w.value value
  | .constant (.error _) => w.mark

def terminalsWeight (w : Weights) (terminals : List Terminal) : Nat := (terminals.map (Terminal.weight w)).sum

section Terminals
variable {w : Weights}

@[simp] theorem terminalsWeight_nil : terminalsWeight w [] = 0 := rfl

@[simp] theorem terminalsWeight_cons {terminal : Terminal} {rest : List Terminal} :
    terminalsWeight w (terminal :: rest) = terminal.weight w + terminalsWeight w rest := rfl

@[simp] theorem terminalsWeight_append {first second : List Terminal} :
    terminalsWeight w (first ++ second) = terminalsWeight w first + terminalsWeight w second := by
  simp [terminalsWeight]

theorem Token.weight_terminal (token : Token) : token.terminal.weight w = token.weight w := by
  obtain ⟨kind, value, span⟩ := token
  cases kind with
  | number =>
    simp only [Token.terminal, Token.weight]
    cases readConstant value <;> rfl
  | _ => rfl

theorem TokenKind.weight_unary {op : TokenKind} (known : op.isUnary = true) : op.weight w = w.mark := by
  cases op <;> first
    | rfl
    | cases known

theorem TokenKind.weight_binary {op : TokenKind} {strength : Nat} (found : op.strength? = some strength) :
    op.weight w = w.mark := by
  cases op <;> first
    | rfl
    | cases found

end Terminals

def Phrase.weight (w : Weights) : Phrase → Nat
  | .expr _ value => value.weight w
  | .args values => argsWeight w values
  | .optional value | .initializer value => optionalWeight w value
  | .params names => paramsWeight w names
  | .decl item => itemsWeight w [item]
  | .body none => 0
  | .body (some inner) | .block inner => inner.weight w
  | .items inner | .unit inner => itemsWeight w inner
  | .forInit init => init.weight w
  | .stmt inner => inner.weight w

theorem terminalsWeight_tokens (w : Weights) (tokens : List Token) :
    terminalsWeight w (tokens.map Token.terminal) = tokensWeight w tokens := by
  simp only [terminalsWeight, tokensWeight, List.map_map, Function.comp_def, Token.weight_terminal]

theorem tokensWeight_takeWhile_le (w : Weights) (tokens : List Token) (p : Token → Bool) :
    tokensWeight w (tokens.takeWhile p) ≤ tokensWeight w tokens := by
  have whole := congrArg (tokensWeight w) (List.takeWhile_append_dropWhile (p := p) (l := tokens))
  simp only [tokensWeight, List.map_append, List.sum_append] at whole ⊢
  omega

theorem itemsWeight_cons (w : Weights) (item : Item) (rest : List Item) :
    itemsWeight w (item :: rest) = itemsWeight w [item] + itemsWeight w rest := by
  cases item <;> rfl

/-- A tree weighs no more than its terminals. -/
theorem Derives.weight_le (w : Weights) {phrase : Phrase} {terminals : List Terminal}
    (derives : Derives phrase terminals) : phrase.weight w ≤ terminalsWeight w terminals := by
  induction derives with
    simp only [Phrase.weight, terminalsWeight_append, terminalsWeight_cons, terminalsWeight_nil, Terminal.weight] at *
  | number | ident => exact le_rfl
  | call =>
    simp only [Expr.weight, TokenKind.weight]
    omega
  | unary known =>
    simp only [Expr.weight, TokenKind.weight_unary known]
    omega
  | binary strength =>
    simp only [Expr.weight, TokenKind.weight_binary strength]
    omega
  | assign | conditional =>
    simp only [Expr.weight, TokenKind.weight]
    omega
  | paren => omega
  | noArgs | lastArg | moreArgs =>
    simp only [argsWeight] at *
    omega
  | absent | noInitializer | noBody | noItems | noForInit | empty | noDecls => exact Nat.zero_le _
  | present | initializer =>
    simp only [optionalWeight]
    omega
  | noParams | lastParam | moreParams =>
    simp only [paramsWeight, List.map_cons, List.map_nil, List.sum_cons, List.sum_nil] at *
    omega
  | var =>
    simp only [itemsWeight, VarDecl.weight]
    omega
  | @func _ _ _ body =>
    cases body <;> simp only [itemsWeight, FuncDecl.weight, TokenKind.weight] at * <;> omega
  | body _ block => exact block
  | block =>
    simp only [Block.weight]
    omega
  | declItem | moreDecls =>
    rw [itemsWeight_cons]
    omega
  | stmtItem =>
    simp only [itemsWeight]
    omega
  | varForInit _ decl => exact decl
  | exprForInit =>
    simp only [ForInit.weight]
    omega
  | blockStmt _ block => exact block
  | ret | exprStmt | ifThen | ifElse | breakLoop | continueLoop | whileLoop | doLoop | forLoop =>
    simp only [Stmt.weight, TokenKind.weight]
    omega

/-- Whatever the tokens of a source file weigh, the tree that is read from them weighs no more. -/
theorem parse_weight (w : Weights) {tokens : List Token} {program : Program} (parsed : parse tokens = .ok program) :
    itemsWeight w program.items ≤ tokensWeight w tokens := by
  have derives := parse_takes tokens
  rw [parsed] at derives
  have light := derives.weight_le w
  rw [terminalsWeight_tokens] at light
  exact light.trans (tokensWeight_takeWhile_le w tokens _)

end IntC
