import IntC.Proofs.Tree.Grammar

namespace IntC

def Token.mark (kind : TokenKind) : Token := ⟨kind, "", {}⟩

def Token.ident (name : String) : Token := ⟨.ident, name, {}⟩

def Token.number (value : Int) : Token := ⟨.number, toString value, {}⟩

def enclose (needed : Bool) (tokens : List Token) : List Token :=
  if needed then .mark .lparen :: (tokens ++ [.mark .rparen]) else tokens

mutual

/-- Writes an expression down where only operators may stand that bind at least as strongly as `least`. All others
are enclosed in parentheses. -/
def Expr.write (least : Nat) : Expr → List Token
  | .number _ value => [.number value]
  | .ident _ name => [.ident name]
  | .assign _ target value => enclose (1 < least) (target.write 2 ++ .mark .assign :: value.write 1)
  | .binary _ op left right =>
    let strength := op.strength?.getD 0
    enclose (strength < least) (left.write strength ++ .mark op :: right.write (strength + 1))
  | .unary _ op operand => .mark op :: operand.write 51
  | .conditional _ cond yes no =>
    enclose (3 < least) (cond.write 4 ++ .mark .question :: (yes.write 0 ++ .mark .colon :: no.write 3))
  | .call _ name args => .ident name :: .mark .lparen :: (writeArgs args ++ [.mark .rparen])
  | .misplaced _ => []

def writeArgs : List Expr → List Token
  | [] => []
  | [arg] => arg.write 0
  | arg :: next :: rest => arg.write 0 ++ .mark .comma :: writeArgs (next :: rest)

end

def writeOptional : Option Expr → List Token
  | none => []
  | some value => value.write 0

def writeInitializer : Option Expr → List Token
  | none => []
  | some value => .mark .assign :: value.write 0

def writeParams : List Param → List Token
  | [] => [.mark .kwVoid]
  | [param] => [.mark .kwInt, .ident param.name]
  | param :: next :: rest => .mark .kwInt :: .ident param.name :: .mark .comma :: writeParams (next :: rest)

def VarDecl.write (decl : VarDecl) : List Token :=
  decl.storage.marks.map .mark ++ .ident decl.name :: (writeInitializer decl.init ++ [.mark .semi])

def ForInit.write : ForInit → List Token
  | .none => [.mark .semi]
  | .var decl => decl.write
  | .expr value => value.write 0 ++ [.mark .semi]

mutual

def Stmt.write : Stmt → List Token
  | .ret _ value => .mark .kwReturn :: (value.write 0 ++ [.mark .semi])
  | .expr _ value => value.write 0 ++ [.mark .semi]
  | .branch _ cond yes none => .mark .kwIf :: .mark .lparen :: (cond.write 0 ++ .mark .rparen :: yes.write)
  | .branch _ cond yes (some no) =>
    .mark .kwIf :: .mark .lparen :: (cond.write 0 ++ .mark .rparen :: (yes.write ++ .mark .kwElse :: no.write))
  | .block body => body.write
  | .breakLoop .. => [.mark .kwBreak, .mark .semi]
  | .continueLoop .. => [.mark .kwContinue, .mark .semi]
  | .whileLoop _ cond body _ => .mark .kwWhile :: .mark .lparen :: (cond.write 0 ++ .mark .rparen :: body.write)
  | .doLoop _ body cond _ =>
    .mark .kwDo :: (body.write ++ .mark .kwWhile :: .mark .lparen :: (cond.write 0 ++ [.mark .rparen, .mark .semi]))
  | .forLoop _ init cond post body _ => .mark .kwFor :: .mark .lparen ::
    (init.write ++ (writeOptional cond ++ .mark .semi :: (writeOptional post ++ .mark .rparen :: body.write)))
  | .empty _ => [.mark .semi]
  | .misplaced _ => []

def Block.write : Block → List Token
  | ⟨_, items⟩ => .mark .lbrace :: (writeItems items ++ [.mark .rbrace])

def FuncDecl.write : FuncDecl → List Token
  | ⟨_, name, params, none, storage⟩ => storage.marks.map .mark ++
    .ident name :: .mark .lparen :: (writeParams params ++ .mark .rparen :: [.mark .semi])
  | ⟨_, name, params, some body, storage⟩ => storage.marks.map .mark ++
    .ident name :: .mark .lparen :: (writeParams params ++ .mark .rparen :: body.write)

def writeItems : List Item → List Token
  | [] => []
  | .func decl :: rest => decl.write ++ writeItems rest
  | .var decl :: rest => decl.write ++ writeItems rest
  | .stmt stmt :: rest => stmt.write ++ writeItems rest

end

/-- Writes a source file down, with its end token. -/
def Program.write (program : Program) : List Token := writeItems program.items ++ [.mark .eof]

theorem readDigits_digit {value digit : Nat} (decimal : digit < 10) (small : value * 10 + digit < 0x100000000) :
    readDigits value [Nat.digitChar digit] = .ok (value * 10 + digit) := by
  have known : ∀ digit < 10, isDigit (Nat.digitChar digit) = true ∧
      (Nat.digitChar digit).toNat - '0'.toNat = digit := by decide
  obtain ⟨decimal, worth⟩ := known digit decimal
  simp only [readDigits, if_pos decimal, worth, if_neg (Nat.not_le.mpr small)]

theorem readDigits_append {value longer : Nat} {digits more : List Char} (read : readDigits value digits = .ok longer) :
    readDigits value (digits ++ more) = readDigits longer more := by
  induction digits generalizing value with
  | nil =>
    cases read
    rfl
  | cons c rest ih =>
    simp only [readDigits, List.cons_append] at read ⊢
    split at read
    · rename_i decimal
      rw [if_pos decimal]
      split at read
      · cases read
      · rename_i small
        rw [if_neg small]
        exact ih read
    · cases read

theorem readDigits_toDigits (number : Nat) (small : number < 0x100000000) :
    readDigits 0 (Nat.toDigits 10 number) = .ok number := by
  induction number using Nat.strongRecOn with
  | ind number ih =>
    by_cases decimal : number < 10
    · rw [Nat.toDigits_of_lt_base decimal, readDigits_digit decimal (by omega), Nat.zero_mul, Nat.zero_add]
    · rw [Nat.toDigits_of_base_le (by decide) (Nat.le_of_not_lt decimal),
        readDigits_append (ih (number / 10) (by omega) (by omega)), readDigits_digit (by omega) (by omega)]
      congr 1
      omega

/-- A constant is read as the value that it was written for. -/
theorem readConstant_toString {value : Int} (low : 0 ≤ value) (high : value ≤ 2147483647) :
    readConstant (toString value) = .ok value := by
  obtain ⟨number, rfl⟩ := Int.eq_ofNat_of_zero_le low
  have digits : (toString (number : Int)).toList = Nat.toDigits 10 number := number_toList number
  have decimal : ∀ c ∈ Nat.toDigits 10 number, c.isDigit = true :=
    fun c member => Nat.isDigit_of_mem_toDigits (by decide) (by decide) member
  have magnitude : readMagnitude (Nat.toDigits 10 number) = .ok number := by
    unfold readMagnitude
    split
    · rename_i empty
      exact absurd empty Nat.toDigits_ne_nil
    · exact readDigits_toDigits number (by omega)
  unfold readConstant
  rw [digits]
  split
  · rename_i rest found
    exact absurd (decimal '-' (found ▸ List.mem_cons_self)) (by decide)
  · rename_i rest found
    exact absurd (decimal '+' (found ▸ List.mem_cons_self)) (by decide)
  · rw [magnitude]
    exact if_neg (by omega)

section Derives
variable {least strength : Nat}

theorem derives_enclose {value : Expr} {tokens : List Token}
    (derives : ∀ least ≤ strength, Derives (.expr least value) (tokens.map Token.terminal)) :
    Derives (.expr least value) ((enclose (strength < least) tokens).map Token.terminal) := by
  by_cases weak : strength < least
  · simp only [enclose, weak, decide_true, if_true, List.map_cons, List.map_append, List.map_nil]
    exact .paren (derives 0 (Nat.zero_le _))
  · simp only [enclose, weak, decide_false, Bool.false_eq_true, if_false]
    exact derives least (Nat.le_of_not_lt weak)

theorem Token.terminal_ofKind {kind : TokenKind} (mark : kind.isMark = true) : (Token.mark kind).terminal = .mark kind :=
  Token.terminal_mark rfl mark

theorem Storage.terminals_marks (storage : Storage) :
    (storage.marks.map Token.mark).map Token.terminal = storage.marks.map .mark := by
  cases storage <;> rfl

mutual

theorem Expr.write_derives {value : Expr} (least : Nat) (shaped : value.Shaped 0) :
    Derives (.expr least value) ((value.write least).map Token.terminal) := by
  cases value with
  | number _ value =>
    have terminal : (Token.number value).terminal = .constant (.ok value) :=
      congrArg Terminal.constant (readConstant_toString shaped.1 shaped.2)
    rw [Expr.write, List.map_singleton, terminal]
    have low := shaped.1
    exact .number (by omega) shaped.2
  | ident => exact .ident
  | assign _ target value =>
    refine derives_enclose fun least weak => ?_
    rw [List.map_append]
    exact .assign weak (target.write_derives 2 shaped.1) (value.write_derives 1 shaped.2)
  | binary _ op left right =>
    obtain ⟨known, first, second⟩ := shaped
    obtain ⟨strength, found⟩ := Option.isSome_iff_exists.mp known
    have terminal := Token.terminal_ofKind (TokenKind.isMark_of_strength? found)
    simp only [Expr.write, found, Option.getD_some]
    refine derives_enclose fun least weak => ?_
    rw [List.map_append, List.map_cons, terminal]
    exact .binary found weak (left.write_derives strength first) (right.write_derives (strength + 1) second)
  | unary _ op operand =>
    have terminal := Token.terminal_ofKind (TokenKind.isMark_of_isUnary shaped.1)
    rw [Expr.write, List.map_cons, terminal]
    exact .unary shaped.1 (operand.write_derives 51 shaped.2)
  | conditional _ cond yes no =>
    refine derives_enclose fun least weak => ?_
    rw [List.map_append, List.map_cons, List.map_append]
    exact .conditional weak (cond.write_derives 4 shaped.1) (yes.write_derives 0 shaped.2.1)
      (no.write_derives 3 shaped.2.2)
  | call _ _ args =>
    rw [Expr.write, List.map_cons, List.map_cons, List.map_append]
    exact .call (writeArgs_derives shaped)
  | misplaced => exact shaped.elim

theorem writeArgs_derives {args : List Expr} (shaped : argsShaped 0 args) :
    Derives (.args args) ((writeArgs args).map Token.terminal) := by
  cases args with
  | nil => exact .noArgs
  | cons arg rest =>
    have first := arg.write_derives 0 shaped.1
    have others := writeArgs_derives shaped.2
    cases rest with
    | nil => exact .lastArg first
    | cons next rest =>
      rw [writeArgs, List.map_append]
      exact .moreArgs first others

end

theorem writeOptional_derives {value : Option Expr} (shaped : optionalShaped 0 value) :
    Derives (.optional value) ((writeOptional value).map Token.terminal) := by
  cases value with
  | none => exact .absent
  | some value => exact .present (value.write_derives 0 shaped)

theorem writeInitializer_derives {value : Option Expr} (shaped : optionalShaped 0 value) :
    Derives (.initializer value) ((writeInitializer value).map Token.terminal) := by
  cases value with
  | none => exact .noInitializer
  | some value => exact .initializer (value.write_derives 0 shaped)

theorem writeParams_derives (params : List Param) :
    Derives (.params params) ((writeParams params).map Token.terminal) := by
  induction params with
  | nil => exact .noParams
  | cons param rest ih =>
    cases rest with
    | nil => exact .lastParam
    | cons next rest => exact .moreParams ih

theorem VarDecl.write_derives {decl : VarDecl} (shaped : optionalShaped 0 decl.init) :
    Derives (.decl (.var decl)) (decl.write.map Token.terminal) := by
  obtain ⟨span, name, init, storage⟩ := decl
  rw [VarDecl.write, List.map_append, List.map_cons, List.map_append, Storage.terminals_marks]
  exact .var (List.Perm.refl _) (writeInitializer_derives shaped)

theorem ForInit.write_derives {init : ForInit} (shaped : init.Shaped 0) :
    Derives (.forInit init) (init.write.map Token.terminal) := by
  cases init with
  | none => exact .noForInit
  | var decl => exact .varForInit (decl.write_derives shaped)
  | expr value =>
    rw [ForInit.write, List.map_append]
    exact .exprForInit (value.write_derives 0 shaped)

mutual

theorem Stmt.write_derives {stmt : Stmt} (shaped : stmt.Shaped 0) :
    Derives (.stmt stmt) (stmt.write.map Token.terminal) := by
  cases stmt with
  | ret _ value =>
    rw [Stmt.write, List.map_cons, List.map_append]
    exact .ret (value.write_derives 0 shaped)
  | expr _ value =>
    rw [Stmt.write, List.map_append]
    exact .exprStmt (value.write_derives 0 shaped)
  | branch _ cond yes no =>
    cases no with
    | none =>
      rw [Stmt.write, List.map_cons, List.map_cons, List.map_append]
      exact .ifThen (cond.write_derives 0 shaped.1) (yes.write_derives shaped.2)
    | some no =>
      obtain ⟨closed, condition, first, second⟩ := shaped
      rw [Stmt.write, List.map_cons, List.map_cons, List.map_append, List.map_cons, List.map_append]
      exact .ifElse closed (cond.write_derives 0 condition) (yes.write_derives first) (no.write_derives second)
  | block body => exact .blockStmt (body.write_derives shaped)
  | breakLoop =>
    cases shaped
    exact .breakLoop
  | continueLoop =>
    cases shaped
    exact .continueLoop
  | whileLoop _ cond body =>
    obtain ⟨rfl, condition, inside⟩ := shaped
    rw [Stmt.write, List.map_cons, List.map_cons, List.map_append]
    exact .whileLoop (cond.write_derives 0 condition) (body.write_derives inside)
  | doLoop _ body cond =>
    obtain ⟨rfl, inside, condition⟩ := shaped
    rw [Stmt.write, List.map_cons, List.map_append, List.map_cons, List.map_cons, List.map_append]
    exact .doLoop (body.write_derives inside) (cond.write_derives 0 condition)
  | forLoop _ init cond post body =>
    obtain ⟨rfl, first, second, third, inside⟩ := shaped
    rw [Stmt.write, List.map_cons, List.map_cons, List.map_append, List.map_append, List.map_cons, List.map_append]
    exact .forLoop (init.write_derives first) (writeOptional_derives second) (writeOptional_derives third)
      (body.write_derives inside)
  | empty => exact .empty
  | misplaced => exact shaped.elim

theorem Block.write_derives {block : Block} (shaped : block.Shaped 0) :
    Derives (.block block) (block.write.map Token.terminal) := by
  obtain ⟨span, items⟩ := block
  rw [Block.write, List.map_cons, List.map_append]
  exact .block (writeItems_derives shaped)

theorem FuncDecl.write_derives {decl : FuncDecl} (shaped : decl.Shaped 0) :
    Derives (.decl (.func decl)) (decl.write.map Token.terminal) := by
  obtain ⟨span, name, params, body, storage⟩ := decl
  have list := writeParams_derives params
  cases body with
  | none =>
    rw [FuncDecl.write, List.map_append, List.map_cons, List.map_cons, List.map_append, Storage.terminals_marks]
    exact .func (List.Perm.refl _) list .noBody
  | some body =>
    rw [FuncDecl.write, List.map_append, List.map_cons, List.map_cons, List.map_append, Storage.terminals_marks]
    exact .func (List.Perm.refl _) list (.body (body.write_derives shaped))

theorem writeItems_derives {items : List Item} (shaped : itemsShaped 0 items) :
    Derives (.items items) ((writeItems items).map Token.terminal) := by
  cases items with
  | nil => exact .noItems
  | cons item rest =>
    cases item with
    | func decl | var decl =>
      rw [writeItems, List.map_append]
      exact .declItem (decl.write_derives shaped.1) (writeItems_derives shaped.2)
    | stmt stmt =>
      rw [writeItems, List.map_append]
      exact .stmtItem (stmt.write_derives shaped.1) (writeItems_derives shaped.2)

end

theorem writeUnit_derives {items : List Item} (shaped : itemsShaped 0 items) (decls : ∀ stmt, .stmt stmt ∉ items) :
    Derives (.unit items) ((writeItems items).map Token.terminal) := by
  induction items with
  | nil => exact .noDecls
  | cons item rest ih =>
    cases item with
    | func decl | var decl =>
      rw [writeItems, List.map_append]
      exact .moreDecls (decl.write_derives shaped.1) (ih shaped.2 fun stmt member => decls stmt (.tail _ member))
    | stmt stmt => exact absurd (.head _) (decls stmt)

end Derives

end IntC
