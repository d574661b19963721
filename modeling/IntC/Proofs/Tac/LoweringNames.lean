import IntC.Proofs.NameDraw
import IntC.Proofs.Tac.Lowering
import IntC.Proofs.Tree.Rename

namespace IntC

variable {dest : String}

mutual

/-- A variable that an expression reads or writes. -/
def Expr.Mentions (name : String) : Expr → Prop
  | .number .. => False
  | .ident _ other => name = other
  | .assign _ target value => target.Mentions name ∨ value.Mentions name
  | .binary _ _ left right => left.Mentions name ∨ right.Mentions name
  | .unary _ _ operand => operand.Mentions name
  | .conditional _ cond yes no => cond.Mentions name ∨ yes.Mentions name ∨ no.Mentions name
  | .call _ _ args => argsMention name args
  | .misplaced _ => False

def argsMention (name : String) : List Expr → Prop
  | [] => False
  | arg :: rest => arg.Mentions name ∨ argsMention name rest

end

def optionalMentions (name : String) (value : Option Expr) : Prop := ∃ expr ∈ value, expr.Mentions name

def VarDecl.Mentions (name : String) (decl : VarDecl) : Prop := name = decl.name ∨ optionalMentions name decl.init

def ForInit.Mentions (name : String) : ForInit → Prop
  | .none => False
  | .var decl => decl.Mentions name
  | .expr value => value.Mentions name

mutual

def Stmt.Mentions (name : String) : Stmt → Prop
  | .ret _ value => value.Mentions name
  | .expr _ value => value.Mentions name
  | .branch _ cond yes none => cond.Mentions name ∨ yes.Mentions name
  | .branch _ cond yes (some no) => cond.Mentions name ∨ yes.Mentions name ∨ no.Mentions name
  | .block body => body.Mentions name
  | .whileLoop _ cond body _ => cond.Mentions name ∨ body.Mentions name
  | .doLoop _ body cond _ => body.Mentions name ∨ cond.Mentions name
  | .forLoop _ init cond post body _ =>
    init.Mentions name ∨ optionalMentions name cond ∨ optionalMentions name post ∨ body.Mentions name
  | .breakLoop .. => False
  | .continueLoop .. => False
  | .empty _ => False
  | .misplaced _ => False

def Block.Mentions (name : String) : Block → Prop
  | ⟨_, items⟩ => itemsMention name items

def itemsMention (name : String) : List Item → Prop
  | [] => False
  | .func _ :: rest => itemsMention name rest
  | .var decl :: rest => decl.Mentions name ∨ itemsMention name rest
  | .stmt stmt :: rest => stmt.Mentions name ∨ itemsMention name rest

end

namespace Tac

variable {dest cond : Value} {target name : String}

/-- A name that an instruction holds as a label or as a variable. -/
def Instr.Mentions (name : String) (instr : Instr) : Prop := instr.label? = some name ∨ .var name ∈ instr.values

section Mentions
variable {name : String}

attribute [local simp] Instr.Mentions Instr.label? Instr.values

@[grind =] theorem Instr.mentions_ret {value : Value} : (Instr.ret value).Mentions name ↔ value = .var name := by
  simp [eq_comm]

@[grind =] theorem Instr.mentions_copy {source : Value} :
    (Instr.copy source dest).Mentions name ↔ source = .var name ∨ dest = .var name := by
  simp [eq_comm]

@[grind =] theorem Instr.mentions_jump : (Instr.jump target).Mentions name ↔ False := by
  simp

@[grind =] theorem Instr.mentions_jumpIfZero : (Instr.jumpIfZero cond target).Mentions name ↔ cond = .var name := by
  simp [eq_comm]

@[grind =] theorem Instr.mentions_jumpIfNotZero :
    (Instr.jumpIfNotZero cond target).Mentions name ↔ cond = .var name := by
  simp [eq_comm]

@[grind =] theorem Instr.mentions_leave {op : ShortCircuit} :
    (op.leave cond target).Mentions name ↔ cond = .var name := by
  cases op with
  | and => exact mentions_jumpIfZero
  | or => exact mentions_jumpIfNotZero

@[grind =] theorem Instr.mentions_label {label : String} : (Instr.label label).Mentions name ↔ label = name := by
  simp

@[grind =] theorem Instr.mentions_call {callee : String} {args : List Value} :
    (Instr.call callee args dest).Mentions name ↔ .var name ∈ args ∨ dest = .var name := by
  simp [eq_comm]

@[grind =] theorem Instr.mentions_unary {op : UnaryOp} {source : Value} :
    (Instr.unary op source dest).Mentions name ↔ source = .var name ∨ dest = .var name := by
  simp [eq_comm]

@[grind =] theorem Instr.mentions_binary {op : BinaryOp} {left right : Value} :
    (Instr.binary op left right dest).Mentions name ↔ left = .var name ∨ right = .var name ∨ dest = .var name := by
  simp [eq_comm]

end Mentions

def Mentions (name : String) (code : List Instr) : Prop := ∃ instr ∈ code, instr.Mentions name

@[grind =] theorem mentions_nil : Mentions name [] ↔ False := by simp [Mentions]

@[grind =] theorem mentions_cons {instr : Instr} {rest : List Instr} :
    Mentions name (instr :: rest) ↔ instr.Mentions name ∨ Mentions name rest := by
  simp [Mentions]

@[grind =] theorem mentions_append {code rest : List Instr} :
    Mentions name (code ++ rest) ↔ Mentions name code ∨ Mentions name rest := by
  simp [Mentions, or_and_right, exists_or]

/-- Code that names what was given out for it, all of it, and else only what was known before. -/
structure Covers (given : List String) (known : String → Prop) (code : List Instr) : Prop where
  only : ∀ name, Mentions name code → name ∈ given ∨ known name
  all : ∀ name ∈ given, Mentions name code

theorem Covers.nil {known : String → Prop} : Covers [] known [] := by
  refine ⟨fun name => ?_, fun name => ?_⟩ <;> grind

end Tac

open Tac (Value Instr Covers)

/-- What the code of an expression names, and where it leaves the value. -/
structure Leaves (given : List String) (known : String → Prop) (code : List Instr) (value : Value) : Prop where
  code : Covers given known code
  value : ∀ name, value = .var name → name ∈ given ∨ known name

theorem temp_draws {α : Type} {f : Value → Lower α} {names : NameSupply} {stems : List String}
    {done : α → List String → NameSupply → Prop}
    (later : ∀ name after, Pass.Draws id (f (.var name)) after stems fun a others => done a (name :: others)) :
    Pass.Draws id (Lower.temp >>= f) names ("tmp" :: stems) done := by
  unfold Lower.temp
  rw [map_eq_pure_bind, bind_assoc]
  exact draws_fresh fun name => later name _

theorem label_draws {α : Type} {stem : String} {f : String → Lower α} {names : NameSupply} {stems : List String}
    {done : α → List String → NameSupply → Prop}
    (later : ∀ name after, Pass.Draws id (f name) after stems fun a others => done a (name :: others)) :
    Pass.Draws id (Lower.label stem >>= f) names (stem :: stems) done :=
  draws_fresh fun name => later name _

section Code
variable {first second third : List String} {one two three : String → Prop} {code rest more : List Instr}
  {value other last : Value}

theorem Leaves.unary (leaves : Leaves first one code value) (op : Tac.UnaryOp) :
    Leaves (first ++ [dest]) one (code ++ [Instr.unary op value (.var dest)]) (.var dest) := by
  obtain ⟨⟨only, all⟩, place⟩ := leaves
  refine ⟨⟨fun name => ?_, fun name => ?_⟩, fun name => ?_⟩ <;> grind

theorem Leaves.binary (left : Leaves first one code value) (right : Leaves second two rest other) (op : Tac.BinaryOp) :
    Leaves (first ++ (second ++ [dest])) (fun name => one name ∨ two name)
      (code ++ rest ++ [Instr.binary op value other (.var dest)]) (.var dest) := by
  obtain ⟨⟨only, all⟩, place⟩ := left
  obtain ⟨⟨onlyToo, allToo⟩, placeToo⟩ := right
  refine ⟨⟨fun name => ?_, fun name => ?_⟩, fun name => ?_⟩ <;> grind

theorem Leaves.shortCircuit {short done : String} (left : Leaves first one code value)
    (right : Leaves second two rest other) (op : ShortCircuit) :
    Leaves (short :: done :: dest :: (first ++ second)) (fun name => one name ∨ two name)
      (code ++ [op.leave value short] ++ rest ++ [
        op.leave other short,
        Instr.copy (.const op.fullValue) (.var dest),
        Instr.jump done,
        Instr.label short,
        Instr.copy (.const op.shortValue) (.var dest),
        Instr.label done]) (.var dest) := by
  obtain ⟨⟨only, all⟩, place⟩ := left
  obtain ⟨⟨onlyToo, allToo⟩, placeToo⟩ := right
  refine ⟨⟨fun name => ?_, fun name => ?_⟩, fun name => ?_⟩ <;> grind

theorem Leaves.conditional {otherwise done : String} (cond : Leaves first one code value)
    (yes : Leaves second two rest other) (no : Leaves third three more last) :
    Leaves (first ++ otherwise :: (second ++ dest :: done :: third)) (fun name => one name ∨ two name ∨ three name)
      (code ++ [Instr.jumpIfZero value otherwise] ++ rest
        ++ [Instr.copy other (.var dest), Instr.jump done, Instr.label otherwise] ++ more ++ [Instr.copy last (.var dest), Instr.label done]) (.var dest) := by
  obtain ⟨⟨only, all⟩, place⟩ := cond
  obtain ⟨⟨onlyToo, allToo⟩, placeToo⟩ := yes
  obtain ⟨⟨onlyThree, allThree⟩, placeThree⟩ := no
  refine ⟨⟨fun name => ?_, fun name => ?_⟩, fun name => ?_⟩ <;> grind

end Code

mutual

theorem Expr.lower_draws (names : NameSupply) :
    ∀ expr : Expr, Pass.Draws id expr.lower names expr.codeStems
      (fun found given _ => Leaves given (expr.Mentions ·) found.1 found.2)
  | .number .. => Pass.draws_pure ⟨.nil, nofun⟩
  | .ident _ name => by
    refine Pass.draws_pure ⟨.nil, ?_⟩
    rintro _ ⟨⟩
    exact .inr rfl
  | .unary _ op operand => by
    unfold Expr.lower
    cases unaryOp? op with
    | none => exact Pass.draws_breach _
    | some op =>
      refine (Expr.lower_draws names operand).bind ?_
      rintro ⟨code, source⟩ given after leaves
      exact temp_draws fun name last => Pass.draws_pure (leaves.unary op)
  | .binary _ op left right => by
    unfold Expr.lower Expr.codeStems
    cases ShortCircuit.ofKind? op with
    | some op =>
      refine label_draws fun short _ => label_draws fun done _ => temp_draws fun dest start => ?_
      refine (Expr.lower_draws start left).bind ?_
      rintro ⟨leftCode, leftValue⟩ given middle first
      refine ((Expr.lower_draws middle right).mono ?_).map
      rintro ⟨rightCode, rightValue⟩ more last second
      exact first.shortCircuit second op
    | none =>
      cases binaryOp? op with
      | none => exact Pass.draws_breach _
      | some op =>
        refine (Expr.lower_draws names left).bind ?_
        rintro ⟨leftCode, leftValue⟩ given middle first
        refine (Expr.lower_draws middle right).bind ?_
        rintro ⟨rightCode, rightValue⟩ more last second
        exact temp_draws fun dest _ => Pass.draws_pure (first.binary second op)
  | .assign _ target value => by
    cases target with
    | ident _ name =>
      unfold Expr.lower
      refine ((Expr.lower_draws names value).mono ?_).map
      rintro ⟨code, source⟩ given after ⟨⟨only, all⟩, place⟩
      refine ⟨⟨fun other => ?_, fun other => ?_⟩, fun other => ?_⟩ <;> grind [Expr.Mentions]
    | _ => exact Pass.draws_breach _
  | .conditional _ cond yes no => by
    unfold Expr.lower
    refine (Expr.lower_draws names cond).bind ?_
    rintro ⟨condCode, condValue⟩ given after first
    refine label_draws fun otherwise start => (Expr.lower_draws start yes).bind ?_
    rintro ⟨yesCode, yesValue⟩ more middle second
    refine temp_draws fun dest _ => label_draws fun done last => ((Expr.lower_draws last no).mono ?_).map
    rintro ⟨noCode, noValue⟩ others _ third
    exact first.conditional second third
  | .call _ name args => by
    unfold Expr.lower
    refine (lowerArgs_draws names args).bind ?_
    rintro ⟨code, values⟩ given after ⟨⟨only, all⟩, place⟩
    refine temp_draws fun dest _ => Pass.draws_pure ⟨⟨fun other => ?_, fun other => ?_⟩, fun other => ?_⟩ <;>
      grind [Expr.Mentions]
  | .misplaced _ => Pass.draws_breach _

theorem lowerArgs_draws (names : NameSupply) :
    ∀ args : List Expr, Pass.Draws id (lowerArgs args) names (argsCodeStems args)
      (fun found given _ => Covers given (argsMention · args) found.1 ∧
        ∀ name, .var name ∈ found.2 → name ∈ given ∨ argsMention name args)
  | [] => Pass.draws_pure ⟨.nil, nofun⟩
  | arg :: rest => by
    unfold lowerArgs
    refine (Expr.lower_draws names arg).bind ?_
    rintro ⟨code, value⟩ given after ⟨⟨only, all⟩, place⟩
    refine ((lowerArgs_draws after rest).mono ?_).map
    rintro ⟨more, values⟩ others last ⟨⟨onlyToo, allToo⟩, placeToo⟩
    refine ⟨⟨fun name => ?_, fun name => ?_⟩, fun name => ?_⟩ <;> grind [argsMention]

end

theorem VarDecl.lower_draws (names : NameSupply) (decl : VarDecl) :
    Pass.Draws id decl.lower names decl.codeStems (fun code given _ => Covers given (decl.Mentions ·) code) := by
  obtain ⟨span, name, init, storage⟩ := decl
  unfold VarDecl.lower VarDecl.codeStems
  cases storage with
  | static | external => exact Pass.draws_pure .nil
  | automatic =>
    cases init with
    | none => exact Pass.draws_pure .nil
    | some init =>
      refine ((Expr.lower_draws names init).mono ?_).map
      rintro ⟨code, value⟩ given after ⟨⟨only, all⟩, place⟩
      refine ⟨fun other => ?_, fun other => ?_⟩ <;> grind [VarDecl.Mentions, optionalMentions]

theorem ForInit.lower_draws (names : NameSupply) (init : ForInit) :
    Pass.Draws id init.lower names init.codeStems (fun code given _ => Covers given (init.Mentions ·) code) := by
  cases init with
  | none => exact Pass.draws_pure .nil
  | var decl => exact VarDecl.lower_draws names decl
  | expr value => exact ((Expr.lower_draws names value).mono fun _ _ _ leaves => leaves.code).map

theorem lowerGuard_draws (loop : String) (names : NameSupply) (cond : Option Expr) :
    Pass.Draws id (lowerGuard loop cond) names (optionalCodeStems cond)
      (fun code given _ => Covers given (optionalMentions · cond) code) := by
  cases cond with
  | none => exact Pass.draws_pure .nil
  | some cond =>
    refine ((Expr.lower_draws names cond).mono ?_).map
    rintro ⟨code, value⟩ given after ⟨⟨only, all⟩, place⟩
    refine ⟨fun other => ?_, fun other => ?_⟩ <;> grind [optionalMentions]

theorem lowerPost_draws (names : NameSupply) (post : Option Expr) :
    Pass.Draws id (lowerPost post) names (optionalCodeStems post)
      (fun code given _ => Covers given (optionalMentions · post) code) := by
  cases post with
  | none => exact Pass.draws_pure .nil
  | some post =>
    refine ((Expr.lower_draws names post).mono ?_).map
    rintro ⟨code, value⟩ given after ⟨⟨only, all⟩, -⟩
    refine ⟨fun other => ?_, fun other => ?_⟩ <;> grind [optionalMentions]

/-- What is known to the code of a statement: its variables, and the labels of its loops. -/
def Stmt.Knows (stmt : Stmt) (name : String) : Prop := stmt.Mentions name ∨ name ∈ loopLabels stmt.loops

def Block.Knows (block : Block) (name : String) : Prop := block.Mentions name ∨ name ∈ loopLabels block.loops

def itemsKnow (items : List Item) (name : String) : Prop := itemsMention name items ∨ name ∈ loopLabels (itemsLoops items)

mutual

theorem Stmt.lower_draws (names : NameSupply) :
    ∀ stmt : Stmt, Pass.Draws id stmt.lower names stmt.codeStems (fun code given _ => Covers given stmt.Knows code)
  | .ret _ value => by
    unfold Stmt.lower
    refine ((Expr.lower_draws names value).mono ?_).map
    rintro ⟨code, value⟩ given after ⟨⟨only, all⟩, place⟩
    refine ⟨fun name => ?_, fun name => ?_⟩ <;> grind [Stmt.Knows, Stmt.Mentions]
  | .expr _ value => by
    unfold Stmt.lower
    refine ((Expr.lower_draws names value).mono ?_).map
    rintro ⟨code, value⟩ given after ⟨⟨only, all⟩, -⟩
    refine ⟨fun name => ?_, fun name => ?_⟩ <;> grind [Stmt.Knows, Stmt.Mentions]
  | .branch _ cond yes none => by
    unfold Stmt.lower
    refine (Expr.lower_draws names cond).bind ?_
    rintro ⟨condCode, condValue⟩ given after ⟨⟨only, all⟩, place⟩
    refine label_draws fun done start => ((Stmt.lower_draws start yes).mono ?_).map
    rintro code more last ⟨onlyToo, allToo⟩
    refine ⟨fun name => ?_, fun name => ?_⟩ <;> grind [Stmt.Knows, Stmt.Mentions, Stmt.loops]
  | .branch _ cond yes (some no) => by
    unfold Stmt.lower
    refine (Expr.lower_draws names cond).bind ?_
    rintro ⟨condCode, condValue⟩ given after ⟨⟨only, all⟩, place⟩
    refine label_draws fun otherwise start => (Stmt.lower_draws start yes).bind ?_
    rintro yesCode more middle ⟨onlyYes, allYes⟩
    refine label_draws fun done last => ((Stmt.lower_draws last no).mono ?_).map
    rintro noCode others _ ⟨onlyNo, allNo⟩
    refine ⟨fun name => ?_, fun name => ?_⟩ <;> grind [Stmt.Knows, Stmt.Mentions, Stmt.loops, loopLabels_append]
  | .block body => Block.lower_draws names body
  | .breakLoop .. | .continueLoop .. => by
    refine Pass.draws_pure ⟨fun name => ?_, fun name => ?_⟩ <;> grind
  | .whileLoop _ cond body loop => by
    unfold Stmt.lower
    refine (Expr.lower_draws names cond).bind ?_
    rintro ⟨condCode, condValue⟩ given after ⟨⟨only, all⟩, place⟩
    refine ((Stmt.lower_draws after body).mono ?_).map
    rintro code more last ⟨onlyToo, allToo⟩
    refine ⟨fun name => ?_, fun name => ?_⟩ <;> grind [Stmt.Knows, Stmt.Mentions, Stmt.loops, loopLabels_cons]
  | .doLoop _ body cond loop => by
    unfold Stmt.lower
    refine label_draws fun start after => (Stmt.lower_draws after body).bind ?_
    rintro bodyCode given middle ⟨onlyToo, allToo⟩
    refine ((Expr.lower_draws middle cond).mono ?_).map
    rintro ⟨condCode, condValue⟩ more last ⟨⟨only, all⟩, place⟩
    refine ⟨fun name => ?_, fun name => ?_⟩ <;> grind [Stmt.Knows, Stmt.Mentions, Stmt.loops, loopLabels_cons]
  | .forLoop _ init cond post body loop => by
    rw [Stmt.lower_forLoop]
    -- Only the start has a label of its own; where a loop is left or goes on is known from its id.
    refine label_draws fun start after => (ForInit.lower_draws after init).bind ?_
    rintro initCode first second ⟨onlyInit, allInit⟩
    refine (lowerGuard_draws loop second cond).bind ?_
    rintro condCode given third ⟨onlyCond, allCond⟩
    refine (Stmt.lower_draws third body).bind ?_
    rintro bodyCode more fourth ⟨onlyBody, allBody⟩
    refine ((lowerPost_draws fourth post).mono ?_).map
    rintro postCode others last ⟨onlyPost, allPost⟩
    refine ⟨fun name => ?_, fun name => ?_⟩ <;> grind [Stmt.Knows, Stmt.Mentions, Stmt.loops, loopLabels_cons]
  | .empty _ => Pass.draws_pure .nil
  | .misplaced _ => Pass.draws_breach _

theorem Block.lower_draws (names : NameSupply) :
    ∀ block : Block, Pass.Draws id block.lower names block.codeStems (fun code given _ => Covers given block.Knows code)
  | ⟨_, items⟩ => lowerItems_draws names items

theorem lowerItems_draws (names : NameSupply) :
    ∀ items : List Item, Pass.Draws id (lowerItems items) names (itemsCodeStems items)
      (fun code given _ => Covers given (itemsKnow items) code)
  | [] => Pass.draws_pure .nil
  | .func _ :: rest => lowerItems_draws names rest
  | .var decl :: rest => by
    unfold lowerItems
    refine (VarDecl.lower_draws names decl).bind ?_
    rintro code given after ⟨only, all⟩
    refine ((lowerItems_draws after rest).mono ?_).map
    rintro others more last ⟨onlyToo, allToo⟩
    refine ⟨fun name => ?_, fun name => ?_⟩ <;> grind [itemsKnow, itemsMention, itemsLoops]
  | .stmt stmt :: rest => by
    unfold lowerItems
    refine (Stmt.lower_draws names stmt).bind ?_
    rintro code given after ⟨only, all⟩
    refine ((lowerItems_draws after rest).mono ?_).map
    rintro others more last ⟨onlyToo, allToo⟩
    refine ⟨fun name => ?_, fun name => ?_⟩ <;>
      grind [itemsKnow, itemsMention, itemsLoops, Stmt.Knows, loopLabels_append]

end

theorem FuncDecl.lower_draws (table : SymbolTable) (names : NameSupply) (decl : FuncDecl) (body : Block) :
    Pass.Draws id (decl.lower table body) names body.codeStems (fun func given _ => Covers given body.Knows func.body) := by
  unfold FuncDecl.lower
  split
  · exact Pass.draws_breach _
  · refine ((Block.lower_draws names body).mono ?_).map
    rintro code given after ⟨only, all⟩
    refine ⟨fun name => ?_, fun name => ?_⟩ <;> grind
  · exact Pass.draws_breach _

theorem lowerUnit_draws (table : SymbolTable) (names : NameSupply) (items : List Item) :
    Pass.Draws id (lowerUnit table items) names (unitCodeStems items) (fun funcs given _ =>
      Covers given (fun name => ∃ made ∈ definitions items, made.2.Knows name) (funcs.flatMap Tac.Func.body)) := by
  induction items generalizing names with
  | nil => exact Pass.draws_pure .nil
  | cons item rest ih =>
    cases item with
    | var decl | stmt other => exact ih names
    | func decl =>
      obtain ⟨span, name, params, body, storage⟩ := decl
      cases body with
      | none => exact ih names
      | some body =>
        refine (FuncDecl.lower_draws table names _ body).bind ?_
        rintro func given after ⟨only, all⟩
        refine ((ih after).mono ?_).map
        rintro funcs more last ⟨onlyToo, allToo⟩
        refine ⟨fun name found => ?_, fun name member => ?_⟩ <;>
          simp only [List.flatMap_cons, Tac.mentions_append, List.mem_append] at *
        · rcases found with here | later
          · exact (only name here).imp .inl fun known => ⟨_, List.mem_cons_self, known⟩
          · refine (onlyToo name later).imp .inr ?_
            rintro ⟨made, among, known⟩
            exact ⟨made, List.mem_cons_of_mem _ among, known⟩
        · exact member.imp (all name) (allToo name)

/-- Lowering takes names for the labels and the intermediate values of the code; it uses each of them, and the code
has no other names than these, the variables of the tree and the labels of its loops. -/
theorem Program.lower_draws (table : SymbolTable) (names : NameSupply) (program : Program) :
    Pass.Draws id (program.lower table) names (unitCodeStems program.items) (fun code given _ =>
      Covers given (fun name => ∃ made ∈ definitions program.items, made.2.Knows name)
        (code.funcs.flatMap Tac.Func.body)) :=
  (lowerUnit_draws table names program.items).map

end IntC
