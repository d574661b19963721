import IntC.Proofs.Pass
import IntC.Proofs.Traverse
import IntC.Proofs.Tree.Shape

namespace IntC

open Tac (Value Instr)

mutual

/-- The code that an expression becomes, and where its value is afterwards. The names that it needs are given out from the
first number on, up to the last one. -/
inductive Expr.Lowered : Expr → Nat → Nat → List Instr → Value → Prop
  | number {span value first} : Expr.Lowered (.number span value) first first [] (.const value)
  | ident {span name first} : Expr.Lowered (.ident span name) first first [] (.var name)
  | unary {span op meaning operand first last code source} : unaryOp? op = some meaning →
      Expr.Lowered operand first last code source →
      Expr.Lowered (.unary span op operand) first (last + 1)
        (code ++ [Instr.unary meaning source (.var (NameSupply.temp ⟨last⟩).1)]) (.var (NameSupply.temp ⟨last⟩).1)
  -- Both labels and the result have their names before the operands have any of theirs.
  | shortCircuit (meaning) {span op left right first middle last leftCode leftValue rightCode rightValue} :
      ShortCircuit.ofKind? op = some meaning → Expr.Lowered left (first + 3) middle leftCode leftValue →
      Expr.Lowered right middle last rightCode rightValue →
      Expr.Lowered (.binary span op left right) first last
        (leftCode ++ [meaning.leave leftValue (NameSupply.fresh ⟨first⟩ meaning.shortStem).1] ++ rightCode ++ [
          meaning.leave rightValue (NameSupply.fresh ⟨first⟩ meaning.shortStem).1,
          Instr.copy (.const meaning.fullValue) (.var (NameSupply.temp ⟨first + 2⟩).1),
          Instr.jump (NameSupply.fresh ⟨first + 1⟩ meaning.endStem).1,
          Instr.label (NameSupply.fresh ⟨first⟩ meaning.shortStem).1,
          Instr.copy (.const meaning.shortValue) (.var (NameSupply.temp ⟨first + 2⟩).1),
          Instr.label (NameSupply.fresh ⟨first + 1⟩ meaning.endStem).1]) (.var (NameSupply.temp ⟨first + 2⟩).1)
  | binary {span op meaning left right first middle last leftCode leftValue rightCode rightValue} :
      ShortCircuit.ofKind? op = none → binaryOp? op = some meaning →
      Expr.Lowered left first middle leftCode leftValue → Expr.Lowered right middle last rightCode rightValue →
      Expr.Lowered (.binary span op left right) first (last + 1)
        (leftCode ++ rightCode ++ [Instr.binary meaning leftValue rightValue (.var (NameSupply.temp ⟨last⟩).1)])
        (.var (NameSupply.temp ⟨last⟩).1)
  | assign {span place name value first last code source} : Expr.Lowered value first last code source →
      Expr.Lowered (.assign span (.ident place name) value) first last (code ++ [Instr.copy source (.var name)]) (.var name)
  -- The name of the result comes only behind those of the first branch.
  | conditional {span cond yes no first second third last condCode condValue yesCode yesValue noCode noValue} :
      Expr.Lowered cond first second condCode condValue → Expr.Lowered yes (second + 1) third yesCode yesValue →
      Expr.Lowered no (third + 2) last noCode noValue →
      Expr.Lowered (.conditional span cond yes no) first last
        (condCode ++ [Instr.jumpIfZero condValue (NameSupply.fresh ⟨second⟩ "conditional_else").1] ++ yesCode ++ [
          Instr.copy yesValue (.var (NameSupply.temp ⟨third⟩).1),
          Instr.jump (NameSupply.fresh ⟨third + 1⟩ "conditional_end").1,
          Instr.label (NameSupply.fresh ⟨second⟩ "conditional_else").1] ++ noCode ++ [
          Instr.copy noValue (.var (NameSupply.temp ⟨third⟩).1),
          Instr.label (NameSupply.fresh ⟨third + 1⟩ "conditional_end").1]) (.var (NameSupply.temp ⟨third⟩).1)
  | call {span name args first last code values} : ArgsLowered args first last code values →
      Expr.Lowered (.call span name args) first (last + 1)
        (code ++ [Instr.call name values (.var (NameSupply.temp ⟨last⟩).1)]) (.var (NameSupply.temp ⟨last⟩).1)

inductive ArgsLowered : List Expr → Nat → Nat → List Instr → List Value → Prop
  | nil {first} : ArgsLowered [] first first [] []
  | cons {arg rest first middle last code value more values} : Expr.Lowered arg first middle code value →
      ArgsLowered rest middle last more values → ArgsLowered (arg :: rest) first last (code ++ more) (value :: values)

end

/-- Only an automatic variable with an initializer needs code. -/
inductive VarDecl.Lowered : VarDecl → Nat → Nat → List Instr → Prop
  | initialized {span name init first last code value} : init.Lowered first last code value →
      VarDecl.Lowered ⟨span, name, some init, .automatic⟩ first last (code ++ [Instr.copy value (.var name)])
  | silent {decl first} : decl.init = none ∨ decl.storage ≠ .automatic → VarDecl.Lowered decl first first []

inductive ForInit.Lowered : ForInit → Nat → Nat → List Instr → Prop
  | none {first} : ForInit.Lowered .none first first []
  | var {decl first last code} : decl.Lowered first last code → ForInit.Lowered (.var decl) first last code
  | expr {init first last code value} : init.Lowered first last code value →
      ForInit.Lowered (.expr init) first last code

/-- The code that leaves a loop when its condition fails; a loop without one is not left there. -/
inductive GuardLowered (id : String) : Option Expr → Nat → Nat → List Instr → Prop
  | none {first} : GuardLowered id .none first first []
  | some {cond first last code value} : cond.Lowered first last code value →
      GuardLowered id (.some cond) first last (code ++ [Instr.jumpIfZero value (breakTarget id)])

/-- The code of the last part of a `for` header. -/
inductive PostLowered : Option Expr → Nat → Nat → List Instr → Prop
  | none {first} : PostLowered .none first first []
  | some {post first last code value} : post.Lowered first last code value → PostLowered (.some post) first last code

mutual

/-- The code that a statement becomes. A loop is left and goes on at the labels of its id. -/
inductive Stmt.Lowered : Stmt → Nat → Nat → List Instr → Prop
  | ret {span value first last code result} : value.Lowered first last code result →
      Stmt.Lowered (.ret span value) first last (code ++ [Instr.ret result])
  | expr {span value first last code result} : value.Lowered first last code result →
      Stmt.Lowered (.expr span value) first last code
  | ifThen {span cond yes first second last condCode condValue yesCode} :
      cond.Lowered first second condCode condValue → Stmt.Lowered yes (second + 1) last yesCode →
      Stmt.Lowered (.branch span cond yes none) first last
        (condCode ++ [Instr.jumpIfZero condValue (NameSupply.fresh ⟨second⟩ "if_end").1] ++ yesCode
          ++ [Instr.label (NameSupply.fresh ⟨second⟩ "if_end").1])
  | ifElse {span cond yes no first second third last condCode condValue yesCode noCode} :
      cond.Lowered first second condCode condValue → Stmt.Lowered yes (second + 1) third yesCode →
      Stmt.Lowered no (third + 1) last noCode →
      Stmt.Lowered (.branch span cond yes (some no)) first last
        (condCode ++ [Instr.jumpIfZero condValue (NameSupply.fresh ⟨second⟩ "else").1] ++ yesCode ++ [
          Instr.jump (NameSupply.fresh ⟨third⟩ "if_else_end").1,
          Instr.label (NameSupply.fresh ⟨second⟩ "else").1] ++ noCode
          ++ [Instr.label (NameSupply.fresh ⟨third⟩ "if_else_end").1])
  | block {span items first last code} : ItemsLowered items first last code →
      Stmt.Lowered (.block ⟨span, items⟩) first last code
  | breakLoop {span id first} : Stmt.Lowered (.breakLoop span id) first first [Instr.jump (breakTarget id)]
  | continueLoop {span id first} : Stmt.Lowered (.continueLoop span id) first first [Instr.jump (continueTarget id)]
  | whileLoop (id) {span cond body first middle last condCode condValue bodyCode} :
      cond.Lowered first middle condCode condValue → Stmt.Lowered body middle last bodyCode →
      Stmt.Lowered (.whileLoop span cond body id) first last
        ([Instr.label (continueTarget id)] ++ condCode ++ [Instr.jumpIfZero condValue (breakTarget id)] ++ bodyCode
          ++ [Instr.jump (continueTarget id), Instr.label (breakTarget id)])
  | doLoop (id) {span body cond first middle last bodyCode condCode condValue} :
      Stmt.Lowered body (first + 1) middle bodyCode → cond.Lowered middle last condCode condValue →
      Stmt.Lowered (.doLoop span body cond id) first last
        ([Instr.label (NameSupply.fresh ⟨first⟩ "do_loop_start").1] ++ bodyCode ++ [Instr.label (continueTarget id)]
          ++ condCode ++ [
          Instr.jumpIfNotZero condValue (NameSupply.fresh ⟨first⟩ "do_loop_start").1,
          Instr.label (breakTarget id)])
  | forLoop (id) {span init cond post body first second third fourth last initCode condCode bodyCode postCode} :
      init.Lowered (first + 1) second initCode → GuardLowered id cond second third condCode →
      Stmt.Lowered body third fourth bodyCode → PostLowered post fourth last postCode →
      Stmt.Lowered (.forLoop span init cond post body id) first last
        (initCode ++ [Instr.label (NameSupply.fresh ⟨first⟩ "for_start").1] ++ condCode ++ bodyCode
          ++ [Instr.label (continueTarget id)] ++ postCode
          ++ [Instr.jump (NameSupply.fresh ⟨first⟩ "for_start").1, Instr.label (breakTarget id)])
  | empty {span first} : Stmt.Lowered (.empty span) first first []

inductive ItemsLowered : List Item → Nat → Nat → List Instr → Prop
  | nil {first} : ItemsLowered [] first first []
  | func {decl rest first last code} : ItemsLowered rest first last code →
      ItemsLowered (.func decl :: rest) first last code
  | var {decl rest first middle last code more} : decl.Lowered first middle code →
      ItemsLowered rest middle last more → ItemsLowered (.var decl :: rest) first last (code ++ more)
  | stmt {stmt rest first middle last code more} : Stmt.Lowered stmt first middle code →
      ItemsLowered rest middle last more → ItemsLowered (.stmt stmt :: rest) first last (code ++ more)

end

/-- A function has the linkage that the table gives it, and a body that runs off its end returns zero. -/
inductive FuncDecl.Lowered (table : SymbolTable) : FuncDecl × Block → Nat → Nat → Tac.Func → Prop
  | made {decl span items type defined global first last code} :
      table.get? decl.name = some ⟨type, .func defined global⟩ → ItemsLowered items first last code →
      FuncDecl.Lowered table (decl, ⟨span, items⟩) first last
        { name := decl.name, global, params := decl.params.map Param.name, body := code ++ [Instr.ret (.const 0)] }

/-- The functions of a unit are those of its definitions, each lowered in its turn. -/
inductive UnitLowered (table : SymbolTable) : List (FuncDecl × Block) → Nat → Nat → List Tac.Func → Prop
  | nil {first} : UnitLowered table [] first first []
  | cons {made rest first middle last func funcs} : FuncDecl.Lowered table made first middle func →
      UnitLowered table rest middle last funcs → UnitLowered table (made :: rest) first last (func :: funcs)

section Le
variable {first last : Nat} {code : List Instr}

mutual

theorem Expr.Lowered.le {expr : Expr} {first last : Nat} {code : List Instr} {value : Value} :
    expr.Lowered first last code value → first ≤ last
  | .number | .ident => Nat.le.refl
  | .unary _ operand => Nat.le_succ_of_le operand.le
  | .shortCircuit _ _ left right => Nat.le_trans (Nat.le_of_add_right_le left.le) right.le
  | .binary _ _ left right => Nat.le_succ_of_le (Nat.le_trans left.le right.le)
  | .assign value => value.le
  | .conditional cond yes no =>
    Nat.le_trans cond.le (Nat.le_trans (Nat.le_of_succ_le yes.le) (Nat.le_of_add_right_le no.le))
  | .call args => Nat.le_succ_of_le args.le

theorem ArgsLowered.le {args : List Expr} {first last : Nat} {code : List Instr} {values : List Value} :
    ArgsLowered args first last code values → first ≤ last
  | .nil => Nat.le.refl
  | .cons arg rest => Nat.le_trans arg.le rest.le

end

theorem VarDecl.Lowered.le {decl : VarDecl} (lowered : decl.Lowered first last code) : first ≤ last := by
  cases lowered with
  | initialized init => exact init.le
  | silent => exact Nat.le.refl

theorem ForInit.Lowered.le {init : ForInit} (lowered : init.Lowered first last code) : first ≤ last := by
  cases lowered with
  | none => exact Nat.le.refl
  | var decl => exact decl.le
  | expr value => exact value.le

theorem GuardLowered.le {id : String} {cond : Option Expr} (lowered : GuardLowered id cond first last code) :
    first ≤ last := by
  cases lowered with
  | none => exact Nat.le.refl
  | some cond => exact cond.le

theorem PostLowered.le {post : Option Expr} (lowered : PostLowered post first last code) : first ≤ last := by
  cases lowered with
  | none => exact Nat.le.refl
  | some post => exact post.le

mutual

theorem Stmt.Lowered.le {stmt : Stmt} {first last : Nat} {code : List Instr} :
    stmt.Lowered first last code → first ≤ last
  | .ret value | .expr value => value.le
  | .ifThen cond yes => Nat.le_trans cond.le (Nat.le_of_succ_le yes.le)
  | .ifElse cond yes no =>
    Nat.le_trans cond.le (Nat.le_trans (Nat.le_of_succ_le yes.le) (Nat.le_of_succ_le no.le))
  | .block items => items.le
  | .breakLoop | .continueLoop | .empty => Nat.le.refl
  | .whileLoop _ cond body => Nat.le_trans cond.le body.le
  | .doLoop _ body cond => Nat.le_trans (Nat.le_of_succ_le body.le) cond.le
  | .forLoop _ init cond body post =>
    Nat.le_trans (Nat.le_of_succ_le init.le) (Nat.le_trans cond.le (Nat.le_trans body.le post.le))

theorem ItemsLowered.le {items : List Item} {first last : Nat} {code : List Instr} :
    ItemsLowered items first last code → first ≤ last
  | .nil => Nat.le.refl
  | .func rest => rest.le
  | .var decl rest => Nat.le_trans decl.le rest.le
  | .stmt stmt rest => Nat.le_trans stmt.le rest.le

end

end Le

@[simp] theorem Lower.meets_temp {names : NameSupply} {done : Value → NameSupply → Prop} {failed : Error → Prop} :
    Pass.Meets Lower.temp names done failed ↔ done (.var names.temp.1) names.temp.2 := by
  unfold Lower.temp
  rw [Pass.meets_map, Pass.meets_modifyGet]

@[simp] theorem Lower.meets_label {names : NameSupply} {stem : String} {done : String → NameSupply → Prop}
    {failed : Error → Prop} :
    Pass.Meets (Lower.label stem) names done failed ↔ done (names.fresh stem).1 (names.fresh stem).2 := Iff.rfl

mutual

/-- An expression over known names is lowered, whatever it is. -/
theorem Expr.lower_meets {known : List String} (names : NameSupply) :
    ∀ expr : Expr, expr.Uses known → Pass.Meets expr.lower names (fun found after =>
      expr.Lowered names.next after.next found.1 found.2) fun _ => False
  | .number .., _ => .number
  | .ident .., _ => .ident
  | .unary _ op operand, uses => by
    obtain ⟨meaning, defined⟩ := Option.isSome_iff_exists.mp uses.1
    unfold Expr.lower
    simp only [defined]
    refine (Expr.lower_meets names operand uses.2).bind ?_
    rintro ⟨code, source⟩ after lowered
    simp only [Pass.meets_bind, Pass.meets_pure, Lower.meets_temp]
    exact .unary defined lowered
  | .binary _ op left right, uses => by
    obtain ⟨allowed, leftUses, rightUses⟩ := uses
    unfold Expr.lower
    cases short : ShortCircuit.ofKind? op with
    | some meaning =>
      simp only [Pass.meets_bind, Lower.meets_label, Lower.meets_temp, Pass.meets_pure]
      refine (Expr.lower_meets ⟨names.next + 3⟩ left leftUses).mono ?_
      rintro ⟨leftCode, leftValue⟩ middle leftLowered
      refine (Expr.lower_meets middle right rightUses).mono ?_
      rintro ⟨rightCode, rightValue⟩ after rightLowered
      exact .shortCircuit meaning short leftLowered rightLowered
    | none =>
      simp only [TokenKind.isBinary, short, Option.isSome_none, Bool.false_or] at allowed
      obtain ⟨meaning, defined⟩ := Option.isSome_iff_exists.mp allowed
      simp only [defined]
      refine (Expr.lower_meets names left leftUses).bind ?_
      rintro ⟨leftCode, leftValue⟩ middle leftLowered
      refine (Expr.lower_meets middle right rightUses).bind ?_
      rintro ⟨rightCode, rightValue⟩ after rightLowered
      simp only [Pass.meets_bind, Pass.meets_pure, Lower.meets_temp]
      exact .binary short defined leftLowered rightLowered
  | .assign _ target value, uses => by
    cases target with
    | ident _ name =>
      unfold Expr.lower
      refine (Expr.lower_meets names value uses.2).bind ?_
      rintro ⟨code, source⟩ after lowered
      exact .assign lowered
    | _ => exact uses.elim
  | .conditional _ cond yes no, uses => by
    unfold Expr.lower
    refine (Expr.lower_meets names cond uses.1).bind ?_
    rintro ⟨condCode, condValue⟩ second condLowered
    simp only [Pass.meets_bind, Lower.meets_label, Lower.meets_temp, Pass.meets_pure]
    refine (Expr.lower_meets ⟨second.next + 1⟩ yes uses.2.1).mono ?_
    rintro ⟨yesCode, yesValue⟩ third yesLowered
    refine (Expr.lower_meets ⟨third.next + 2⟩ no uses.2.2).mono ?_
    rintro ⟨noCode, noValue⟩ after noLowered
    exact .conditional condLowered yesLowered noLowered
  | .call _ name args, uses => by
    unfold Expr.lower
    refine (lowerArgs_meets names args uses.2).bind ?_
    rintro ⟨code, values⟩ after lowered
    simp only [Pass.meets_bind, Pass.meets_pure, Lower.meets_temp]
    exact .call lowered
  | .misplaced _, uses => uses.elim

theorem lowerArgs_meets {known : List String} (names : NameSupply) :
    ∀ args : List Expr, argsUse known args → Pass.Meets (lowerArgs args) names (fun found after =>
      ArgsLowered args names.next after.next found.1 found.2) fun _ => False
  | [], _ => .nil
  | arg :: rest, uses => by
    unfold lowerArgs
    refine (Expr.lower_meets names arg uses.1).bind ?_
    rintro ⟨code, value⟩ middle lowered
    refine (lowerArgs_meets middle rest uses.2).bind ?_
    rintro ⟨more, values⟩ after others
    exact .cons lowered others

end

section Parts
variable {bound : Nat} {known : List String}

theorem VarDecl.lower_meets (names : NameSupply) {decl : VarDecl} (fits : decl.Bound bound known) :
    Pass.Meets decl.lower names (fun code after => decl.Lowered names.next after.next code) fun _ => False := by
  obtain ⟨span, name, init, storage⟩ := decl
  cases storage with
  | automatic =>
    cases init with
    | none => exact .silent (.inl rfl)
    | some init =>
      have inside := ((VarDecl.bound_of_ne_external (by exact nofun)).mp fits).2
      refine (Expr.lower_meets names init (inside init rfl)).bind ?_
      rintro ⟨code, value⟩ after lowered
      exact .initialized lowered
  | static | external => exact .silent (.inr nofun)

theorem ForInit.lower_meets (names : NameSupply) {init : ForInit} (fits : init.Bound bound known) :
    Pass.Meets init.lower names (fun code after => init.Lowered names.next after.next code) fun _ => False := by
  cases init with
  | none => exact .none
  | var decl => exact (VarDecl.lower_meets names fits).mono fun _ _ lowered => .var lowered
  | expr value => exact (Expr.lower_meets names value fits).bind fun _ _ lowered => .expr lowered

/-- The part of a loop that tests its condition. -/
def lowerGuard (id : String) : Option Expr → Lower (List Instr)
  | none => return []
  | some cond => do
    let (code, value) ← cond.lower
    return code ++ [.jumpIfZero value (breakTarget id)]

def lowerPost : Option Expr → Lower (List Instr)
  | none => return []
  | some value => return (← value.lower).1

theorem Stmt.lower_forLoop (span : Span) (init : ForInit) (cond post : Option Expr) (body : Stmt) (id : String) :
    (Stmt.forLoop span init cond post body id).lower = (do
      let start ← Lower.label "for_start"
      let initCode ← init.lower
      let condCode ← lowerGuard id cond
      let bodyCode ← body.lower
      let postCode ← lowerPost post
      return initCode ++ [Instr.label start] ++ condCode ++ bodyCode ++ [Instr.label (continueTarget id)]
        ++ postCode ++ [Instr.jump start, Instr.label (breakTarget id)]) := by
  cases cond <;> cases post <;> simp [Stmt.lower, lowerGuard, lowerPost]

theorem lowerGuard_meets (id : String) (names : NameSupply) {cond : Option Expr}
    (uses : ∀ value ∈ cond, value.Uses known) :
    Pass.Meets (lowerGuard id cond) names (fun code after => GuardLowered id cond names.next after.next code)
      fun _ => False := by
  cases cond with
  | none => exact .none
  | some cond => exact (Expr.lower_meets names cond (uses cond rfl)).bind fun _ _ lowered => .some lowered

theorem lowerPost_meets (names : NameSupply) {post : Option Expr} (uses : ∀ value ∈ post, value.Uses known) :
    Pass.Meets (lowerPost post) names (fun code after => PostLowered post names.next after.next code)
      fun _ => False := by
  cases post with
  | none => exact .none
  | some value => exact (Expr.lower_meets names value (uses value rfl)).bind fun _ _ lowered => .some lowered

end Parts

mutual

/-- A statement with its names resolved is lowered, whatever it is. -/
theorem Stmt.lower_meets {bound : Nat} {known : List String} (names : NameSupply) :
    ∀ stmt : Stmt, stmt.Bound bound known → Pass.Meets stmt.lower names (fun code after =>
      stmt.Lowered names.next after.next code) fun _ => False
  | .ret _ value, fits => by
    unfold Stmt.lower
    exact (Expr.lower_meets names value fits).bind fun _ _ lowered => .ret lowered
  | .expr _ value, fits => by
    unfold Stmt.lower
    exact (Expr.lower_meets names value fits).bind fun _ _ lowered => .expr lowered
  | .branch _ cond yes none, fits => by
    unfold Stmt.lower
    refine (Expr.lower_meets names cond fits.1).bind ?_
    rintro ⟨condCode, condValue⟩ second condLowered
    simp only [Pass.meets_bind, Lower.meets_label, Pass.meets_pure]
    exact (Stmt.lower_meets ⟨second.next + 1⟩ yes fits.2).mono fun _ _ yesLowered => .ifThen condLowered yesLowered
  | .branch _ cond yes (some no), fits => by
    unfold Stmt.lower
    refine (Expr.lower_meets names cond fits.1).bind ?_
    rintro ⟨condCode, condValue⟩ second condLowered
    simp only [Pass.meets_bind, Lower.meets_label, Pass.meets_pure]
    refine (Stmt.lower_meets ⟨second.next + 1⟩ yes fits.2.1).mono fun yesCode third yesLowered => ?_
    exact (Stmt.lower_meets ⟨third.next + 1⟩ no fits.2.2).mono fun _ _ noLowered =>
      .ifElse condLowered yesLowered noLowered
  | .block ⟨_, items⟩, fits => by
    unfold Stmt.lower Block.lower
    exact (lowerItems_meets names items fits).mono fun _ _ lowered => .block lowered
  | .breakLoop .., _ => .breakLoop
  | .continueLoop .., _ => .continueLoop
  | .whileLoop _ cond body _, fits => by
    unfold Stmt.lower
    refine (Expr.lower_meets names cond fits.1).bind ?_
    rintro ⟨condCode, condValue⟩ middle condLowered
    exact (Stmt.lower_meets middle body fits.2).bind fun _ _ bodyLowered => .whileLoop _ condLowered bodyLowered
  | .doLoop _ body cond _, fits => by
    unfold Stmt.lower
    simp only [Pass.meets_bind, Lower.meets_label, Pass.meets_pure]
    refine (Stmt.lower_meets ⟨names.next + 1⟩ body fits.1).mono fun bodyCode middle bodyLowered => ?_
    refine (Expr.lower_meets middle cond fits.2).mono ?_
    rintro ⟨condCode, condValue⟩ after condLowered
    exact .doLoop _ bodyLowered condLowered
  | .forLoop _ init cond post body id, fits => by
    rw [Stmt.lower_forLoop]
    obtain ⟨initFits, condUses, postUses, bodyFits⟩ := fits
    simp only [Pass.meets_bind, Lower.meets_label, Pass.meets_pure]
    refine (ForInit.lower_meets ⟨names.next + 1⟩ initFits).mono fun initCode second initLowered => ?_
    refine (lowerGuard_meets id second condUses).mono fun condCode third condLowered => ?_
    refine (Stmt.lower_meets third body bodyFits).mono fun bodyCode fourth bodyLowered => ?_
    exact (lowerPost_meets fourth postUses).mono fun _ _ postLowered =>
      .forLoop id initLowered condLowered bodyLowered postLowered
  | .empty _, _ => .empty
  | .misplaced _, fits => fits.elim

theorem lowerItems_meets {bound : Nat} {known : List String} (names : NameSupply) :
    ∀ items : List Item, itemsBound bound known items → Pass.Meets (lowerItems items) names (fun code after =>
      ItemsLowered items names.next after.next code) fun _ => False
  | [], _ => .nil
  | .func _ :: rest, fits => by
    unfold lowerItems
    exact (lowerItems_meets names rest fits.2).mono fun _ _ lowered => .func lowered
  | .var decl :: rest, fits => by
    unfold lowerItems
    refine (VarDecl.lower_meets names fits.1).bind fun code middle lowered => ?_
    exact (lowerItems_meets middle rest fits.2).bind fun _ _ others => .var lowered others
  | .stmt stmt :: rest, fits => by
    unfold lowerItems
    refine (Stmt.lower_meets names stmt fits.1).bind fun code middle lowered => ?_
    exact (lowerItems_meets middle rest fits.2).bind fun _ _ others => .stmt lowered others

end

section Unit
variable {table : SymbolTable}

/-- A function of the table is lowered if its body has its names resolved. -/
theorem FuncDecl.lower_meets {decl : FuncDecl} {body : Block} {bound : Nat} {known : List String}
    {type : SymbolType} {defined global : Bool} (found : table.get? decl.name = some ⟨type, .func defined global⟩)
    (fits : body.Bound bound known) (names : NameSupply) :
    Pass.Meets (decl.lower table body) names (fun func after =>
      FuncDecl.Lowered table (decl, body) names.next after.next func) fun _ => False := by
  obtain ⟨span, items⟩ := body
  unfold FuncDecl.lower Block.lower
  rw [found]
  exact (lowerItems_meets names items fits).bind fun _ _ lowered => .made found lowered

theorem lowerUnit_meets {items : List Item} (each : ∀ made ∈ definitions items, ∀ names : NameSupply,
      Pass.Meets (made.1.lower table made.2) names (fun func after =>
        FuncDecl.Lowered table made names.next after.next func) fun _ => False) (names : NameSupply) :
    Pass.Meets (lowerUnit table items) names (fun funcs after =>
      UnitLowered table (definitions items) names.next after.next funcs) fun _ => False := by
  induction items generalizing names with
  | nil => exact .nil
  | cons item rest ih =>
    cases item with
    | var decl | stmt decl => exact ih each names
    | func decl =>
      obtain ⟨span, name, params, body, storage⟩ := decl
      cases body with
      | none => exact ih each names
      | some body =>
        obtain ⟨here, others⟩ := List.forall_mem_cons.mp each
        refine (here names).bind fun func middle lowered => ?_
        exact (ih others middle).bind fun _ _ later => .cons lowered later

variable {made : List (FuncDecl × Block)} {first last : Nat} {funcs : List Tac.Func}

theorem FuncDecl.Lowered.le {one : FuncDecl × Block} {func : Tac.Func}
    (lowered : FuncDecl.Lowered table one first last func) : first ≤ last := by
  cases lowered with
  | made _ body => exact body.le

/-- What holds of each function and its definition holds all along the unit. -/
theorem UnitLowered.forall₂ {related : FuncDecl × Block → Tac.Func → Prop}
    (lowered : UnitLowered table made first last funcs) (each : ∀ one ∈ made, ∀ func start stop, first ≤ start →
      FuncDecl.Lowered table one start stop func → related one func) : List.Forall₂ related made funcs := by
  induction lowered with
  | nil => exact .nil
  | cons here _ ih =>
    obtain ⟨head, others⟩ := List.forall_mem_cons.mp each
    refine .cons (head _ _ _ Nat.le.refl here) (ih fun one member func start stop later => ?_)
    exact others one member func start stop (Nat.le_trans here.le later)

end Unit

end IntC
