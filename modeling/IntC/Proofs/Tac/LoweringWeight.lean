import IntC.Proofs.Tac.Lowering
import IntC.Tac.Listing
import IntC.Proofs.Tree.PassWeight
import Mathlib.Algebra.Order.BigOperators.Group.List
import Mathlib.Algebra.Order.Group.Nat

namespace IntC

namespace Tac

def Value.weight (w : Weights) : Value → Nat
  | .const value => w.value value
  | .var name => w.name name
  | .absent => 0

/-- Everything that an instruction names has its weight, and naming a result without any effect weighs one. -/
def Instr.weight (w : Weights) (instr : Instr) : Nat :=
  (instr.values.map (Value.weight w)).sum + (instr.symbols.map w.name).sum + instr.isMention.toNat

def codeWeight (w : Weights) (code : List Instr) : Nat := (code.map (Instr.weight w)).sum

def Func.weight (w : Weights) (func : Func) : Nat :=
  w.name func.name + (func.params.map w.name).sum + codeWeight w func.body

section Code
variable {w : Weights}

@[simp] theorem Value.weight_const (value : Int) : (Value.const value).weight w = w.value value := rfl

@[simp] theorem Value.weight_var (name : String) : (Value.var name).weight w = w.name name := rfl

@[simp] theorem codeWeight_nil : codeWeight w [] = 0 := rfl

@[simp] theorem codeWeight_cons (instr : Instr) (rest : List Instr) :
    codeWeight w (instr :: rest) = instr.weight w + codeWeight w rest := rfl

@[simp] theorem codeWeight_append (first second : List Instr) :
    codeWeight w (first ++ second) = codeWeight w first + codeWeight w second := by
  simp only [codeWeight, List.map_append, List.sum_append]

theorem Instr.weight_le_codeWeight {code : List Instr} {instr : Instr} (member : instr ∈ code) :
    instr.weight w ≤ codeWeight w code :=
  List.le_sum_of_mem (List.mem_map_of_mem member)

theorem Value.weight_le {instr : Instr} {value : Value} (member : value ∈ instr.values) :
    value.weight w ≤ instr.weight w := by
  have light : value.weight w ≤ _ := List.le_sum_of_mem (List.mem_map_of_mem member)
  unfold Instr.weight
  omega

theorem Instr.symbol_le {instr : Instr} {name : String} (member : name ∈ instr.symbols) :
    w.name name ≤ instr.weight w := by
  have light : w.name name ≤ _ := List.le_sum_of_mem (List.mem_map_of_mem member)
  unfold Instr.weight
  omega

end Code

end Tac

open Tac (Value Instr codeWeight codeWeight_nil codeWeight_cons codeWeight_append)

attribute [local simp] Instr.weight Instr.values Instr.symbols Instr.isMention

/-- What the names that lowering coins start with. -/
def loweringStems : List String := ["tmp", "and_false", "or_true", "and_end", "or_end", "conditional_else",
  "conditional_end", "if_end", "else", "if_else_end", "do_loop_start", "for_start"]

/-- Weights under which what lowering adds weighs no more than a mark or a loop of the tree. -/
structure Weights.Covering (w : Weights) : Prop extends w.Fair where
  coined : ∀ stem ∈ loweringStems, w.name stem ≤ w.mark
  zero : w.value 0 ≤ w.mark
  one : w.value 1 ≤ w.mark
  breakTarget : ∀ id, w.name (breakTarget id) ≤ w.loop id
  continueTarget : ∀ id, w.name (continueTarget id) ≤ w.loop id

namespace Weights.Covering
variable {w : Weights} (covering : w.Covering)
include covering

theorem fresh (stem : String) (listed : stem ∈ loweringStems) (names : NameSupply) :
    w.name (names.fresh stem).1 ≤ w.mark :=
  Nat.le_trans (covering.numbered stem names.next) (covering.coined stem listed)

theorem temp (names : NameSupply) : w.name names.temp.1 ≤ w.mark := covering.fresh "tmp" (by decide) names

theorem shortValue (op : ShortCircuit) : w.value op.shortValue ≤ w.mark := by
  cases op with
  | and => exact covering.zero
  | or => exact covering.one

theorem fullValue (op : ShortCircuit) : w.value op.fullValue ≤ w.mark := by
  cases op with
  | and => exact covering.one
  | or => exact covering.zero

theorem shortStem (op : ShortCircuit) (names : NameSupply) : w.name (names.fresh op.shortStem).1 ≤ w.mark :=
  covering.fresh _ (by cases op <;> decide) names

theorem endStem (op : ShortCircuit) (names : NameSupply) : w.name (names.fresh op.endStem).1 ≤ w.mark :=
  covering.fresh _ (by cases op <;> decide) names

end Weights.Covering

mutual

theorem Expr.Lowered.weight {w : Weights} (covering : w.Covering) {expr : Expr} {first last : Nat} {code : List Instr}
    {value : Value} : expr.Lowered first last code value → codeWeight w code + value.weight w ≤ 10 * expr.weight w
  | .number | .ident => by
    simp [Expr.weight]
    omega
  | .unary _ operand => by
    have light := operand.weight covering
    have temp := covering.temp
    simp [Expr.weight]
    grind
  | .shortCircuit meaning _ left right => by
    have lightLeft := left.weight covering
    have lightRight := right.weight covering
    have short := covering.shortStem meaning ⟨first⟩
    have done := covering.endStem meaning ⟨first + 1⟩
    have temp := covering.temp ⟨first + 2⟩
    have full := covering.fullValue meaning
    have settled := covering.shortValue meaning
    cases meaning <;> simp [ShortCircuit.leave, Expr.weight] <;> omega
  | .binary _ _ left right => by
    have lightLeft := left.weight covering
    have lightRight := right.weight covering
    have temp := covering.temp
    simp [Expr.weight]
    grind
  | .assign value => by
    have light := value.weight covering
    simp [Expr.weight]
    omega
  | .conditional cond yes no => by
    have lightCond := cond.weight covering
    have lightYes := yes.weight covering
    have lightNo := no.weight covering
    have other := covering.fresh "conditional_else" (by decide)
    have temp := covering.temp
    have done := covering.fresh "conditional_end" (by decide)
    simp [Expr.weight]
    grind
  | .call args => by
    have light := args.weight covering
    have temp := covering.temp
    simp [Expr.weight]
    grind

theorem ArgsLowered.weight {w : Weights} (covering : w.Covering) {args : List Expr} {first last : Nat}
    {code : List Instr} {values : List Value} : ArgsLowered args first last code values →
      codeWeight w code + (values.map (Value.weight w)).sum ≤ 10 * argsWeight w args
  | .nil => Nat.zero_le _
  | .cons arg rest => by
    have light := arg.weight covering
    have lighter := rest.weight covering
    simp [argsWeight]
    omega

end

section Parts
variable {w : Weights} (covering : w.Covering) {first last : Nat} {code : List Instr}
include covering

theorem VarDecl.Lowered.weight {decl : VarDecl} (lowered : decl.Lowered first last code) :
    codeWeight w code ≤ 10 * decl.weight w := by
  cases lowered with
  | initialized init =>
    have light := init.weight covering
    simp [VarDecl.weight, optionalWeight]
    omega
  | silent => exact Nat.zero_le _

theorem ForInit.Lowered.weight {init : ForInit} (lowered : init.Lowered first last code) :
    codeWeight w code ≤ 10 * init.weight w := by
  cases lowered with
  | none => exact Nat.zero_le _
  | var decl => exact decl.weight covering
  | expr value => exact Nat.le_of_add_right_le (value.weight covering)

theorem GuardLowered.weight {id : String} {cond : Option Expr} (lowered : GuardLowered id cond first last code) :
    codeWeight w code ≤ 10 * optionalWeight w cond + w.loop id := by
  cases lowered with
  | none => exact Nat.zero_le _
  | some cond =>
    have light := cond.weight covering
    have target := covering.breakTarget id
    simp [optionalWeight]
    omega

theorem PostLowered.weight {post : Option Expr} (lowered : PostLowered post first last code) :
    codeWeight w code ≤ 10 * optionalWeight w post := by
  cases lowered with
  | none => exact Nat.zero_le _
  | some post => exact Nat.le_of_add_right_le (post.weight covering)

end Parts

mutual

theorem Stmt.Lowered.weight {w : Weights} (covering : w.Covering) {stmt : Stmt} {first last : Nat}
    {code : List Instr} : stmt.Lowered first last code → codeWeight w code ≤ 10 * stmt.weight w
  | .ret value | .expr value => by
    have light := value.weight covering
    simp [Stmt.weight]
    omega
  | .ifThen cond yes => by
    have light := cond.weight covering
    have lightYes := yes.weight covering
    have done := covering.fresh "if_end" (by decide)
    simp [Stmt.weight]
    grind
  | .ifElse cond yes no => by
    have light := cond.weight covering
    have lightYes := yes.weight covering
    have lightNo := no.weight covering
    have other := covering.fresh "else" (by decide)
    have done := covering.fresh "if_else_end" (by decide)
    simp [Stmt.weight]
    grind
  | .block items => items.weight covering
  | .breakLoop => by
    have target := covering.breakTarget
    simp [Stmt.weight]
    grind
  | .continueLoop => by
    have target := covering.continueTarget
    simp [Stmt.weight]
    grind
  | .whileLoop id cond body => by
    have light := cond.weight covering
    have lightBody := body.weight covering
    have leave := covering.breakTarget id
    have again := covering.continueTarget id
    simp [Stmt.weight]
    omega
  | .doLoop id body cond => by
    have lightBody := body.weight covering
    have light := cond.weight covering
    have leave := covering.breakTarget id
    have again := covering.continueTarget id
    have start := covering.fresh "do_loop_start" (by decide) ⟨first⟩
    simp [Stmt.weight]
    omega
  | .forLoop id init cond body post => by
    have lightInit := init.weight covering
    have lightCond := cond.weight covering
    have lightBody := body.weight covering
    have lightPost := post.weight covering
    have leave := covering.breakTarget id
    have again := covering.continueTarget id
    have start := covering.fresh "for_start" (by decide) ⟨first⟩
    simp [Stmt.weight]
    omega
  | .empty => Nat.zero_le _

theorem ItemsLowered.weight {w : Weights} (covering : w.Covering) {items : List Item} {first last : Nat}
    {code : List Instr} : ItemsLowered items first last code → codeWeight w code ≤ 10 * itemsWeight w items
  | .nil => Nat.zero_le _
  | .func rest => by
    have light := rest.weight covering
    simp [itemsWeight]
    omega
  | .var decl rest => by
    have light := decl.weight covering
    have lighter := rest.weight covering
    simp [itemsWeight]
    omega
  | .stmt stmt rest => by
    have light := stmt.weight covering
    have lighter := rest.weight covering
    simp [itemsWeight]
    omega

end

section Functions
variable {w : Weights}

theorem FuncDecl.weight_le {decl : FuncDecl} {items : List Item} (member : .func decl ∈ items) :
    decl.weight w ≤ itemsWeight w items := by
  induction items with
  | nil => cases member
  | cons item rest ih =>
    rcases List.mem_cons.mp member with rfl | later
    · exact Nat.le_add_right _ _
    · have light := ih later
      cases item <;> simp only [itemsWeight] <;> omega

/-- Whatever the parts of a tree weigh, no function made from it weighs more than ten times as much. -/
theorem FuncDecl.Lowered.weight {table : SymbolTable} {decl : FuncDecl} {body : Block} {first last : Nat}
    {func : Tac.Func} (covering : w.Covering) (lowered : FuncDecl.Lowered table (decl, body) first last func)
    (defined : decl.body = some body) : func.weight w ≤ 10 * decl.weight w := by
  obtain ⟨span, name, params, _, storage⟩ := decl
  cases defined
  have zero := covering.zero
  cases lowered with
  | made _ items =>
    have light := items.weight covering
    simp [Tac.Func.weight, FuncDecl.weight, Block.weight, paramsWeight, List.map_map, Function.comp_def]
    omega

end Functions

end IntC
