import IntC.Proofs.Symbol.Kinds
import IntC.Proofs.Tac.Lowering

namespace IntC

variable {bound : Nat} {table : SymbolTable}

/-- The name was made for an intermediate value, and the table does not know it. -/
def SymbolTable.IsTemporary (table : SymbolTable) (name : String) : Prop :=
  table.get? name = none ∧ ∃ number, name = (NameSupply.temp ⟨number⟩).1

namespace Tac

/-- If the value is a variable, it is one of the table or an intermediate value. -/
def Value.Kinded (table : SymbolTable) (value : Value) : Prop :=
  ∀ name, value = .var name → table.IsVariable name ∨ table.IsTemporary name

/-- All operands are values, and a function is called with as many arguments as it takes. -/
def Instr.Kinded (table : SymbolTable) (instr : Instr) : Prop :=
  (∀ value ∈ instr.values, value.Kinded table) ∧
    ∀ callee args dest, instr = .call callee args dest → table.Takes callee args.length

section Kinded
variable {table : SymbolTable} {source dest left right cond : Value} {name : String}

@[simp] theorem Value.kinded_const (value : Int) : (Value.const value).Kinded table := nofun

theorem Value.kinded_var (known : table.IsVariable name) : (Value.var name).Kinded table := by
  rintro _ ⟨⟩
  exact .inl known

@[simp] theorem Instr.kinded_call {args : List Value} : (Instr.call name args dest).Kinded table ↔
    ((∀ arg ∈ args, arg.Kinded table) ∧ dest.Kinded table) ∧ table.Takes name args.length := by
  simp [Kinded, values, or_imp, forall_and]

end Kinded

/-- Code whose instructions all use names as the table has them. -/
def CodeKinded (table : SymbolTable) (code : List Instr) : Prop := ∀ instr ∈ code, instr.Kinded table

section Code
variable {table : SymbolTable} {instr : Instr} {code rest : List Instr}

@[simp] theorem codeKinded_nil : CodeKinded table [] := List.forall_mem_nil _

@[simp] theorem codeKinded_cons : CodeKinded table (instr :: rest) ↔ instr.Kinded table ∧ CodeKinded table rest :=
  List.forall_mem_cons

@[simp] theorem codeKinded_append : CodeKinded table (code ++ rest) ↔ CodeKinded table code ∧ CodeKinded table rest :=
  List.forall_mem_append

end Code

end Tac

open Tac (Value Instr CodeKinded codeKinded_nil codeKinded_cons codeKinded_append)

attribute [local simp] Instr.Kinded Instr.values

/-- A name for an intermediate value is new, so the table does not have it. -/
theorem Tac.Value.kinded_temp {last : Nat} (sound : table.Sound bound) (le : bound ≤ last) :
    (Value.var (NameSupply.temp ⟨last⟩).1).Kinded table := by
  rintro _ ⟨⟩
  refine .inr ⟨?_, last, rfl⟩
  rw [Option.eq_none_iff_forall_not_mem]
  intro symbol found
  have old := (sound _ symbol found).2 last (numbered_fresh "tmp" ⟨last⟩)
  omega

mutual

theorem Expr.Lowered.kinds {bound : Nat} {table : SymbolTable} (sound : table.Sound bound) {expr : Expr}
    {first last : Nat} {code : List Instr} {value : Value} : expr.Lowered first last code value → bound ≤ first →
      expr.Kinded table → CodeKinded table code ∧ value.Kinded table
  | .number, _, _ => ⟨codeKinded_nil, Value.kinded_const _⟩
  | .ident, _, kinded => ⟨codeKinded_nil, Value.kinded_var kinded⟩
  | .unary _ operand, le, kinded => by
    obtain ⟨inside, value⟩ := operand.kinds sound le kinded
    have fresh := Value.kinded_temp sound (Nat.le_trans le operand.le)
    refine ⟨?_, fresh⟩
    simp [inside, value, fresh]
  | .shortCircuit meaning _ left right, le, kinded => by
    have past := Nat.le_trans le (Nat.le_add_right first 3)
    obtain ⟨leftInside, leftKinded⟩ := left.kinds sound past kinded.1
    obtain ⟨rightInside, rightKinded⟩ := right.kinds sound (Nat.le_trans past left.le) kinded.2
    have fresh := Value.kinded_temp sound (Nat.le_trans le (Nat.le_add_right first 2))
    refine ⟨?_, fresh⟩
    cases meaning <;> simp [leftInside, leftKinded, rightInside, rightKinded, fresh, ShortCircuit.leave]
  | .binary _ _ left right, le, kinded => by
    have past := Nat.le_trans le left.le
    obtain ⟨leftInside, leftKinded⟩ := left.kinds sound le kinded.1
    obtain ⟨rightInside, rightKinded⟩ := right.kinds sound past kinded.2
    have fresh := Value.kinded_temp sound (Nat.le_trans past right.le)
    refine ⟨?_, fresh⟩
    simp [leftInside, leftKinded, rightInside, rightKinded, fresh]
  | .assign value, le, kinded => by
    obtain ⟨inside, sourceKinded⟩ := value.kinds sound le kinded.2
    have known := Value.kinded_var kinded.1
    refine ⟨?_, known⟩
    simp [inside, sourceKinded, known]
  | .conditional cond yes no, le, kinded => by
    have past := Nat.le_succ_of_le (Nat.le_trans le cond.le)
    have further := Nat.le_trans past yes.le
    obtain ⟨condInside, condKinded⟩ := cond.kinds sound le kinded.1
    obtain ⟨yesInside, yesKinded⟩ := yes.kinds sound past kinded.2.1
    obtain ⟨noInside, noKinded⟩ := no.kinds sound (Nat.le_trans further (Nat.le_add_right _ 2)) kinded.2.2
    have fresh := Value.kinded_temp sound further
    refine ⟨?_, fresh⟩
    simp [condInside, condKinded, yesInside, yesKinded, noInside, noKinded, fresh]
  | .call args, le, kinded => by
    obtain ⟨inside, each, count⟩ := args.kinds sound le kinded.2
    have fresh := Value.kinded_temp sound (Nat.le_trans le args.le)
    refine ⟨?_, fresh⟩
    simp only [codeKinded_append, codeKinded_cons, codeKinded_nil, Instr.kinded_call, and_true]
    exact ⟨inside, ⟨each, fresh⟩, count ▸ kinded.1⟩

theorem ArgsLowered.kinds {bound : Nat} {table : SymbolTable} (sound : table.Sound bound) {args : List Expr}
    {first last : Nat} {code : List Instr} {values : List Value} : ArgsLowered args first last code values →
      bound ≤ first → argsKinded table args →
      CodeKinded table code ∧ (∀ value ∈ values, value.Kinded table) ∧ values.length = args.length
  | .nil, _, _ => ⟨codeKinded_nil, List.forall_mem_nil _, rfl⟩
  | .cons arg rest, le, kinded => by
    obtain ⟨inside, value⟩ := arg.kinds sound le kinded.1
    obtain ⟨others, each, count⟩ := rest.kinds sound (Nat.le_trans le arg.le) kinded.2
    exact ⟨codeKinded_append.mpr ⟨inside, others⟩, List.forall_mem_cons.mpr ⟨value, each⟩, congrArg Nat.succ count⟩

end

section Parts
variable {first last : Nat} {code : List Instr} (sound : table.Sound bound) (le : bound ≤ first)
include sound le

theorem VarDecl.Lowered.kinds {decl : VarDecl} (lowered : decl.Lowered first last code) (kinded : decl.Kinded table) :
    CodeKinded table code := by
  cases lowered with
  | initialized init =>
    obtain ⟨inside, value⟩ := init.kinds sound le (kinded.init rfl _ rfl)
    have known := Value.kinded_var kinded.name
    simp [inside, value, known]
  | silent => exact codeKinded_nil

/-- The steps of checking have found every name in the table as the code needs it. -/
theorem ForInit.Lowered.kinds {init : ForInit} (lowered : init.Lowered first last code)
    (shown : ∀ step ∈ init.checkSteps, step.Shown table) : CodeKinded table code := by
  cases lowered with
  | none => exact codeKinded_nil
  | var decl => exact decl.kinds sound le (shown _ (List.mem_singleton_self _))
  | expr value => exact (value.kinds sound le (shown _ (List.mem_singleton_self _))).1

theorem GuardLowered.kinds {id : String} {cond : Option Expr} (lowered : GuardLowered id cond first last code)
    (shown : ∀ step ∈ optionalSteps cond, step.Shown table) : CodeKinded table code := by
  cases lowered with
  | none => exact codeKinded_nil
  | some cond =>
    obtain ⟨inside, value⟩ := cond.kinds sound le (shown _ (List.mem_singleton_self _))
    simp [inside, value]

theorem PostLowered.kinds {post : Option Expr} (lowered : PostLowered post first last code)
    (shown : ∀ step ∈ optionalSteps post, step.Shown table) : CodeKinded table code := by
  cases lowered with
  | none => exact codeKinded_nil
  | some post => exact (post.kinds sound le (shown _ (List.mem_singleton_self _))).1

end Parts

mutual

theorem Stmt.Lowered.kinds {bound : Nat} {table : SymbolTable} (sound : table.Sound bound) {stmt : Stmt}
    {first last : Nat} {code : List Instr} : stmt.Lowered first last code → bound ≤ first →
      (∀ step ∈ stmt.checkSteps, step.Shown table) → CodeKinded table code
  | .ret value, le, shown => by
    obtain ⟨inside, result⟩ := value.kinds sound le (shown _ (List.mem_singleton_self _))
    simp [inside, result]
  | .expr value, le, shown => (value.kinds sound le (shown _ (List.mem_singleton_self _))).1
  | .ifThen cond yes, le, shown => by
    obtain ⟨head, rest⟩ := List.forall_mem_cons.mp shown
    obtain ⟨condInside, condKinded⟩ := cond.kinds sound le head
    have yesInside := yes.kinds sound (Nat.le_trans le (Nat.le_succ_of_le cond.le)) rest
    simp [condInside, condKinded, yesInside]
  | .ifElse cond yes no, le, shown => by
    obtain ⟨head, rest⟩ := List.forall_mem_cons.mp shown
    obtain ⟨second, third⟩ := List.forall_mem_append.mp rest
    have past := Nat.le_trans le (Nat.le_succ_of_le cond.le)
    obtain ⟨condInside, condKinded⟩ := cond.kinds sound le head
    have yesInside := yes.kinds sound past second
    have noInside := no.kinds sound (Nat.le_trans past (Nat.le_succ_of_le yes.le)) third
    simp [condInside, condKinded, yesInside, noInside]
  | .block items, le, shown => items.kinds sound le shown
  | .breakLoop, _, _ | .continueLoop, _, _ => by simp
  | .whileLoop _ cond body, le, shown => by
    obtain ⟨head, rest⟩ := List.forall_mem_cons.mp shown
    obtain ⟨condInside, condKinded⟩ := cond.kinds sound le head
    have bodyInside := body.kinds sound (Nat.le_trans le cond.le) rest
    simp [condInside, condKinded, bodyInside]
  | .doLoop _ body cond, le, shown => by
    obtain ⟨head, rest⟩ := List.forall_mem_append.mp shown
    have bodyInside := body.kinds sound (Nat.le_succ_of_le le) head
    obtain ⟨condInside, condKinded⟩ := cond.kinds sound (Nat.le_trans le (Nat.le_of_succ_le body.le))
      (rest _ (List.mem_singleton_self _))
    simp [condInside, condKinded, bodyInside]
  | .forLoop _ init cond body post, le, shown => by
    obtain ⟨head, rest⟩ := List.forall_mem_append.mp shown
    obtain ⟨second, rest⟩ := List.forall_mem_append.mp rest
    obtain ⟨third, fourth⟩ := List.forall_mem_append.mp rest
    have past := Nat.le_trans le (Nat.le_of_succ_le init.le)
    have further := Nat.le_trans past cond.le
    have initInside := init.kinds sound (Nat.le_succ_of_le le) head
    have condInside := cond.kinds sound past second
    have bodyInside := body.kinds sound further fourth
    have postInside := post.kinds sound (Nat.le_trans further body.le) third
    simp [initInside, condInside, bodyInside, postInside]
  | .empty, _, _ => codeKinded_nil

theorem ItemsLowered.kinds {bound : Nat} {table : SymbolTable} (sound : table.Sound bound) {items : List Item}
    {first last : Nat} {code : List Instr} : ItemsLowered items first last code → bound ≤ first →
      (∀ step ∈ itemsSteps items, step.Shown table) → CodeKinded table code
  | .nil, _, _ => codeKinded_nil
  | .func rest, le, shown => rest.kinds sound le (List.forall_mem_append.mp shown).2
  | .var decl rest, le, shown => by
    obtain ⟨head, others⟩ := List.forall_mem_cons.mp shown
    exact codeKinded_append.mpr ⟨decl.kinds sound le head, rest.kinds sound (Nat.le_trans le decl.le) others⟩
  | .stmt stmt rest, le, shown => by
    obtain ⟨head, others⟩ := List.forall_mem_append.mp shown
    exact codeKinded_append.mpr ⟨stmt.kinds sound le head, rest.kinds sound (Nat.le_trans le stmt.le) others⟩

end

/-- The code of a function uses names as the table has them, and it has as many parameters as the table says. -/
theorem FuncDecl.Lowered.kinds {decl : FuncDecl} {body : Block} {first last : Nat} {func : Tac.Func}
    (lowered : FuncDecl.Lowered table (decl, body) first last func) (sound : table.Sound bound) (le : bound ≤ first)
    (defined : decl.body = some body) (shown : ∀ step ∈ decl.checkSteps, step.Shown table) :
    CodeKinded table func.body ∧ table.Takes func.name func.params.length := by
  obtain ⟨span, name, params, _, storage⟩ := decl
  cases defined
  obtain ⟨declared, rest⟩ := List.forall_mem_cons.mp shown
  obtain ⟨-, rest⟩ := List.forall_mem_append.mp rest
  obtain ⟨inside, -⟩ := List.forall_mem_append.mp rest
  cases lowered with
  | made _ items =>
    have kinded := items.kinds sound le inside
    refine ⟨?_, ?_⟩
    · simp [kinded]
    · rw [List.length_map]
      exact declared

end IntC
