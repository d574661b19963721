import Mathlib.Logic.Function.Basic

namespace IntC

/-- A value of type `int` while a program runs. Arithmetic on it wraps around. -/
abbrev Word := BitVec 32

namespace Word

def truth (holds : Bool) : Word := if holds then 1 else 0

/-- The quotient, rounded toward zero. It is undefined by zero, and where it would be too large. -/
def quotient? (a b : Word) : Option Word :=
  if b = 0 ∨ a = BitVec.intMin 32 ∧ b = -1 then none else some (a.sdiv b)

/-- The remainder that goes with the quotient, undefined where that is. -/
def remainder? (a b : Word) : Option Word :=
  if b = 0 ∨ a = BitVec.intMin 32 ∧ b = -1 then none else some (a.srem b)

theorem toInt_bounds (a : Word) : -2147483648 ≤ a.toInt ∧ a.toInt < 2147483648 :=
  ⟨BitVec.le_toInt a, BitVec.toInt_lt⟩

/-- Where the quotient is defined it is the exact one, and it fits in a word. -/
theorem exact_quotient {a b result : Word} (defined : quotient? a b = some result) :
    b ≠ 0 ∧ result.toInt = a.toInt.tdiv b.toInt := by
  unfold quotient? at defined
  split at defined
  · cases defined
  · rename_i fine
    cases Option.some.inj defined
    refine ⟨fun zero => fine (Or.inl zero), BitVec.toInt_sdiv_of_ne_or_ne a b ?_⟩
    by_contra both
    rw [not_or, not_not, not_not] at both
    exact fine (Or.inr both)

theorem exact_remainder {a b result : Word} (defined : remainder? a b = some result) :
    ∃ quotient, quotient? a b = some quotient ∧ result.toInt = a.toInt.tmod b.toInt := by
  unfold remainder? at defined
  split at defined
  · cases defined
  · rename_i fine
    cases Option.some.inj defined
    exact ⟨a.sdiv b, if_neg fine, BitVec.toInt_srem a b⟩

/-- Where the quotient is undefined there is none, or it does not fit in a word. -/
theorem inexact_quotient {a b : Word} (undefined : quotient? a b = none) :
    ¬(b ≠ 0 ∧ -2147483648 ≤ a.toInt.tdiv b.toInt ∧ a.toInt.tdiv b.toInt < 2147483648) := by
  unfold quotient? at undefined
  split at undefined
  · rename_i bad
    rintro ⟨nonzero, -, fits⟩
    rcases bad with zero | ⟨rfl, rfl⟩
    · exact nonzero zero
    · exact absurd fits (by decide)
  · cases undefined

theorem quotient?_eq_none_of_remainder? {a b : Word} (undefined : remainder? a b = none) : quotient? a b = none := by
  unfold remainder? at undefined
  split at undefined
  · rename_i bad
    exact if_pos bad
  · cases undefined

end Word

/-- The values of the variables of a running function, by name. -/
abbrev Store := String → Word

/-- What a running function changes: the values of variables, and the calls it has made. -/
@[ext]
structure Memory where
  store : Store
  calls : List (String × List Word) := []

def Memory.set (memory : Memory) (name : String) (value : Word) : Memory :=
  { memory with store := Function.update memory.store name value }

@[simp] theorem Memory.set_same (memory : Memory) (name : String) (value : Word) :
    (memory.set name value).store name = value := Function.update_self ..

theorem Memory.set_other (memory : Memory) {name key : String} (value : Word) (different : key ≠ name) :
    (memory.set name value).store key = memory.store key := Function.update_of_ne different ..

/-- How the calls of a function turn out. The result of a call, and the values that the variables with
static storage have afterwards, depend on the callee, its arguments and the values of those variables
before. -/
structure World where
  static : String → Bool
  answer : String → List Word → Store → Word × Store

namespace World

def seen (world : World) (store : Store) : Store :=
  fun name => if world.static name then store name else 0

/-- Makes a call. Only variables with static storage can change. -/
def call (world : World) (callee : String) (args : List Word) (memory : Memory) : Word × Memory :=
  let (result, after) := world.answer callee args (world.seen memory.store)
  (result, {
    store := fun name => if world.static name then after name else memory.store name
    calls := memory.calls ++ [(callee, args)] })

end World

end IntC
