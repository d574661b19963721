import IntC.Proofs.Word
import IntC.Tac
import Mathlib.Data.List.Infix
import Mathlib.Logic.Relation

namespace IntC.Tac

variable {value : Value} {code body rest : List Instr} {target : String} {world : World}

/-- The value of an operand; one that is not there has none. -/
def Value.read (store : Store) : Value → Option Word
  | .const value => some (BitVec.ofInt 32 value)
  | .var name => some (store name)
  | .absent => none

theorem Value.read_update {store : Store} {name : String} (a : Word) (other : value ≠ .var name) :
    value.read (Function.update store name a) = value.read store := by
  cases value with
  | var key =>
    have different : key ≠ name := fun same => other (by rw [same])
    simp only [Value.read, Function.update_of_ne different]
  | const | absent => rfl

def UnaryOp.apply : UnaryOp → Word → Word
  | .complement, a => ~~~a
  | .negate, a => -a
  | .not, a => Word.truth (a = 0)

def BinaryOp.apply : BinaryOp → Word → Word → Option Word
  | .add, a, b => some (a + b)
  | .sub, a, b => some (a - b)
  | .mul, a, b => some (a * b)
  | .div, a, b => Word.quotient? a b
  | .rem, a, b => Word.remainder? a b
  | .eq, a, b => some (Word.truth (a = b))
  | .ne, a, b => some (Word.truth (a ≠ b))
  | .lt, a, b => some (Word.truth (a.slt b))
  | .le, a, b => some (Word.truth (a.sle b))
  | .gt, a, b => some (Word.truth (b.slt a))
  | .ge, a, b => some (Word.truth (b.sle a))

/-- A point of a run: the instructions from the next one on to the end of the body, and the memory. -/
structure Config where
  rest : List Instr
  memory : Memory

def seek (target : String) : List Instr → Option (List Instr)
  | [] => none
  | .label name :: rest => if name = target then some rest else seek target rest
  | _ :: rest => seek target rest

def Instr.label? : Instr → Option String
  | .label name => some name
  | _ => none

def labels (code : List Instr) : List String := code.filterMap Instr.label?

def Instr.target? : Instr → Option String
  | .jump target | .jumpIfZero _ target | .jumpIfNotZero _ target => some target
  | _ => none

/-- All operands of an instruction, its result among them. -/
def Instr.values : Instr → List Value
  | .ret value => [value]
  | .copy source dest | .unary _ source dest => [source, dest]
  | .jumpIfZero cond _ | .jumpIfNotZero cond _ => [cond]
  | .call _ args dest => args ++ [dest]
  | .binary _ left right dest => [left, right, dest]
  | .mention name => [.var name]
  | .jump _ | .label _ | .unknown _ | .lacking _ => []

/-- The labels and the function that an instruction names. -/
def Instr.symbols : Instr → List String
  | .jump target | .jumpIfZero _ target | .jumpIfNotZero _ target => [target]
  | .label name => [name]
  | .call callee _ _ => [callee]
  | .ret _ | .copy .. | .unary .. | .binary .. | .unknown _ | .lacking _ | .mention _ => []

/-- One step of a body. A return makes none, and neither does what is undefined. -/
inductive Step (world : World) (body : List Instr) : Config → Config → Prop
  | copy {source dest value rest memory} : source.read memory.store = some value →
      Step world body ⟨.copy source (.var dest) :: rest, memory⟩ ⟨rest, memory.set dest value⟩
  | unary {op source dest value rest memory} : source.read memory.store = some value →
      Step world body ⟨.unary op source (.var dest) :: rest, memory⟩ ⟨rest, memory.set dest (op.apply value)⟩
  | binary {op left right dest a b result rest memory} : left.read memory.store = some a →
      right.read memory.store = some b → op.apply a b = some result →
      Step world body ⟨.binary op left right (.var dest) :: rest, memory⟩ ⟨rest, memory.set dest result⟩
  | call {callee args dest values result rest memory after} :
      List.Forall₂ (fun value arg => Value.read memory.store arg = some value) values args →
      world.call callee values memory = (result, after) →
      Step world body ⟨.call callee args (.var dest) :: rest, memory⟩ ⟨rest, after.set dest result⟩
  | jump {target rest next memory} : seek target body = some next →
      Step world body ⟨.jump target :: rest, memory⟩ ⟨next, memory⟩
  | zero {cond target rest next memory} : cond.read memory.store = some 0 → seek target body = some next →
      Step world body ⟨.jumpIfZero cond target :: rest, memory⟩ ⟨next, memory⟩
  | notZero {cond value target rest memory} : cond.read memory.store = some value → value ≠ 0 →
      Step world body ⟨.jumpIfZero cond target :: rest, memory⟩ ⟨rest, memory⟩
  | nonzero {cond value target rest next memory} : cond.read memory.store = some value → value ≠ 0 →
      seek target body = some next → Step world body ⟨.jumpIfNotZero cond target :: rest, memory⟩ ⟨next, memory⟩
  | notNonzero {cond target rest memory} : cond.read memory.store = some 0 →
      Step world body ⟨.jumpIfNotZero cond target :: rest, memory⟩ ⟨rest, memory⟩
  | label {name rest memory} : Step world body ⟨.label name :: rest, memory⟩ ⟨rest, memory⟩
  | mention {name rest memory} : Step world body ⟨.mention name :: rest, memory⟩ ⟨rest, memory⟩

abbrev Steps (world : World) (body : List Instr) : Config → Config → Prop :=
  Relation.ReflTransGen (Step world body)

/-- The value that is returned at a point of a run, if the next instruction is a return. -/
def Config.returned? : Config → Option Word
  | ⟨.ret value :: _, memory⟩ => value.read memory.store
  | _ => none

/-- A body, started at its first instruction, comes to a return of the value with the memory. -/
def Returns (world : World) (body : List Instr) (start : Memory) (value : Word) (final : Memory) : Prop :=
  ∃ rest, Steps world body ⟨body, start⟩ ⟨rest, final⟩ ∧ Config.returned? ⟨rest, final⟩ = some value

def Value.isPresent : Value → Bool
  | .absent => false
  | _ => true

@[simp] theorem Value.isPresent_const (value : Int) : (Value.const value).isPresent = true := rfl

def Value.isVar : Value → Bool
  | .var _ => true
  | _ => false

theorem Value.isVar_iff : value.isVar = true ↔ ∃ name, value = .var name := by
  cases value <;> simp [Value.isVar]

theorem Value.isPresent_of_isVar (named : value.isVar = true) : value.isPresent = true := by
  cases value with
  | var name => rfl
  | const | absent => cases named

/-- A known operation with all its operands, whose result is a variable. -/
def Instr.isComplete : Instr → Bool
  | .ret value => value.isPresent
  | .copy source dest | .unary _ source dest => source.isPresent && dest.isVar
  | .binary _ left right dest => left.isPresent && right.isPresent && dest.isVar
  | .call _ args dest => args.all Value.isPresent && dest.isVar
  | .jumpIfZero cond _ | .jumpIfNotZero cond _ => cond.isPresent
  | .jump _ | .label _ | .mention _ => true
  | .unknown _ | .lacking _ => false

/-- Whether the result takes the place of the right operand of a sum, a difference or a product. -/
def Instr.overwritesRight : Instr → Bool
  | .binary .add _ right dest | .binary .sub _ right dest | .binary .mul _ right dest => right = dest
  | _ => false

/-- What a function has to be so that instructions can be selected for it one by one: results are
variables, every jump has one place to go, and no result gets in the way of an operand. -/
structure Func.Sound (func : Func) : Prop where
  results : ∀ instr ∈ func.body, ∀ dest ∈ instr.dest?, dest.isVar = true
  distinct : (labels func.body).Nodup
  closed : ∀ instr ∈ func.body, ∀ target ∈ instr.target?, target ∈ labels func.body
  apart : ∀ instr ∈ func.body, instr.overwritesRight = false

@[simp, grind =] theorem labels_nil : labels [] = [] := rfl

@[simp, grind =] theorem labels_cons (instr : Instr) (rest : List Instr) :
    labels (instr :: rest) = instr.label?.toList ++ labels rest := by
  unfold labels
  rw [List.filterMap_cons]
  cases instr.label? <;> rfl

@[simp, grind =] theorem labels_append (first second : List Instr) : labels (first ++ second) = labels first ++ labels second :=
  List.filterMap_append ..

theorem mem_labels {name : String} : name ∈ labels code ↔ Instr.label name ∈ code := by
  unfold labels
  rw [List.mem_filterMap]
  constructor
  · rintro ⟨instr, member, found⟩
    cases instr <;> simp_all [Instr.label?]
  · exact fun member => ⟨.label name, member, rfl⟩

theorem count_labels (name : String) (code : List Instr) : (labels code).count name = code.count (.label name) := by
  induction code with
  | nil => rfl
  | cons instr rest ih =>
    rw [labels_cons, List.count_append, List.count_cons, ih]
    cases instr with
    | label other => simp [Instr.label?, List.count_cons, Nat.add_comm]
    | _ => simp [Instr.label?]

theorem seek_cons_self : seek target (.label target :: rest) = some rest := if_pos rfl

theorem seek_cons_of_ne {instr : Instr} (other : instr ≠ .label target) :
    seek target (instr :: rest) = seek target rest := by
  cases instr with
  | label name => exact if_neg fun same : name = target => other (congrArg Instr.label same)
  | _ => rfl

theorem seek_append_of_not_mem {before after : List Instr} (absent : target ∉ labels before) :
    seek target (before ++ after) = seek target after := by
  induction before with
  | nil => rfl
  | cons instr rest ih =>
    rw [mem_labels, List.mem_cons, not_or] at absent
    rw [List.cons_append, seek_cons_of_ne (Ne.symm absent.1)]
    exact ih (mem_labels.not.mpr absent.2)

/-- Where labels are distinct, a jump leads behind the one place where its label stands. -/
theorem seek_of_suffix (distinct : (labels body).Nodup) (place : .label target :: rest <:+ body) :
    seek target body = some rest := by
  obtain ⟨before, rfl⟩ := place
  rw [labels_append, List.nodup_append] at distinct
  have absent : target ∉ labels before := fun member =>
    distinct.2.2 target member target (mem_labels.mpr List.mem_cons_self) rfl
  rw [seek_append_of_not_mem absent, seek_cons_self]

theorem exists_seek (member : target ∈ labels body) : ∃ rest, seek target body = some rest := by
  rw [mem_labels] at member
  induction body with
  | nil => cases member
  | cons instr rest ih =>
    by_cases here : instr = .label target
    · exact ⟨rest, here ▸ seek_cons_self⟩
    · rw [seek_cons_of_ne here]
      exact ih ((List.mem_cons.mp member).resolve_left (Ne.symm here))

theorem label_suffix_of_seek {next : List Instr} (found : seek target code = some next) :
    .label target :: next <:+ code := by
  induction code with
  | nil => cases found
  | cons instr rest ih =>
    by_cases here : instr = .label target
    · subst here
      cases seek_cons_self.symm.trans found
      exact List.suffix_rfl
    · rw [seek_cons_of_ne here] at found
      exact (ih found).trans (List.suffix_cons ..)

theorem seek_suffix {next : List Instr} (found : seek target code = some next) :
    next <:+ code := (List.suffix_cons ..).trans (label_suffix_of_seek found)

theorem Step.suffix {before after : Config} (inside : before.rest <:+ body) (move : Step world body before after) :
    after.rest <:+ body := by
  cases move with
  | jump found | zero _ found | nonzero _ _ found => exact seek_suffix found
  | _ => exact (List.suffix_cons ..).trans inside

theorem getLast?_of_cons {instr last : Instr} (ends : (instr :: rest).getLast? = some last) (other : instr ≠ last) :
    rest.getLast? = some last := by
  cases rest with
  | nil => exact absurd (Option.some.inj ends) other
  | cons next rest => rwa [List.getLast?_cons_cons] at ends

/-- Behind what a step leads over there is still the return at the end, since a return makes no step. -/
theorem Step.getLast? {before after : Config} (whole : body.getLast? = some (.ret value))
    (ends : before.rest.getLast? = some (.ret value)) (move : Step world body before after) :
    after.rest.getLast? = some (.ret value) := by
  have jumped : ∀ {target next}, seek target body = some next → next.getLast? = some (.ret value) := by
    intro target next found
    obtain ⟨front, rfl⟩ := label_suffix_of_seek found
    rw [List.getLast?_append_cons] at whole
    exact getLast?_of_cons whole (by simp)
  cases move with
  | jump found | zero _ found | nonzero _ _ found => exact jumped found
  | _ => exact getLast?_of_cons ends (by simp)

theorem Steps.getLast? {start : Memory} {point : Config} (whole : body.getLast? = some (.ret value))
    (reached : Steps world body ⟨body, start⟩ point) :
    point.rest <:+ body ∧ point.rest.getLast? = some (.ret value) := by
  induction reached with
  | refl => exact ⟨List.suffix_rfl, whole⟩
  | tail _ step ih => exact ⟨step.suffix ih.1, step.getLast? whole ih.2⟩

theorem Value.exists_read (store : Store) (present : value.isPresent = true) : ∃ a, value.read store = some a := by
  cases value with
  | const value | var name => exact ⟨_, rfl⟩
  | absent => cases present

theorem Value.exists_reads {args : List Value} (store : Store) (present : args.all Value.isPresent = true) :
    ∃ values, List.Forall₂ (fun value arg => Value.read store arg = some value) values args := by
  induction args with
  | nil => exact ⟨[], .nil⟩
  | cons arg args ih =>
    rw [List.all_cons, Bool.and_eq_true] at present
    obtain ⟨value, read⟩ := Value.exists_read store present.1
    obtain ⟨values, reads⟩ := ih present.2
    exact ⟨value :: values, .cons read reads⟩

/-- At a complete instruction whose jumps have a place to go, a run goes on or returns, unless there is
an undefined operation to do. -/
theorem Step.progress (world : World) {instr : Instr} {memory : Memory} (complete : instr.isComplete = true)
    (closed : ∀ target ∈ instr.target?, target ∈ labels body) :
    (∃ next, Step world body ⟨instr :: rest, memory⟩ next) ∨
      (∃ value, Config.returned? ⟨instr :: rest, memory⟩ = some value) ∨
      ∃ op left right dest a b, instr = .binary op left right dest ∧ left.read memory.store = some a ∧
        right.read memory.store = some b ∧ op.apply a b = none := by
  cases instr with
  | ret value => exact .inr (.inl (Value.exists_read memory.store complete))
  | copy source dest =>
    obtain ⟨present, named⟩ := Bool.and_eq_true_iff.mp complete
    obtain ⟨a, read⟩ := Value.exists_read memory.store present
    obtain ⟨name, rfl⟩ := Value.isVar_iff.mp named
    exact .inl ⟨_, .copy read⟩
  | unary op source dest =>
    obtain ⟨present, named⟩ := Bool.and_eq_true_iff.mp complete
    obtain ⟨a, read⟩ := Value.exists_read memory.store present
    obtain ⟨name, rfl⟩ := Value.isVar_iff.mp named
    exact .inl ⟨_, .unary read⟩
  | binary op left right dest =>
    obtain ⟨both, named⟩ := Bool.and_eq_true_iff.mp complete
    obtain ⟨leftHere, rightHere⟩ := Bool.and_eq_true_iff.mp both
    obtain ⟨a, readLeft⟩ := Value.exists_read memory.store leftHere
    obtain ⟨b, readRight⟩ := Value.exists_read memory.store rightHere
    obtain ⟨name, rfl⟩ := Value.isVar_iff.mp named
    cases applied : op.apply a b with
    | some value => exact .inl ⟨_, .binary readLeft readRight applied⟩
    | none => exact .inr (.inr ⟨op, left, right, _, a, b, rfl, readLeft, readRight, applied⟩)
  | call callee args dest =>
    obtain ⟨present, named⟩ := Bool.and_eq_true_iff.mp complete
    obtain ⟨values, reads⟩ := Value.exists_reads memory.store present
    obtain ⟨name, rfl⟩ := Value.isVar_iff.mp named
    exact .inl ⟨_, .call reads rfl⟩
  | jump target =>
    obtain ⟨next, found⟩ := exists_seek (closed target rfl)
    exact .inl ⟨_, .jump found⟩
  | jumpIfZero cond target =>
    obtain ⟨a, read⟩ := Value.exists_read memory.store complete
    obtain ⟨next, found⟩ := exists_seek (closed target rfl)
    by_cases zero : a = 0
    · exact .inl ⟨_, .zero (zero ▸ read) found⟩
    · exact .inl ⟨_, .notZero read zero⟩
  | jumpIfNotZero cond target =>
    obtain ⟨a, read⟩ := Value.exists_read memory.store complete
    obtain ⟨next, found⟩ := exists_seek (closed target rfl)
    by_cases zero : a = 0
    · exact .inl ⟨_, .notNonzero (zero ▸ read)⟩
    · exact .inl ⟨_, .nonzero read zero found⟩
  | label name => exact .inl ⟨_, .label⟩
  | mention name => exact .inl ⟨_, .mention⟩
  | unknown | lacking => cases complete

/-- The next operation has no result. -/
def Config.Undefined (point : Config) : Prop :=
  ∃ op left right dest rest a b, point.rest = .binary op left right dest :: rest ∧
    left.read point.memory.store = some a ∧ right.read point.memory.store = some b ∧ op.apply a b = none

/-- A run stays in a closed body that ends in a return, and goes on until it returns, unless there is an undefined
operation to do. -/
theorem Steps.progress {start : Memory} {point : Config} (complete : ∀ instr ∈ body, instr.isComplete = true)
    (closed : ∀ instr ∈ body, ∀ target ∈ instr.target?, target ∈ labels body)
    (ends : body.getLast? = some (.ret value)) (reached : Steps world body ⟨body, start⟩ point) :
    point.rest ≠ [] ∧ point.rest <:+ body ∧
      ((∃ next, Step world body point next) ∨ (∃ value, point.returned? = some value) ∨ point.Undefined) := by
  obtain ⟨inside, last⟩ := Steps.getLast? ends reached
  obtain ⟨rest, memory⟩ := point
  cases rest with
  | nil => cases last
  | cons instr rest =>
    have member : instr ∈ body := inside.subset List.mem_cons_self
    refine ⟨List.cons_ne_nil _ _, inside, ?_⟩
    rcases Step.progress world (complete instr member) (closed instr member) with
      moves | returns | ⟨op, left, right, dest, a, b, rfl, readLeft, readRight, undefined⟩
    · exact .inl moves
    · exact .inr (.inl returns)
    · exact .inr (.inr ⟨op, left, right, dest, rest, a, b, rfl, readLeft, readRight, undefined⟩)

end IntC.Tac
