import IntC.Proofs.Il.Syntax
import IntC.Proofs.Word
import Mathlib.Logic.Relation

namespace IntC

/-- The values of parameters at the start of a function. Whatever else has no value yet reads as zero. -/
def arguments (params : List String) (args : List Word) : Store := fun name => ((params.zip args).lookup name).getD 0

theorem arguments_of_not_mem {params : List String} {name : String} (other : name ∉ params) (args : List Word) :
    arguments params args name = 0 := by
  have absent : (params.zip args).lookup name = none := by
    refine List.lookup_eq_none_iff.mpr fun pair member => bne_iff_ne.mpr ?_
    rintro rfl
    exact other (List.of_mem_zip member).1
  rw [arguments, absent, Option.getD_none]

namespace Il

/-- What a running function changes: the values of its temporaries, and the memory that its symbols name. -/
structure State where
  temps : Store
  memory : Memory

def Operand.read (temps : Store) : Operand → Word
  | .temp name => temps name
  | .const value => BitVec.ofInt 32 value

def Op.apply : Op → Word → Word → Option Word
  | .add, a, b => some (a + b)
  | .sub, a, b => some (a - b)
  | .mul, a, b => some (a * b)
  | .div, a, b => Word.quotient? a b
  | .rem, a, b => Word.remainder? a b
  | .xor, a, b => some (a ^^^ b)
  | .ceqw, a, b => some (Word.truth (a = b))
  | .cnew, a, b => some (Word.truth (a ≠ b))
  | .csltw, a, b => some (Word.truth (a.slt b))
  | .cslew, a, b => some (Word.truth (a.sle b))
  | .csgtw, a, b => some (Word.truth (b.slt a))
  | .csgew, a, b => some (Word.truth (b.sle a))

/-- The value of a result, where it is defined, and the memory afterwards. -/
def Result.eval (world : World) (state : State) : Result → Option (Word × Memory)
  | .copy source => some (source.read state.temps, state.memory)
  | .neg source => some (-source.read state.temps, state.memory)
  | .binary op left right =>
    (op.apply (left.read state.temps) (right.read state.temps)).map fun value => (value, state.memory)
  | .load symbol => some (state.memory.store symbol, state.memory)
  | .call callee args => some (world.call callee (args.map (Operand.read state.temps)) state.memory)

/-- A point of a run: the instructions from the next one on to the end of the body, and the state. -/
structure Config where
  rest : List Instr
  state : State

/-- The instructions of a block and of those behind it. -/
def seek (target : String) : List Instr → Option (List Instr)
  | [] => none
  | .block name :: rest => if name = target then some rest else seek target rest
  | _ :: rest => seek target rest

/-- One step of a body. A block that is not ended goes on with the next one. A return makes no step, and neither does what
is undefined. -/
def step (world : World) (body : List Instr) : Config → Option Config
  | ⟨.block _ :: rest, state⟩ => some ⟨rest, state⟩
  | ⟨.assign dest result :: rest, state⟩ => (result.eval world state).map fun made =>
    ⟨rest, Function.update state.temps dest made.1, made.2⟩
  | ⟨.store source symbol :: rest, state⟩ =>
    some ⟨rest, state.temps, state.memory.set symbol (source.read state.temps)⟩
  | ⟨.jump target :: _, state⟩ => (seek target body).map fun next => ⟨next, state⟩
  | ⟨.branch cond yes no :: _, state⟩ =>
    (seek (if cond.read state.temps = 0 then no else yes) body).map fun next => ⟨next, state⟩
  | ⟨.ret _ :: _, _⟩ => none
  | ⟨[], _⟩ => none

abbrev Steps (world : World) (body : List Instr) : Config → Config → Prop :=
  Relation.ReflTransGen fun here next => step world body here = some next

/-- The value that is returned at a point of a run, if the next instruction is a return. -/
def Config.returned? : Config → Option Word
  | ⟨.ret value :: _, state⟩ => some (value.read state.temps)
  | _ => none

/-- A function, called with arguments while the symbols have some values, comes to a return of the value in the state. -/
def Func.Returns (world : World) (func : Func) (args : List Word) (data : Store) (value : Word) (final : State) : Prop :=
  ∃ rest, Steps world func.body ⟨func.body, arguments func.params args, ⟨data, []⟩⟩ ⟨rest, final⟩ ∧
    Config.returned? ⟨rest, final⟩ = some value

section Seek
variable {target : String} {body rest next : List Instr}

theorem seek_cons_self : seek target (.block target :: rest) = some rest := if_pos rfl

theorem seek_cons_of_ne {instr : Instr} (other : instr ≠ .block target) :
    seek target (instr :: rest) = seek target rest := by
  cases instr with
  | block name => exact if_neg fun same : name = target => other (congrArg Instr.block same)
  | _ => rfl

theorem seek_append_of_not_mem {before after : List Instr} (absent : target ∉ blocks before) :
    seek target (before ++ after) = seek target after := by
  induction before with
  | nil => rfl
  | cons instr rest ih =>
    have other : instr ≠ .block target := by
      rintro rfl
      exact absent List.mem_cons_self
    have later : target ∉ blocks rest := by
      intro member
      obtain ⟨other, among, found⟩ := List.mem_filterMap.mp member
      exact absent (List.mem_filterMap.mpr ⟨other, List.mem_cons_of_mem _ among, found⟩)
    rw [List.cons_append, seek_cons_of_ne other, ih later]

/-- Where the names of blocks are distinct, a jump leads to the one place where its block begins. -/
theorem seek_of_suffix (distinct : (blocks body).Nodup) (place : .block target :: rest <:+ body) :
    seek target body = some rest := by
  obtain ⟨before, rfl⟩ := place
  rw [blocks, List.filterMap_append, List.nodup_append] at distinct
  have absent : target ∉ blocks before := fun member => distinct.2.2 target member target List.mem_cons_self rfl
  rw [seek_append_of_not_mem absent, seek_cons_self]

theorem block_suffix_of_seek (found : seek target body = some next) : .block target :: next <:+ body := by
  induction body with
  | nil => cases found
  | cons instr rest ih =>
    by_cases here : instr = .block target
    · subst here
      cases seek_cons_self.symm.trans found
      exact List.suffix_rfl
    · rw [seek_cons_of_ne here] at found
      exact (ih found).trans (List.suffix_cons ..)

theorem seek_suffix (found : seek target body = some next) : next <:+ body :=
  (List.suffix_cons ..).trans (block_suffix_of_seek found)

end Seek

end Il

end IntC
