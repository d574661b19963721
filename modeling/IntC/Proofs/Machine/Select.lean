import IntC.Machine.Select
import IntC.Proofs.Machine.Frame
import IntC.Proofs.Machine.Run
import IntC.Proofs.Run
import IntC.Proofs.Tac.Run
import IntC.Proofs.Traverse

namespace IntC.Machine

variable {func name : String} {op : Operand} {value : Tac.Value} {store : Store} {state : State} {a : Word}
  {block code : List Instr} {values : List Word} {args : List Operand} {index : Nat} {memory : Memory}
  {instr : Tac.Instr} {pushed : List (Option Word)}

theorem operand_var : operand func (.var name) = .ok op ↔ op = .pseudo name := by
  simp [operand, eq_comm]

/-- A value and its operand stand for the same word, whatever the registers hold. -/
theorem operand_read (selected : operand func value = .ok op) (same : state.pseudos = store)
    (read : value.read store = some a) : op.read state = some a := by
  cases value with
  | const | var => cases selected; cases read; simp [same]
  | absent => cases selected

/-- What the machine has to keep of the memory of a running function, and the arguments of other calls
that were pushed before. -/
structure Holds (memory : Memory) (pushed : List (Option Word)) (state : State) : Prop where
  pseudos : state.pseudos = memory.store
  calls : state.calls = memory.calls
  pushed : state.pushed = pushed

section Blocks
variable {cpu : Processor} {state : State} {left right : Operand} {a b : Word} (name : String)

/-- A comparison leaves its outcome in a variable; the constant that clears it first keeps the flags. -/
theorem effects_compare (cc : CondCode) (readLeft : left.read state = some a) (readRight : right.read state = some b) :
    effects cpu [.cmp right left, .mov (.imm 0) (.pseudo name), .setCC cc (.pseudo name)] state = some { state with
      flags := .compare a b
      pseudos := Function.update state.pseudos name (Word.truth (cc.relates a b)) } := by
  rw [effects, effect_cmp readRight readLeft]
  simp [effects, Instr.effect, CondCode.holds_compare]

theorem effects_unary (op : UnaryOp) (readLeft : left.read state = some a) :
    effects cpu [.mov left (.pseudo name), .unary op (.pseudo name)] state = some { state with
      flags := cpu.unaryFlags op a state.flags
      pseudos := Function.update state.pseudos name (op.apply a) } := by
  rw [effects, effect_mov readLeft]
  simp [effects, Instr.effect]

/-- The right operand is read after the left one has gone to the place of the result, so it must not be
that place. -/
theorem effects_binary (op : BinaryOp) (readLeft : left.read state = some a)
    (selected : operand func value = .ok right) (read : value.read state.pseudos = some b) (apart : value ≠ .var name) :
    effects cpu [.mov left (.pseudo name), .binary op right (.pseudo name)] state = some { state with
      flags := cpu.binaryFlags op a b state.flags
      pseudos := Function.update state.pseudos name (op.apply a b) } := by
  have still : right.read { state with pseudos := Function.update state.pseudos name a } = some b :=
    operand_read selected rfl ((Tac.Value.read_update a apart).trans read)
  rw [effects, effect_mov readLeft, Operand.write_pseudo, Option.bind_some, effects_singleton,
    effect_binary still (Operand.read_pseudo ..)]
  simp

/-- The sign of the dividend fills the register above it. -/
def State.extended (state : State) (a : Word) : State :=
  (state.setReg .ax a).setReg .dx (if a.msb then -1 else 0)

theorem State.extended_dividend (state : State) (a : Word) : (state.extended a).dividend = a.toInt := by
  have low : (state.extended a).regs .ax = a := by
    rw [State.extended, State.setReg_other _ _ (by decide), State.setReg_same]
  have value := BitVec.toInt_eq_msb_cond a
  rw [State.dividend, low, State.extended, State.setReg_same, value]
  cases a.msb <;> simp
  omega

theorem effects_extend (readLeft : left.read state = some a) :
    effects cpu [.mov left (.reg .ax), .cdq] state = some (state.extended a) := by
  rw [effects, effect_mov readLeft, Operand.write_reg, Option.bind_some, effects_singleton, Instr.effect,
    State.setReg_same, State.extended]

/-- A division whose quotient fits leaves quotient and remainder in their registers. -/
theorem effects_divide {quotient : Word} (readLeft : left.read state = some a)
    (selected : operand func value = .ok right) (read : value.read state.pseudos = some b)
    (defined : Word.quotient? a b = some quotient) :
    ∃ after, effects cpu [.mov left (.reg .ax), .cdq, .idiv right] state = some after ∧
      after.regs .ax = quotient ∧ after.regs .dx = BitVec.ofInt 32 (a.toInt.tmod b.toInt) ∧
      after.pseudos = state.pseudos ∧ after.calls = state.calls ∧ after.pushed = state.pushed := by
  obtain ⟨nonzero, exact⟩ := Word.exact_quotient defined
  have bounds := Word.toInt_bounds quotient
  rw [exact] at bounds
  have divisor := operand_read selected (rfl : (state.extended a).pseudos = state.pseudos) read
  have whole : effects cpu [.mov left (.reg .ax), .cdq, .idiv right] state =
      (Instr.idiv right).effect cpu (state.extended a) := by
    rw [← effects_singleton, ← Option.bind_some (state.extended a) (effects cpu [.idiv right]), ← effects_extend readLeft]
    exact effects_append cpu [_, _] [_] state
  rw [effect_idiv divisor nonzero (by rwa [State.extended_dividend]), State.extended_dividend] at whole
  refine ⟨_, whole, ?_, State.setReg_same .., rfl, rfl, rfl⟩
  rw [State.setReg_other _ _ (by decide), State.setReg_same, ← exact, BitVec.ofInt_toInt]

theorem effects_moveOut {middle : State} (run : effects cpu block state = some middle) (reg : Reg) :
    effects cpu (block ++ [.mov (.reg reg) (.pseudo name)]) state =
      some { middle with pseudos := Function.update middle.pseudos name (middle.regs reg) } := by
  rw [effects_append, run, Option.bind_some, effects_singleton, effect_mov (Operand.read_reg ..),
    Operand.write_pseudo]

end Blocks

/-- An argument of a call as the callee finds it: in its register, or else above the others on the pushed
stack. -/
def State.argument? (state : State) (index : Nat) : Option Word :=
  match Reg.args[index]? with
  | some reg => some (state.regs reg)
  | none => (state.pushed[index - Reg.args.length]?).join

def State.Passes (state : State) (args : List Word) : Prop :=
  ∀ index < args.length, state.argument? index = args[index]?

/-- The state behind a call. Registers and flags are as the callee left them, its result apart. -/
def State.answered (before : State) (left : (Reg → Word) × Flags) (outcome : Word × Memory) : State :=
  { before with
    regs := Function.update left.1 .ax outcome.1
    flags := left.2
    pseudos := outcome.2.store
    calls := outcome.2.calls }

/-- A machine whose calls turn out as in the given world. A callee takes one of the numbers of arguments
that it allows, and it may leave anything in the registers and the flags. -/
def hosted (world : World) (cpu : Processor) (takes : String → Nat → Prop)
    (leave : String → State → (Reg → Word) × Flags) : Environment where
  cpu
  calls callee before after := ∃ args, takes callee args.length ∧ before.Passes args ∧
    after = before.answered (leave callee before) (world.call callee args ⟨before.pseudos, before.calls⟩)

/-- An operand that stands for a word whatever the registers hold. -/
def Operand.Stands (store : Store) (value : Word) (op : Operand) : Prop :=
  ∀ state : State, state.pseudos = store → op.read state = some value

theorem operands_stand {args : List Tac.Value} {ops : List Operand}
    (reads : List.Forall₂ (fun value arg => Tac.Value.read store arg = some value) values args)
    (made : args.mapM (operand func) = .ok ops) : List.Forall₂ (Operand.Stands store) values ops := by
  induction reads generalizing ops with
  | nil =>
    cases made
    exact .nil
  | cons read _ ih =>
    obtain ⟨op, others, first, later, rfl⟩ := mapM_cons_eq_ok.mp made
    exact .cons (fun state same => operand_read first same read) (ih later)

theorem effects_moves (cpu : Processor) (stand : List.Forall₂ (Operand.Stands store) values args) {regs : List Reg}
    (distinct : regs.Nodup) (same : state.pseudos = store) :
    ∃ loaded, effects cpu (List.zipWith (fun arg reg => .mov arg (.reg reg)) args regs) state =
        some { state with regs := loaded } ∧
      (∀ reg ∉ regs, loaded reg = state.regs reg) ∧
      ∀ index reg, regs[index]? = some reg → index < values.length → values[index]? = some (loaded reg) := by
  induction stand generalizing regs state with
  | nil => exact ⟨state.regs, rfl, fun _ _ => rfl, fun _ _ _ bound => absurd bound (Nat.not_lt_zero _)⟩
  | @cons value arg values args first _ ih =>
    cases regs with
    | nil => exact ⟨state.regs, rfl, fun _ _ => rfl, fun _ _ found => by cases found⟩
    | cons reg regs =>
      obtain ⟨fresh, distinct⟩ := List.nodup_cons.mp distinct
      have still : (state.setReg reg value).pseudos = store := same
      obtain ⟨loaded, run, kept, right⟩ := ih distinct still
      refine ⟨loaded, ?_, ?_, ?_⟩
      · rw [List.zipWith_cons_cons, effects, effect_mov (first state same), Operand.write_reg, Option.bind_some]
        exact run
      · intro other outside
        rw [List.mem_cons, not_or] at outside
        rw [kept other outside.2, State.setReg_other _ _ outside.1]
      · intro index found atIndex bound
        cases index with
        | zero =>
          cases Option.some.inj atIndex
          rw [kept reg fresh, State.setReg_same]
          rfl
        | succ index => exact right index found atIndex (Nat.lt_of_succ_lt_succ bound)

theorem effects_pushArg (cpu : Processor) {value : Word} {arg : Operand} (stands : arg.Stands store value)
    (same : state.pseudos = store) :
    ∃ regs, effects cpu (pushArg arg) state =
        some { state with regs := regs, pushed := some value :: state.pushed } ∧
      ∀ reg ≠ .ax, regs reg = state.regs reg := by
  have read := stands state same
  have loaded : effects cpu [.mov arg (.reg .ax), .push (.reg .ax)] state =
      some { state.setReg .ax value with pushed := some value :: state.pushed } := by
    rw [effects, effect_mov read]
    simp [effects, Instr.effect]
  have direct : effects cpu [.push arg] state = some { state with pushed := some value :: state.pushed } := by
    simp [effects, Instr.effect, read]
  cases arg with
  | imm | reg => exact ⟨state.regs, direct, fun _ _ => rfl⟩
  | _ => exact ⟨_, loaded, fun reg other => State.setReg_other _ _ other⟩

/-- Pushing from the last argument to the first leaves the first one on top. -/
theorem effects_pushes (cpu : Processor) (stand : List.Forall₂ (Operand.Stands store) values args)
    (same : state.pseudos = store) :
    ∃ regs, effects cpu (args.reverse.flatMap pushArg) state =
        some { state with regs := regs, pushed := values.map some ++ state.pushed } ∧
      ∀ reg ≠ .ax, regs reg = state.regs reg := by
  induction stand with
  | nil => exact ⟨state.regs, rfl, fun _ _ => rfl⟩
  | @cons value arg values args first _ ih =>
    obtain ⟨regs, run, kept⟩ := ih
    have still : { state with regs := regs, pushed := values.map some ++ state.pushed }.pseudos = store := same
    obtain ⟨last, push, keptToo⟩ := effects_pushArg cpu first still
    refine ⟨last, ?_, fun reg other => (keptToo reg other).trans (kept reg other)⟩
    rw [List.reverse_cons, List.flatMap_append, effects_append, run, Option.bind_some, List.flatMap_singleton, push]
    rfl

theorem argument?_of_lt {reg : Reg} (found : Reg.args[index]? = some reg) :
    state.argument? index = some (state.regs reg) := by
  rw [State.argument?, found]

theorem argument?_of_ge (beyond : Reg.args.length ≤ index) :
    state.argument? index = (state.pushed[index - Reg.args.length]?).join := by
  rw [State.argument?, List.getElem?_eq_none beyond]

/-- Before a call every argument is in its place, over the padding and what was pushed before. -/
theorem effects_arguments (cpu : Processor) (stand : List.Forall₂ (Operand.Stands state.pseudos) values args) :
    ∃ regs, effects cpu (List.zipWith (fun arg reg => .mov arg (.reg reg)) args Reg.args ++
          (args.drop Reg.args.length).reverse.flatMap pushArg) state = some { state with
        regs := regs
        pushed := (values.drop Reg.args.length).map some ++ state.pushed } ∧
      State.Passes (State.visible { state with
        regs := regs
        pushed := (values.drop Reg.args.length).map some ++ state.pushed }) values := by
  obtain ⟨loaded, moves, _, right⟩ := effects_moves cpu stand (by decide : Reg.args.Nodup) rfl
  have still : { state with regs := loaded }.pseudos = state.pseudos := rfl
  obtain ⟨regs, pushes, kept⟩ := effects_pushes cpu (List.forall₂_drop Reg.args.length stand) still
  refine ⟨regs, ?_, ?_⟩
  · rw [effects_append, moves, Option.bind_some, pushes]
  · intro index bound
    rcases Nat.lt_or_ge index Reg.args.length with inside | beyond
    · have found := List.getElem?_eq_getElem inside
      have ordinary : ∀ reg ∈ Reg.args, reg ≠ .ax ∧ ¬(reg = .r10 ∨ reg = .r11) := by decide
      obtain ⟨notAx, notScratch⟩ := ordinary _ (List.getElem_mem inside)
      rw [argument?_of_lt found, right index _ found bound]
      simp only [State.visible, if_neg notScratch, kept _ notAx]
    · rw [argument?_of_ge beyond]
      have within : index - Reg.args.length < ((values.drop Reg.args.length).map some).length := by
        rw [List.length_map, List.length_drop]
        omega
      simp only [State.visible]
      rw [List.getElem?_append_left within, List.getElem?_map, List.getElem?_drop, Nat.add_sub_cancel' beyond]
      cases values[index]? <;> rfl

theorem effects_allocate (cpu : Processor) (bytes : Nat) (state : State) :
    effects cpu (if bytes = 0 then [] else [.allocate bytes]) state =
      some { state with pushed := List.replicate (cells bytes) none ++ state.pushed } := by
  split
  · rename_i zero
    rw [zero]
    rfl
  · rfl

theorem effects_deallocate (cpu : Processor) (bytes : Nat) (state : State) :
    effects cpu (if bytes = 0 then [] else [.deallocate bytes]) state =
      some { state with pushed := state.pushed.drop (cells bytes) } := by
  split
  · rename_i zero
    rw [zero]
    rfl
  · rfl

/-- A call leaves its result in its place, and the pushed stack as it was. -/
theorem call_run {world : World} {cpu : Processor} {takes : String → Nat → Prop}
    {leave : String → State → (Reg → Word) × Flags} {rest : List Instr} {callee : String}
    (allowed : takes callee values.length) (stand : List.Forall₂ (Operand.Stands state.pseudos) values args)
    {result : Word} (answer : world.call callee values ⟨state.pseudos, state.calls⟩ = (result, memory)) :
    ∃ after, Relation.TransGen (Step (hosted world cpu takes leave) code)
        ⟨call callee args (.pseudo name) ++ rest, state⟩ ⟨rest, after⟩ ∧
      Holds (memory.set name result) state.pushed after := by
  have length : (values.drop Reg.args.length).length = (args.drop Reg.args.length).length := by
    rw [List.length_drop, List.length_drop, stand.length_eq]
  unfold call
  simp only
  generalize aligned : (if (args.drop Reg.args.length).length % 2 = 1 then 8 else 0) = padding
  have padded : State.pseudos { state with pushed := List.replicate (cells padding) none ++ state.pushed } =
    state.pseudos := rfl
  rw [← padded] at stand
  obtain ⟨regs, arguments, passes⟩ := effects_arguments cpu stand
  have size : cells ↑(8 * (args.drop Reg.args.length).length + padding) =
      (args.drop Reg.args.length).length + cells padding := by
    unfold cells
    omega
  let before : State := { state with
    regs := regs
    pushed := (values.drop Reg.args.length).map some ++ (List.replicate (cells padding) none ++ state.pushed) }
  let called : State := before.visible.answered (leave callee before.visible) (result, memory)
  have restored : called.pushed.drop (cells ↑(8 * (args.drop Reg.args.length).length + padding)) = state.pushed := by
    have front : ((values.drop Reg.args.length).map some ++ List.replicate (cells padding) none).length =
        cells ↑(8 * (args.drop Reg.args.length).length + padding) := by
      rw [size, List.length_append, List.length_map, List.length_replicate, length]
    exact (congrArg _ (List.append_assoc ..).symm).trans (List.drop_left' front)
  have made (behind : List Instr) :
      Step (hosted world cpu takes leave) code ⟨.call callee :: behind, before⟩ ⟨behind, called⟩ :=
    .call ⟨values, allowed, passes, congrArg (before.visible.answered (leave callee before.visible)) answer.symm⟩
  let last : State := { called with pseudos := Function.update memory.store name result, pushed := state.pushed }
  have moved : effects cpu [.mov (.reg .ax) (.pseudo name)] { called with pushed := state.pushed } = some last := by
    rw [effects_singleton, effect_mov (Operand.read_reg ..), Operand.write_pseudo]
    simp [called, last, State.answered]
  refine ⟨last, ?_, rfl, rfl, rfl⟩
  simp only [List.append_assoc]
  rw [← List.append_assoc (List.zipWith ..)]
  refine .trans_right ((Steps.effects (effects_allocate cpu padding state)).trans (Steps.effects arguments)) ?_
  refine .head' (made _) ((Steps.effects (effects_deallocate ..)).trans ?_)
  rw [restored]
  exact Steps.effects moved

/-- Instructions that are selected one by one for the given code. -/
def Selects (func : String) (code : List Tac.Instr) (instrs : List Instr) : Prop :=
  ∃ blocks, code.mapM (selectInstr func) = .ok blocks ∧ instrs = blocks.flatten

theorem selects_cons {rest : List Tac.Instr} {instrs : List Instr} :
    Selects func (instr :: rest) instrs ↔
      ∃ block others, selectInstr func instr = .ok block ∧ Selects func rest others ∧ instrs = block ++ others := by
  simp only [Selects, mapM_cons_eq_ok]
  constructor
  · rintro ⟨blocks, ⟨block, others, first, later, rfl⟩, rfl⟩
    exact ⟨block, others.flatten, first, ⟨others, later, rfl⟩, rfl⟩
  · rintro ⟨block, _, first, ⟨others, later, rfl⟩, rfl⟩
    exact ⟨block :: others, ⟨block, others, first, later, rfl⟩, rfl⟩

theorem operand_eq_ok (selected : operand func value = .ok op) :
    op.isScratch = false ∧ (value.isVar = true → op.isPlace = true) := by
  cases value with
  | const | var => cases selected; simp [Operand.isScratch, Operand.isPlace, Tac.Value.isVar]
  | absent => cases selected

/-- An instruction of a selected block: no label, no scratch register, and only places are written to. -/
def Instr.isOrdinary (instr : Instr) : Bool :=
  instr.isSelected && match instr with
    | .label _ => false
    | _ => true

theorem isOrdinary_mov {source dest : Operand} (freeSource : source.isScratch = false)
    (freeDest : dest.isScratch = false) (place : dest.isPlace = true) :
    (Instr.mov source dest).isOrdinary = true := by
  simp [Instr.isOrdinary, Instr.isSelected, Instr.operands, Instr.dest?, freeSource, freeDest, place]

theorem isOrdinary_pushArg {arg : Operand} (free : arg.isScratch = false) :
    ∀ part ∈ pushArg arg, part.isOrdinary = true := by
  have loaded : (Instr.mov arg (.reg .ax)).isOrdinary = true := isOrdinary_mov free rfl rfl
  cases arg <;> simp_all [pushArg, Instr.isOrdinary, Instr.isSelected, Instr.operands, Instr.dest?, Operand.isScratch]

theorem isOrdinary_call {callee : String} {dest : Operand} (free : ∀ arg ∈ args, arg.isScratch = false)
    (freeDest : dest.isScratch = false) (place : dest.isPlace = true) :
    ∀ part ∈ call callee args dest, part.isOrdinary = true := by
  intro part member
  simp only [call, List.mem_append, List.mem_ite_nil_left, List.mem_singleton] at member
  rcases member with ((((⟨-, rfl⟩ | inRegister) | pushed) | rfl) | ⟨-, rfl⟩) | rfl
  · rfl
  · obtain ⟨arg, inside, reg, named, rfl⟩ := exists_of_mem_zipWith inRegister
    have ordinary : ∀ reg ∈ Reg.args, (Operand.reg reg).isScratch = false := by decide
    exact isOrdinary_mov (free arg inside) (ordinary reg named) rfl
  · obtain ⟨arg, inside, here⟩ := List.mem_flatMap.mp pushed
    exact isOrdinary_pushArg (free arg (List.mem_of_mem_drop (List.mem_reverse.mp inside))) part here
  · rfl
  · rfl
  · exact isOrdinary_mov rfl freeDest place

/-- Labels are selected for labels only. -/
theorem selectInstr_isOrdinary (selected : selectInstr func instr = .ok block) (other : ∀ name, instr ≠ .label name)
    (result : ∀ dest ∈ instr.dest?, dest.isVar = true) : ∀ part ∈ block, part.isOrdinary = true := by
  cases instr with
  | label name => exact absurd rfl (other name)
  | call callee args dest =>
    simp only [selectInstr, bind_eq_ok, pure_eq_ok] at selected
    obtain ⟨ops, each, op, last, rfl⟩ := selected
    have free : ∀ arg ∈ ops, arg.isScratch = false := by
      intro arg member
      obtain ⟨value, -, made⟩ := exists_of_mem_mapM each member
      exact (operand_eq_ok made).1
    exact isOrdinary_call free (operand_eq_ok last).1 ((operand_eq_ok last).2 (result dest rfl))
  | unary op source dest =>
    cases op <;> simp only [selectInstr, bind_eq_ok, pure_eq_ok] at selected <;>
      obtain ⟨b, madeB, a, madeA, rfl⟩ := selected <;>
      simp [Instr.isOrdinary, Instr.isSelected, Instr.operands, Instr.dest?, (operand_eq_ok madeA).1,
        (operand_eq_ok madeB).1, (operand_eq_ok madeB).2 (result dest rfl)]
  | binary op left right dest =>
    simp only [selectInstr, bind_eq_ok, pure_eq_ok] at selected
    obtain ⟨a, madeA, b, madeB, c, madeC, rfl⟩ := selected
    cases op <;>
      simp [Instr.isOrdinary, Instr.isSelected, Instr.operands, Instr.dest?, (operand_eq_ok madeA).1,
        (operand_eq_ok madeB).1, (operand_eq_ok madeC).1, (operand_eq_ok madeC).2 (result dest rfl)]
  | unknown | lacking => cases selected
  | copy source dest =>
    simp only [selectInstr, bind_eq_ok, pure_eq_ok] at selected
    obtain ⟨a, madeA, b, madeB, rfl⟩ := selected
    rintro part (_ | ⟨_, ⟨⟩⟩)
    exact isOrdinary_mov (operand_eq_ok madeA).1 (operand_eq_ok madeB).1 ((operand_eq_ok madeB).2 (result dest rfl))
  | ret value | jumpIfZero value target | jumpIfNotZero value target =>
    obtain ⟨a, made, ⟨⟩⟩ := bind_eq_ok.mp selected
    simp [Instr.isOrdinary, Instr.isSelected, Instr.operands, Instr.dest?, (operand_eq_ok made).1]
  | jump target => cases selected; simp [Instr.isOrdinary, Instr.isSelected, Instr.operands, Instr.dest?]
  | mention name => cases selected; exact fun _ member => absurd member List.not_mem_nil

theorem Selects.seek {target : String} {code next : List Tac.Instr} {instrs : List Instr}
    (selects : Selects func code instrs) (results : ∀ instr ∈ code, ∀ dest ∈ instr.dest?, dest.isVar = true)
    (found : Tac.seek target code = some next) :
    ∃ after, seek target instrs = some after ∧ Selects func next after := by
  induction code generalizing instrs with
  | nil => cases found
  | cons instr rest ih =>
    obtain ⟨block, others, first, later, rfl⟩ := selects_cons.mp selects
    have further := ih later fun other inside => results other (List.mem_cons_of_mem _ inside)
    by_cases label : ∃ name, instr = .label name
    · obtain ⟨name, rfl⟩ := label
      cases first
      simp only [Tac.seek] at found
      simp only [List.singleton_append, Machine.seek]
      split at found
      · cases Option.some.inj found
        rename_i same
        exact ⟨others, if_pos same, later⟩
      · rename_i different
        rw [if_neg different]
        exact further found
    · rw [not_exists] at label
      have plain : ∀ name, Instr.label name ∉ block := fun name member => by
        have ordinary := selectInstr_isOrdinary first label (results instr List.mem_cons_self) _ member
        simp [Instr.isOrdinary] at ordinary
      rw [seek_append_of_plain plain]
      have behind : Tac.seek target (instr :: rest) = Tac.seek target rest := by
        cases instr with
        | label name => exact absurd rfl (label name)
        | _ => rfl
      exact further (behind ▸ found)

/-- A point of a run and the point of the selected instructions that stands for it. -/
structure Mirrors (func : String) (pushed : List (Option Word)) (c : Tac.Config) (d : Config) : Prop where
  rest : Selects func c.rest d.rest
  state : Holds c.memory pushed d.state

/-- The instructions for an operation on two operands leave its result in its place. -/
theorem Holds.binary {op : Tac.BinaryOp} {left right : Tac.Value} {b result : Word} (cpu : Processor)
    (holds : Holds memory pushed state) (selected : selectInstr func (.binary op left right (.var name)) = .ok block)
    (apart : (Tac.Instr.binary op left right (.var name)).overwritesRight = false)
    (readLeft : left.read memory.store = some a) (readRight : right.read memory.store = some b)
    (applied : op.apply a b = some result) :
    ∃ after, effects cpu block state = some after ∧ Holds (memory.set name result) pushed after := by
  obtain ⟨pseudos, calls, stack⟩ := holds
  rw [← pseudos] at readLeft readRight
  simp only [selectInstr, bind_eq_ok, pure_eq_ok] at selected
  obtain ⟨l, madeL, r, madeR, dest, madeDest, rfl⟩ := selected
  cases operand_var.mp madeDest
  have leftRead := operand_read madeL rfl readLeft
  have rightRead := operand_read madeR rfl readRight
  cases op with
  | add | sub | mul =>
    have other : right ≠ .var name := of_decide_eq_false apart
    cases applied
    refine ⟨_, effects_binary name _ leftRead madeR readRight other, ?_, calls, stack⟩
    simp only [Memory.set, BinaryOp.apply, pseudos]
  | div =>
    obtain ⟨middle, run, quotient, -, store, sameCalls, sameStack⟩ := effects_divide leftRead madeR readRight applied
    refine ⟨_, effects_moveOut name run .ax, ?_, sameCalls.trans calls, sameStack.trans stack⟩
    simp only [Memory.set, quotient, store, pseudos]
  | rem =>
    obtain ⟨_, defined, value⟩ := Word.exact_remainder applied
    obtain ⟨middle, run, -, remainder, store, sameCalls, sameStack⟩ := effects_divide leftRead madeR readRight defined
    refine ⟨_, effects_moveOut name run .dx, ?_, sameCalls.trans calls, sameStack.trans stack⟩
    simp only [Memory.set, remainder, ← value, BitVec.ofInt_toInt, store, pseudos]
  | eq | ne | lt | le | gt | ge =>
    cases applied
    refine ⟨_, effects_compare name _ leftRead rightRead, ?_, calls, stack⟩
    simp only [Memory.set, CondCode.relates, pseudos]

theorem Holds.unary {op : Tac.UnaryOp} {source : Tac.Value} (cpu : Processor) (holds : Holds memory pushed state)
    (selected : selectInstr func (.unary op source (.var name)) = .ok block) (read : source.read memory.store = some a) :
    ∃ after, effects cpu block state = some after ∧ Holds (memory.set name (op.apply a)) pushed after := by
  obtain ⟨pseudos, calls, stack⟩ := holds
  cases op with
  | not =>
    simp only [selectInstr, bind_eq_ok, pure_eq_ok] at selected
    obtain ⟨dest, madeDest, s, made, rfl⟩ := selected
    cases operand_var.mp madeDest
    refine ⟨_, effects_compare name .e (operand_read made pseudos read) (Operand.read_imm ..), ?_, calls, stack⟩
    simp [Memory.set, CondCode.relates, Tac.UnaryOp.apply, pseudos]
  | negate | complement =>
    simp only [selectInstr, bind_eq_ok, pure_eq_ok] at selected
    obtain ⟨dest, madeDest, s, made, rfl⟩ := selected
    cases operand_var.mp madeDest
    refine ⟨_, effects_unary name _ (operand_read made pseudos read), ?_, calls, stack⟩
    simp only [Memory.set, UnaryOp.apply, Tac.UnaryOp.apply, pseudos]

/-- Comparing a value with zero tells whether it is zero, and leaves everything else as it was. -/
theorem Holds.condition {cond : Tac.Value} (cpu : Processor) (holds : Holds memory pushed state)
    (selected : Machine.operand func cond = .ok op) (read : cond.read memory.store = some a) :
    ∃ after, (Instr.cmp (.imm 0) op).effect cpu state = some after ∧ Holds memory pushed after ∧
      CondCode.holds after.flags .e = decide (a = 0) ∧ CondCode.holds after.flags .ne = decide (a ≠ 0) := by
  refine ⟨_, effect_cmp (Operand.read_imm ..) (operand_read selected holds.pseudos read),
    ⟨holds.pseudos, holds.calls, holds.pushed⟩, ?_, ?_⟩
  · exact CondCode.holds_compare ..
  · exact CondCode.holds_compare ..

/-- Only a mention is selected without any instruction. -/
theorem selectInstr_ne_nil (selected : selectInstr func instr = .ok block) (other : ∀ name, instr ≠ .mention name) :
    block ≠ [] := by
  cases instr with
  | mention name => exact absurd rfl (other name)
  | unary op source dest =>
    cases op <;> simp only [selectInstr, bind_eq_ok, pure_eq_ok] at selected <;>
      obtain ⟨_, -, _, -, rfl⟩ := selected <;> simp
  | binary op left right dest =>
    simp only [selectInstr, bind_eq_ok, pure_eq_ok] at selected
    obtain ⟨_, -, _, -, _, -, rfl⟩ := selected
    cases op <;> simp
  | copy source dest | call callee args dest =>
    simp only [selectInstr, bind_eq_ok, pure_eq_ok] at selected
    obtain ⟨_, -, _, -, rfl⟩ := selected
    simp [call]
  | ret value | jumpIfZero value target | jumpIfNotZero value target =>
    obtain ⟨_, -, ⟨⟩⟩ := bind_eq_ok.mp selected
    simp
  | jump | label =>
    cases selected
    simp
  | unknown | lacking => cases selected

/-- A step is mirrored by steps of the selected instructions, one at least unless the step only mentions
a function. -/
theorem Mirrors.step {world : World} {cpu : Processor} {takes : String → Nat → Prop}
    {leave : String → State → (Reg → Word) × Flags} {body : List Tac.Instr} {c next : Tac.Config} {d : Config}
    (mirrors : Mirrors func pushed c d)
    (jumps : ∀ target rest, Tac.seek target body = some rest → ∃ after, seek target code = some after ∧
      Selects func rest after) (apart : ∀ instr ∈ c.rest, instr.overwritesRight = false)
    (allowed : ∀ callee args dest, .call callee args dest ∈ c.rest → takes callee args.length)
    (move : Tac.Step world body c next) :
    ∃ after, Mirrors func pushed next after ∧ (Relation.TransGen (Step (hosted world cpu takes leave) code) d after ∨
      after = d ∧ next.rest.length < c.rest.length) := by
  obtain ⟨instrs, state⟩ := d
  obtain ⟨selects, holds⟩ := mirrors
  have computed {block others rest memory after} (run : effects cpu block state = some after)
      (some : block ≠ []) (later : Selects func rest others) (holds : Holds memory pushed after) :
      ∃ after, Mirrors func pushed ⟨rest, memory⟩ after ∧
        (Relation.TransGen (Step (hosted world cpu takes leave) code) ⟨block ++ others, state⟩ after ∨
          after = ⟨block ++ others, state⟩ ∧ rest.length < c.rest.length) := by
    obtain ⟨instr, block, rfl⟩ := List.exists_cons_of_ne_nil some
    exact ⟨⟨others, after⟩, ⟨later, holds⟩, .inl (Steps.effects_cons run)⟩
  cases move <;> obtain ⟨block, others, first, later, rfl⟩ := selects_cons.mp selects
  case copy source dest value rest memory read =>
    simp only [selectInstr, bind_eq_ok, pure_eq_ok] at first
    obtain ⟨op, made, place, madePlace, rfl⟩ := first
    cases operand_var.mp madePlace
    have run : effects cpu [.mov op (.pseudo dest)] state =
        some { state with pseudos := Function.update state.pseudos dest value } := by
      rw [effects_singleton, effect_mov (operand_read made holds.pseudos read), Operand.write_pseudo]
    exact computed run (List.cons_ne_nil _ _) later
      ⟨congrArg (Function.update · dest value) holds.pseudos, holds.calls, holds.pushed⟩
  case unary op source dest value rest memory read =>
    obtain ⟨after, run, holds⟩ := holds.unary cpu first read
    exact computed run (selectInstr_ne_nil first fun _ => nofun) later holds
  case binary op left right dest a b result rest memory readLeft readRight applied =>
    obtain ⟨after, run, holds⟩ := holds.binary cpu first (apart _ List.mem_cons_self) readLeft readRight applied
    exact computed run (selectInstr_ne_nil first fun _ => nofun) later holds
  case call callee args dest values result rest memory after reads answer =>
    simp only [selectInstr, bind_eq_ok, pure_eq_ok] at first
    obtain ⟨ops, made, place, madePlace, rfl⟩ := first
    cases operand_var.mp madePlace
    have stand := operands_stand (holds.pseudos ▸ reads) made
    have many : takes callee values.length := reads.length_eq ▸ allowed callee args _ List.mem_cons_self
    have same : (⟨state.pseudos, state.calls⟩ : Memory) = memory := Memory.ext holds.pseudos holds.calls
    obtain ⟨last, run, still⟩ := call_run many stand (same ▸ answer)
    exact ⟨⟨others, last⟩, ⟨later, holds.pushed ▸ still⟩, .inl run⟩
  case jump target rest next memory found =>
    cases first
    obtain ⟨after, there, behind⟩ := jumps target next found
    exact ⟨⟨after, state⟩, ⟨behind, holds⟩, .inl (.single (.jmp there))⟩
  case zero cond target rest next memory read found =>
    obtain ⟨op, made, ⟨⟩⟩ := bind_eq_ok.mp first
    obtain ⟨after, compared, holds, flag, -⟩ := holds.condition cpu made read
    obtain ⟨behind, there, selects⟩ := jumps target next found
    exact ⟨⟨behind, after⟩, ⟨selects, holds⟩, .inl (.tail (.single (.effect compared)) (.taken flag there))⟩
  case notZero cond value target rest memory read different =>
    obtain ⟨op, made, ⟨⟩⟩ := bind_eq_ok.mp first
    obtain ⟨after, compared, holds, flag, -⟩ := holds.condition cpu made read
    rw [decide_eq_false different] at flag
    exact ⟨⟨others, after⟩, ⟨later, holds⟩, .inl (.tail (.single (.effect compared)) (.passed flag))⟩
  case nonzero cond value target rest next memory read different found =>
    obtain ⟨op, made, ⟨⟩⟩ := bind_eq_ok.mp first
    obtain ⟨after, compared, holds, -, flag⟩ := holds.condition cpu made read
    obtain ⟨behind, there, selects⟩ := jumps target next found
    rw [decide_eq_true different] at flag
    exact ⟨⟨behind, after⟩, ⟨selects, holds⟩, .inl (.tail (.single (.effect compared)) (.taken flag there))⟩
  case notNonzero cond target rest memory read =>
    obtain ⟨op, made, ⟨⟩⟩ := bind_eq_ok.mp first
    obtain ⟨after, compared, holds, -, flag⟩ := holds.condition cpu made read
    exact ⟨⟨others, after⟩, ⟨later, holds⟩, .inl (.tail (.single (.effect compared)) (.passed flag))⟩
  case label name rest memory =>
    cases first
    exact ⟨⟨others, state⟩, ⟨later, holds⟩, .inl (.single (.effect rfl))⟩
  case mention name rest memory =>
    cases first
    exact ⟨⟨others, state⟩, ⟨later, holds⟩, .inr ⟨rfl, Nat.lt_succ_self _⟩⟩

/-- Where a value is returned, the selected instructions come to a return with the value in its register. -/
theorem Mirrors.returned {env : Environment} {c : Tac.Config} {d : Config} {value : Word}
    (mirrors : Mirrors func pushed c d) (returned : c.returned? = some value) :
    ∃ rest last, Steps env code d ⟨.ret :: rest, last⟩ ∧ last.regs .ax = value ∧ Holds c.memory pushed last := by
  obtain ⟨instrs, state⟩ := d
  obtain ⟨selects, holds⟩ := mirrors
  obtain ⟨here, memory⟩ := c
  cases here with
  | nil => cases returned
  | cons instr rest =>
    cases instr with
    | ret result =>
      obtain ⟨block, others, first, later, rfl⟩ := selects_cons.mp selects
      obtain ⟨op, made, ⟨⟩⟩ := bind_eq_ok.mp first
      refine ⟨others, state.setReg .ax value, .single (.effect ?_), State.setReg_same .., ?_⟩
      · rw [effect_mov (operand_read made holds.pseudos returned), Operand.write_reg]
      · exact ⟨holds.pseudos, holds.calls, holds.pushed⟩
    | _ => cases returned

theorem mem_incoming {homes : List Operand} {regs : List Operand} (member : op ∈ incoming regs homes index) :
    op ∈ regs ∨ ∃ offset, op = .stack offset := by
  induction homes generalizing regs index with
  | nil => cases regs <;> cases member
  | cons home homes ih =>
    cases regs with
    | nil =>
      rcases List.mem_cons.mp member with rfl | later
      · exact Or.inr ⟨_, rfl⟩
      · exact ih later
    | cons reg regs =>
      rcases List.mem_cons.mp member with rfl | later
      · exact Or.inl List.mem_cons_self
      · exact (ih later).imp_left (List.mem_cons_of_mem _)

theorem isOrdinary_paramMoves {params : List String} : ∀ part ∈ paramMoves params, part.isOrdinary = true := by
  intro part member
  obtain ⟨source, inside, home, param, rfl⟩ := exists_of_mem_zipWith member
  obtain ⟨name, -, rfl⟩ := List.mem_map.mp param
  have free : source.isScratch = false := by
    rcases mem_incoming inside with register | ⟨offset, rfl⟩
    · exact (by decide : ∀ op ∈ Reg.args.map Operand.reg, op.isScratch = false) source register
    · rfl
  exact isOrdinary_mov free rfl rfl

theorem selectFunc_eq_ok {func : Tac.Func} {machine : Func} (selected : selectFunc func = .ok machine) :
    ∃ code, machine.instrs = paramMoves func.params ++ code ∧ Selects func.name func.body code := by
  simp only [selectFunc, bind_eq_ok, pure_eq_ok] at selected
  obtain ⟨blocks, each, rfl⟩ := selected
  exact ⟨blocks.flatten, rfl, blocks, each, rfl⟩

/-- Every instruction that is selected keeps off the scratch registers and writes to places. -/
theorem selectFunc_isSelected {func : Tac.Func} {machine : Func} (selected : selectFunc func = .ok machine)
    (results : ∀ instr ∈ func.body, ∀ dest ∈ instr.dest?, dest.isVar = true) :
    ∀ instr ∈ machine.instrs, instr.isSelected = true := by
  obtain ⟨code, same, blocks, each, rfl⟩ := selectFunc_eq_ok selected
  intro part member
  rw [same, List.mem_append] at member
  rcases member with param | inside
  · exact (Bool.and_eq_true_iff.mp (isOrdinary_paramMoves part param)).1
  · obtain ⟨block, among, here⟩ := List.mem_flatten.mp inside
    obtain ⟨instr, source, made⟩ := exists_of_mem_mapM each among
    by_cases label : ∃ name, instr = .label name
    · obtain ⟨name, rfl⟩ := label
      cases made
      cases List.mem_singleton.mp here
      rfl
    · rw [not_exists] at label
      exact (Bool.and_eq_true_iff.mp (selectInstr_isOrdinary made label (results instr source) part here)).1

theorem exists_operand (func : String) (present : value.isPresent = true) : ∃ op, operand func value = .ok op := by
  cases value with
  | const value | var name => exact ⟨_, rfl⟩
  | absent => cases present

theorem exists_operands {values : List Tac.Value} (func : String) (present : values.all Tac.Value.isPresent = true) :
    ∃ ops, values.mapM (operand func) = .ok ops :=
  exists_mapM_eq_ok fun value member => exists_operand func (List.all_eq_true.mp present value member)

/-- Every complete instruction can be selected. -/
theorem exists_selectInstr (func : String) (complete : instr.isComplete = true) :
    ∃ code, selectInstr func instr = .ok code := by
  cases instr with
  | ret value | jumpIfZero value | jumpIfNotZero value =>
    obtain ⟨op, same⟩ := exists_operand func complete
    simp [selectInstr, same, bind, Except.bind, pure, Except.pure]
  | copy source dest =>
    obtain ⟨present, named⟩ := Bool.and_eq_true_iff.mp complete
    obtain ⟨op, same⟩ := exists_operand func present
    obtain ⟨home, sameHome⟩ := exists_operand func (Tac.Value.isPresent_of_isVar named)
    simp [selectInstr, same, sameHome, bind, Except.bind, pure, Except.pure]
  | unary op source dest =>
    obtain ⟨present, named⟩ := Bool.and_eq_true_iff.mp complete
    obtain ⟨value, same⟩ := exists_operand func present
    obtain ⟨home, sameHome⟩ := exists_operand func (Tac.Value.isPresent_of_isVar named)
    cases op <;> simp [selectInstr, same, sameHome, bind, Except.bind, pure, Except.pure]
  | binary op left right dest =>
    obtain ⟨both, named⟩ := Bool.and_eq_true_iff.mp complete
    obtain ⟨leftHere, rightHere⟩ := Bool.and_eq_true_iff.mp both
    obtain ⟨first, sameFirst⟩ := exists_operand func leftHere
    obtain ⟨second, sameSecond⟩ := exists_operand func rightHere
    obtain ⟨home, sameHome⟩ := exists_operand func (Tac.Value.isPresent_of_isVar named)
    simp [selectInstr, sameFirst, sameSecond, sameHome, bind, Except.bind, pure, Except.pure]
  | call callee args dest =>
    obtain ⟨present, named⟩ := Bool.and_eq_true_iff.mp complete
    obtain ⟨ops, same⟩ := exists_operands func present
    obtain ⟨home, sameHome⟩ := exists_operand func (Tac.Value.isPresent_of_isVar named)
    simp [selectInstr, same, sameHome, bind, Except.bind, pure, Except.pure]
  | jump | label | mention => exact ⟨_, rfl⟩
  | unknown | lacking => cases complete

theorem exists_selectFunc {func : Tac.Func} (complete : ∀ instr ∈ func.body, instr.isComplete = true) :
    ∃ machine, selectFunc func = .ok machine := by
  obtain ⟨code, same⟩ := exists_mapM_eq_ok fun instr member => exists_selectInstr func.name (complete instr member)
  simp [selectFunc, same, bind, Except.bind, pure, Except.pure]

theorem exists_select {program : Tac.Program}
    (complete : ∀ func ∈ program.funcs, ∀ instr ∈ func.body, instr.isComplete = true) :
    ∃ machine, select program = .ok machine := by
  obtain ⟨funcs, same⟩ := exists_mapM_eq_ok fun func member => exists_selectFunc (complete func member)
  simp [select, same, bind, Except.bind, pure, Except.pure]

end IntC.Machine
