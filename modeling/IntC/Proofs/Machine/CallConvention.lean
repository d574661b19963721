import IntC.Proofs.Machine.Lines
import IntC.Proofs.Machine.Stack

namespace IntC.Machine

/-- The memory that the stack lies in, byte by byte. -/
abbrev Bytes := Int → BitVec 8

namespace Bytes

/-- Puts eight bytes into memory, the lowest one first. -/
def store (bytes : Bytes) (address : Int) (value : BitVec 64) : Bytes := fun place =>
  if address ≤ place ∧ place < address + 8 then value.extractLsb' (8 * (place - address).toNat) 8 else bytes place

def word (bytes : Bytes) (address : Int) : Word :=
  bytes (address + 3) ++ bytes (address + 2) ++ bytes (address + 1) ++ bytes address

def quad (bytes : Bytes) (address : Int) : BitVec 64 := bytes.word (address + 4) ++ bytes.word address

/-- Of what was stored, the four lower bytes are read back. -/
theorem word_store_same (bytes : Bytes) (address : Int) (value : BitVec 64) :
    (bytes.store address value).word address = value.setWidth 32 := by
  have stored : ∀ offset : Nat, offset < 8 →
      bytes.store address value (address + offset) = value.extractLsb' (8 * offset) 8 := by
    intro offset small
    rw [store, if_pos ⟨by omega, by omega⟩]
    congr 2
    omega
  have parts : (bytes.store address value).word address =
      value.extractLsb' 24 8 ++ value.extractLsb' 16 8 ++ value.extractLsb' 8 8 ++ value.extractLsb' 0 8 := by
    have first := stored 0 (by decide)
    rw [Int.natCast_zero, Int.add_zero] at first
    rw [word, first]
    exact congrArg (· ++ _) (congrArg₂ (· ++ ·) (congrArg₂ (· ++ ·) (stored 3 (by decide)) (stored 2 (by decide)))
      (stored 1 (by decide)))
  rw [parts]
  ext i small
  simp only [BitVec.getElem_append, BitVec.getElem_extractLsb', BitVec.getElem_setWidth]
  grind

theorem word_store_above (bytes : Bytes) {address place : Int} (value : BitVec 64) (above : address + 8 ≤ place) :
    (bytes.store address value).word place = bytes.word place := by
  have kept : ∀ other, address + 8 ≤ other → bytes.store address value other = bytes other :=
    fun other far => if_neg (by omega)
  simp only [word, kept place above, kept (place + 1) (by omega), kept (place + 2) (by omega),
    kept (place + 3) (by omega)]

end Bytes

/-- The machine as far as calls need it. Each activation of a function has variables of its own, which are found
by its frame pointer. -/
structure Hardware where
  regs : Reg → BitVec 64
  stackPointer : Int
  framePointer : Int
  memory : Bytes
  locals : Int → Store

def Hardware.push (value : BitVec 64) (state : Hardware) : Hardware :=
  { state with
    stackPointer := state.stackPointer - 8
    memory := state.memory.store (state.stackPointer - 8) value }

def Hardware.setReg (reg : Reg) (value : BitVec 64) (state : Hardware) : Hardware :=
  { state with regs := Function.update state.regs reg value }

@[simp] theorem Hardware.setReg_same (reg : Reg) (value : BitVec 64) (state : Hardware) :
    (state.setReg reg value).regs reg = value := Function.update_self ..

def Hardware.setLocal (name : String) (value : Word) (state : Hardware) : Hardware :=
  let own := Function.update (state.locals state.framePointer) name value
  { state with locals := Function.update state.locals state.framePointer own }

def Operand.fetch (state : Hardware) : Operand → Option Word
  | .imm value => some (BitVec.ofInt 32 value)
  | .reg r => some ((state.regs r).setWidth 32)
  | .pseudo name => some (state.locals state.framePointer name)
  | .stack offset => some (state.memory.word (state.framePointer + offset))
  | .data _ | .absent => none

/-- What an instruction of a calling sequence does. A move into a register clears the upper half of it, a constant
that is pushed is extended with its sign, and a call pushes the address that it will return to. -/
def Instr.act (returnTo : BitVec 64) (state : Hardware) : Instr → Option Hardware
  | .mov source (.reg reg) => (source.fetch state).map fun value => state.setReg reg (value.setWidth 64)
  | .mov source (.pseudo name) => (source.fetch state).map fun value => state.setLocal name value
  | .allocate bytes => some { state with stackPointer := state.stackPointer - bytes }
  | .deallocate bytes => some { state with stackPointer := state.stackPointer + bytes }
  | .push (.imm value) => some (state.push (BitVec.ofInt 64 value))
  | .push (.reg reg) => some (state.push (state.regs reg))
  | .call _ => some (state.push returnTo)
  | _ => none

def acts (returnTo : BitVec 64) (code : List Instr) (state : Hardware) : Option Hardware :=
  code.foldlM (Instr.act returnTo) state

def Line.act (returnTo : BitVec 64) (state : Hardware) : Line → Option Hardware
  | .directive _ | .label _ => some state
  | .code instr => instr.act returnTo state
  | .saveBase => some (state.push (BitVec.ofInt 64 state.framePointer))
  | .setBase => some { state with framePointer := state.stackPointer }
  | .resetStack => some { state with stackPointer := state.framePointer }
  | .restoreBase => some { state with
      framePointer := (state.memory.quad state.stackPointer).toInt
      stackPointer := state.stackPointer + 8 }
  | .goBack => some { state with stackPointer := state.stackPointer + 8 }

def Hardware.run (returnTo : BitVec 64) (lines : List Line) (state : Hardware) : Option Hardware :=
  lines.foldlM (Line.act returnTo) state

section Acts
variable {returnTo : BitVec 64}

theorem acts_append (first second : List Instr) (state : Hardware) :
    acts returnTo (first ++ second) state = (acts returnTo first state).bind (acts returnTo second) :=
  List.foldlM_append

theorem acts_cons {instr : Instr} {rest : List Instr} {state after : Hardware}
    (done : instr.act returnTo state = some after) : acts returnTo (instr :: rest) state = acts returnTo rest after := by
  rw [acts, List.foldlM_cons, done]
  rfl

theorem run_append (first second : List Line) (state : Hardware) :
    Hardware.run returnTo (first ++ second) state = (Hardware.run returnTo first state).bind (Hardware.run returnTo second) :=
  List.foldlM_append

theorem run_lines (naming : Naming) {code : List Instr} {state after : Hardware}
    (done : acts returnTo code state = some after) :
    Hardware.run returnTo (code.flatMap (Instr.lines naming)) state = some after := by
  induction code generalizing state with
  | nil => exact done
  | cons instr rest ih =>
    rw [acts, List.foldlM_cons, Option.bind_eq_bind, Option.bind_eq_some_iff] at done
    obtain ⟨middle, first, later⟩ := done
    have alone : instr.lines naming = [.code instr] := by
      cases instr <;> first
        | rfl
        | cases first
    rw [List.flatMap_cons, alone, run_append, Hardware.run, List.foldlM_cons, Line.act, first]
    exact ih later

/-- An operand that stands for a value as long as the variables stay as they are. -/
def Operand.Gives (start : Hardware) (value : Word) (arg : Operand) : Prop :=
  ∀ state : Hardware, state.locals = start.locals → state.framePointer = start.framePointer →
    arg.fetch state = some value

theorem setWidth_setWidth (value : Word) : (value.setWidth 64).setWidth 32 = value :=
  (BitVec.setWidth_setWidth_of_le _ (by decide)).trans (BitVec.setWidth_eq _)

theorem setWidth_ofInt (number : Int) : (BitVec.ofInt 64 number).setWidth 32 = BitVec.ofInt 32 number := by
  apply BitVec.eq_of_toNat_eq
  simp only [BitVec.toNat_setWidth, BitVec.toNat_ofInt]
  omega

/-- The first arguments are in their registers after the moves. -/
theorem acts_moves {start state : Hardware} {values : List Word} {args : List Operand} {regs : List Reg}
    (give : List.Forall₂ (Operand.Gives start) values args) (distinct : regs.Nodup)
    (sameLocals : state.locals = start.locals) (sameFrame : state.framePointer = start.framePointer) :
    ∃ loaded, acts returnTo (List.zipWith (fun arg reg => .mov arg (.reg reg)) args regs) state =
        some { state with regs := loaded } ∧
      (∀ other ∉ regs, loaded other = state.regs other) ∧
      ∀ (index : Nat) reg value, regs[index]? = some reg → values[index]? = some value →
        (loaded reg).setWidth 32 = value := by
  induction give generalizing regs state with
  | nil => exact ⟨state.regs, rfl, fun _ _ => rfl, fun _ _ _ _ found => nomatch found⟩
  | @cons value arg values args first _ ih =>
    cases regs with
    | nil => exact ⟨state.regs, rfl, fun _ _ => rfl, fun _ _ _ found => nomatch found⟩
    | cons reg regs =>
      obtain ⟨fresh, distinct⟩ := List.nodup_cons.mp distinct
      have done : (Instr.mov arg (.reg reg)).act returnTo state = some (state.setReg reg (value.setWidth 64)) := by
        rw [Instr.act, first state sameLocals sameFrame, Option.map_some]
      have still : (state.setReg reg (value.setWidth 64)).locals = start.locals := sameLocals
      obtain ⟨loaded, run, kept, right⟩ := ih distinct still sameFrame
      refine ⟨loaded, ?_, ?_, ?_⟩
      · rw [List.zipWith_cons_cons, acts_cons done]
        exact run
      · intro other outside
        rw [List.mem_cons, not_or] at outside
        rw [kept other outside.2]
        exact Function.update_of_ne outside.1 ..
      · intro index found value' atReg atValue
        cases index with
        | zero =>
          cases Option.some.inj atReg
          cases Option.some.inj atValue
          rw [kept reg fresh, Hardware.setReg_same]
          exact setWidth_setWidth value
        | succ index => exact right index found value' atReg atValue

theorem acts_pushArg {start state : Hardware} {value : Word} {arg : Operand} (gives : arg.Gives start value)
    (sameLocals : state.locals = start.locals) (sameFrame : state.framePointer = start.framePointer) :
    ∃ regs wide, acts returnTo (pushArg arg) state = some (Hardware.push wide { state with regs := regs }) ∧
      wide.setWidth 32 = value ∧ ∀ reg ≠ .ax, regs reg = state.regs reg := by
  have fetched := gives state sameLocals sameFrame
  have loaded : acts returnTo [.mov arg (.reg .ax), .push (.reg .ax)] state =
      some (Hardware.push (value.setWidth 64) (state.setReg .ax (value.setWidth 64))) := by
    have loads : (Instr.mov arg (.reg .ax)).act returnTo state = some (state.setReg .ax (value.setWidth 64)) := by
      rw [Instr.act, fetched, Option.map_some]
    rw [acts_cons loads]
    simp [acts, Instr.act]
  cases arg with
  | imm number =>
    exact ⟨state.regs, _, rfl, (setWidth_ofInt number).trans (Option.some.inj fetched), fun _ _ => rfl⟩
  | reg r => exact ⟨state.regs, _, rfl, Option.some.inj fetched, fun _ _ => rfl⟩
  | pseudo | stack => exact ⟨_, _, loaded, setWidth_setWidth value, fun reg other => Function.update_of_ne other ..⟩
  | data | absent => cases fetched

/-- Pushing from the last argument to the first leaves the first one on top, and each in eight bytes. -/
theorem acts_pushes {start state : Hardware} {values : List Word} {args : List Operand}
    (give : List.Forall₂ (Operand.Gives start) values args) (sameLocals : state.locals = start.locals)
    (sameFrame : state.framePointer = start.framePointer) :
    ∃ regs memory, acts returnTo (args.reverse.flatMap pushArg) state = some { state with
        regs := regs
        memory := memory
        stackPointer := state.stackPointer - 8 * args.length } ∧
      (∀ reg ≠ .ax, regs reg = state.regs reg) ∧
      ∀ (index : Nat) value, values[index]? = some value →
        memory.word (state.stackPointer - 8 * args.length + 8 * index) = value := by
  induction give with
  | nil =>
    refine ⟨state.regs, state.memory, ?_, fun _ _ => rfl, fun _ _ found => nomatch found⟩
    rw [List.length_nil, Int.natCast_zero, Int.mul_zero, Int.sub_zero]
    rfl
  | @cons value arg values args first _ ih =>
    obtain ⟨regs, memory, run, kept, right⟩ := ih
    let middle : Hardware := { state with
      regs := regs
      memory := memory
      stackPointer := state.stackPointer - 8 * args.length }
    obtain ⟨last, wide, push, low, keptToo⟩ := @acts_pushArg returnTo start middle _ _ first sameLocals sameFrame
    have down : state.stackPointer - 8 * ((arg :: args).length : Int) = middle.stackPointer - 8 := by
      rw [List.length_cons]
      simp only [middle]
      omega
    rw [down]
    refine ⟨last, memory.store (middle.stackPointer - 8) wide, ?_, ?_, ?_⟩
    · rw [List.reverse_cons, List.flatMap_append, acts_append, run, Option.bind_some, List.flatMap_singleton]
      exact push
    · exact fun reg other => (keptToo reg other).trans (kept reg other)
    · intro index found atIndex
      cases index with
      | zero =>
        cases Option.some.inj atIndex
        rw [Int.natCast_zero, Int.mul_zero, Int.add_zero, Bytes.word_store_same]
        exact low
      | succ index =>
        rw [Bytes.word_store_above _ _ (by omega)]
        have place : middle.stackPointer - 8 + 8 * ((index + 1 : Nat) : Int) =
            state.stackPointer - 8 * args.length + 8 * index := by
          simp only [middle]
          omega
        rw [place]
        exact right index found atIndex

/-- Before a call the first arguments are in registers and the others on the stack, the seventh one on top. -/
theorem acts_callSetup {start : Hardware} {values : List Word} {args : List Operand}
    (give : List.Forall₂ (Operand.Gives start) values args) :
    ∃ regs memory, acts returnTo (callSetup args) start = some { start with
        regs := regs
        memory := memory
        stackPointer := start.stackPointer - callBytes args } ∧
      (∀ (index : Nat) reg value, Reg.args[index]? = some reg → values[index]? = some value →
        (regs reg).setWidth 32 = value) ∧
      ∀ (index : Nat) value, values[Reg.args.length + index]? = some value →
        memory.word (start.stackPointer - callBytes args + 8 * index) = value := by
  let padded : Hardware := { start with stackPointer := start.stackPointer - callPadding args }
  have pad : acts returnTo (if callPadding args = 0 then [] else [.allocate (callPadding args)]) start = some padded := by
    split
    · rename_i none
      simp only [padded, none, Int.natCast_zero, Int.sub_zero]
      rfl
    · rfl
  obtain ⟨loaded, moves, -, inRegs⟩ :=
    @acts_moves returnTo start padded _ _ Reg.args give (by decide) rfl rfl
  obtain ⟨regs, memory, pushes, kept, onStack⟩ :=
    @acts_pushes returnTo start { padded with regs := loaded } _ _ (List.forall₂_drop Reg.args.length give) rfl rfl
  have depth : padded.stackPointer - 8 * ((args.drop Reg.args.length).length : Int) =
      start.stackPointer - callBytes args := by
    simp only [padded, callBytes]
    omega
  rw [depth] at pushes onStack
  refine ⟨regs, memory, ?_, fun index reg value atReg atValue => ?_, fun index value found => ?_⟩
  · rw [callSetup, acts_append, pad, Option.bind_some, acts_append, moves, Option.bind_some, pushes]
  · have notAx : ∀ reg ∈ Reg.args, reg ≠ .ax := by decide
    rw [kept reg (notAx reg (List.mem_of_getElem? atReg))]
    exact inRegs index reg value atReg atValue
  · exact onStack index value (by rwa [List.getElem?_drop])

/-- Moves from places that do not depend on variables give each of distinct variables its value. -/
theorem acts_paramMoves {state : Hardware} {values : List Word} {sources : List Operand} {params : List String}
    (fetch : List.Forall₂ (fun value source => ∀ locals, Operand.fetch { state with locals := locals } source = some value)
      values sources) (count : params.length = values.length) (distinct : params.Nodup) :
    ∃ locals, acts returnTo (List.zipWith Instr.mov sources (params.map .pseudo)) state =
        some { state with locals := locals } ∧
      (∀ name ∉ params, locals state.framePointer name = state.locals state.framePointer name) ∧
      ∀ (index : Nat) param value, params[index]? = some param → values[index]? = some value →
        locals state.framePointer param = value := by
  induction values generalizing params sources state with
  | nil =>
    cases fetch
    cases List.eq_nil_of_length_eq_zero count
    exact ⟨state.locals, rfl, fun _ _ => rfl, fun _ _ _ found => nomatch found⟩
  | cons value values ih =>
    obtain ⟨source, sources, first, rest, rfl⟩ := List.forall₂_cons_left_iff.mp fetch
    cases params with
    | nil => cases count
    | cons param params =>
      obtain ⟨fresh, distinct⟩ := List.nodup_cons.mp distinct
      have done : (Instr.mov source (.pseudo param)).act returnTo state = some (state.setLocal param value) := by
        rw [Instr.act, first state.locals, Option.map_some]
      obtain ⟨locals, run, kept, right⟩ := @ih (state.setLocal param value) sources params rest (Nat.succ.inj count) distinct
      have here : (state.setLocal param value).locals state.framePointer =
          Function.update (state.locals state.framePointer) param value := Function.update_self ..
      refine ⟨locals, ?_, fun name outside => ?_, fun index found value' atParam atValue => ?_⟩
      · rw [List.map_cons, List.zipWith_cons_cons, acts_cons done]
        exact run
      · rw [List.mem_cons, not_or] at outside
        refine (kept name outside.2).trans ?_
        exact (congrFun here name).trans (Function.update_of_ne outside.1 ..)
      · cases index with
        | zero =>
          cases Option.some.inj atParam
          cases Option.some.inj atValue
          exact (kept param fresh).trans ((congrFun here param).trans (Function.update_self ..))
        | succ index => exact right index found value' atParam atValue

/-- Parameters come from registers as long as there are any, and then from the stack, eight bytes apart. -/
theorem forall₂_incoming {fetches : Word → Operand → Prop} {values : List Word} {regs homes : List Operand} {first : Nat}
    (count : homes.length = values.length)
    (inRegs : ∀ (index : Nat) reg value, regs[index]? = some reg → values[index]? = some value → fetches value reg)
    (onStack : ∀ (index : Nat) value, values[regs.length + index]? = some value →
      fetches value (.stack (16 + 8 * (first + index : Nat)))) :
    List.Forall₂ fetches values (incoming regs homes first) := by
  induction values generalizing regs homes first with
  | nil =>
    cases List.eq_nil_of_length_eq_zero count
    cases regs <;> exact .nil
  | cons value values ih =>
    cases homes with
    | nil => cases count
    | cons home homes =>
      cases regs with
      | nil =>
        refine .cons (onStack 0 value rfl) (ih (Nat.succ.inj count) (fun _ _ _ found => nomatch found) ?_)
        intro index other found
        have later := onStack (index + 1) other (by simpa using found)
        rwa [← Nat.add_assoc, Nat.add_right_comm] at later
      | cons reg regs =>
        refine .cons (inRegs 0 reg value rfl rfl) (ih (Nat.succ.inj count) ?_ ?_)
        · exact fun index reg other atReg atValue => inRegs (index + 1) reg other atReg atValue
        · intro index other found
          refine onStack index other ?_
          rw [List.length_cons, Nat.add_right_comm]
          exact found

/-- What the operands of a call stand for are the values of its arguments. -/
theorem exists_gives {start : Hardware} {caller : String} {args : List Tac.Value} {ops : List Operand}
    (each : List.Forall₂ (fun arg op => operand caller arg = .ok op) args ops) :
    ∃ values, List.Forall₂ (Operand.Gives start) values ops ∧
      List.Forall₂ (fun (arg : Tac.Value) value => arg.read (start.locals start.framePointer) = some value) args values := by
  induction each with
  | nil => exact ⟨[], .nil, .nil⟩
  | @cons arg op _ _ made _ ih =>
    obtain ⟨values, give, read⟩ := ih
    cases arg with
    | const number =>
      cases made
      exact ⟨BitVec.ofInt 32 number :: values, .cons (fun _ _ _ => rfl) give, .cons rfl read⟩
    | var name =>
      cases made
      refine ⟨start.locals start.framePointer name :: values, .cons (fun state sameLocals sameFrame => ?_) give,
        .cons rfl read⟩
      rw [Operand.fetch, sameLocals, sameFrame]
    | absent => cases made

/-- From the first instruction of a call to the last move of a parameter, values go where they belong. The frame of the
callee begins below the arguments, the return address and the frame pointer of the caller. -/
theorem run_entry (naming : Naming) {start : Hardware} {callee : String} {values : List Word} {ops : List Operand}
    {params : List String} (give : List.Forall₂ (Operand.Gives start) values ops) (count : params.length = values.length)
    (distinct : params.Nodup) :
    ∃ entered, start.run returnTo ((callSetup ops ++ [Instr.call callee]).flatMap (Instr.lines naming) ++ (prologue ++
        (paramMoves params).flatMap (Instr.lines naming))) = some entered ∧
      entered.framePointer = start.stackPointer - callBytes ops - 16 ∧
      ∀ (index : Nat) param value, params[index]? = some param → values[index]? = some value →
        entered.locals entered.framePointer param = value := by
  obtain ⟨regs, memory, setup, inRegs, onStack⟩ := @acts_callSetup returnTo _ _ _ give
  let called : Hardware := Hardware.push returnTo { start with
    regs := regs
    memory := memory
    stackPointer := start.stackPointer - callBytes ops }
  have call : acts returnTo (callSetup ops ++ [.call callee]) start = some called := by
    rw [acts_append, setup]
    rfl
  let framed : Hardware := { Hardware.push (BitVec.ofInt 64 called.framePointer) called with
    framePointer := called.stackPointer - 8 }
  have enter : called.run returnTo prologue = some framed := rfl
  -- What was pushed for the call lies above the return address and the frame pointer that are pushed upon it.
  have above : ∀ index : Nat, framed.memory.word (framed.framePointer + (16 + 8 * (index : Nat))) =
      memory.word (start.stackPointer - callBytes ops + 8 * index) := by
    intro index
    simp only [framed, called, Hardware.push]
    rw [Bytes.word_store_above _ _ (by omega), Bytes.word_store_above _ _ (by omega)]
    congr 1
    omega
  have fetch : List.Forall₂
      (fun value source => ∀ locals, Operand.fetch { framed with locals := locals } source = some value)
      values (incoming (Reg.args.map .reg) (params.map .pseudo) 0) := by
    refine forall₂_incoming (by rwa [List.length_map]) ?_ ?_
    · intro index op value atReg atValue locals
      rw [List.getElem?_map, Option.map_eq_some_iff] at atReg
      obtain ⟨reg, found, rfl⟩ := atReg
      exact congrArg some (inRegs index reg value found atValue)
    · intro index value found locals
      rw [List.length_map] at found
      rw [Nat.zero_add]
      exact congrArg some ((above index).trans (onStack index value found))
  obtain ⟨locals, moves, -, right⟩ := @acts_paramMoves returnTo _ _ _ _ fetch count distinct
  refine ⟨{ framed with locals := locals }, ?_, ?_, right⟩
  · rw [run_append, run_lines naming call, Option.bind_some, run_append, enter, Option.bind_some]
    exact run_lines naming moves
  · simp only [framed, called, Hardware.push]
    omega

/-- The return of a callee and what follows it in the caller move the stack pointer up by all that the call has
taken. -/
theorem run_return (naming : Naming) (ops : List Operand) (dest : String) (last : Hardware) :
    ∃ back, last.run returnTo (epilogue ++ (callCleanup ops (.pseudo dest)).flatMap (Instr.lines naming)) = some back ∧
      back.stackPointer = last.framePointer + 16 + callBytes ops := by
  let returned : Hardware := { last with
    framePointer := (last.memory.quad last.framePointer).toInt
    stackPointer := last.framePointer + 8 + 8 }
  have leave : last.run returnTo epilogue = some returned := rfl
  let freed : Hardware := { returned with stackPointer := returned.stackPointer + callBytes ops }
  have free : acts returnTo (if callBytes ops = 0 then [] else [.deallocate (callBytes ops)]) returned = some freed := by
    split
    · rename_i none
      simp only [freed, none, Int.natCast_zero, Int.add_zero]
      rfl
    · rfl
  have cleanup : acts returnTo (callCleanup ops (.pseudo dest)) returned =
      some (freed.setLocal dest ((freed.regs .ax).setWidth 32)) := by
    rw [callCleanup, acts_append, free]
    rfl
  refine ⟨_, by rw [run_append, leave, Option.bind_some, run_lines naming cleanup], ?_⟩
  simp only [Hardware.setLocal, freed, returned]
  omega

end Acts

/-- The caller and the callee of a call agree. The instructions that are selected for the call hand over the
arguments; behind the label of the callee its text goes on with the saving of the frame pointer and the moves of the
parameters. When control has gone through all that, each parameter has the value that its argument had when the
caller began, whatever the state then was. Where the callee returns, with its frame pointer as it has set it, the
caller finds the stack pointer where it was. -/
theorem call_passes_arguments (naming : Naming) (defined : List String) (caller dest : String) (args : List Tac.Value)
    (callee : Tac.Func) (known : ∀ arg ∈ args, arg.isPresent = true) (count : args.length = callee.params.length)
    (distinct : callee.params.Nodup) :
    ∃ setup cleanup,
      selectInstr caller (.call callee.name args (.var dest)) = .ok (setup ++ .call callee.name :: cleanup) ∧
      (∀ instr ∈ setup, instr.isCall = false) ∧
      (∀ machine, selectFunc callee = .ok machine → ∃ body, machine.text naming defined =
        written naming defined (machine.heading naming ++ (prologue ++
          ((paramMoves callee.params).flatMap (Instr.lines naming) ++ body)))) ∧
      ∀ (start : Hardware) (returnTo : BitVec 64), ∃ entered,
        start.run returnTo ((setup ++ [.call callee.name]).flatMap (Instr.lines naming) ++ (prologue ++
          (paramMoves callee.params).flatMap (Instr.lines naming))) = some entered ∧
        (∀ (index : Nat) param arg, callee.params[index]? = some param → args[index]? = some arg →
          arg.read (start.locals start.framePointer) = some (entered.locals entered.framePointer param)) ∧
        ∀ last : Hardware, last.framePointer = entered.framePointer → ∃ back,
          last.run returnTo (epilogue ++ cleanup.flatMap (Instr.lines naming)) = some back ∧
          back.stackPointer = start.stackPointer := by
  obtain ⟨ops, each⟩ := exists_operands caller (List.all_eq_true.mpr known)
  refine ⟨callSetup ops, callCleanup ops (.pseudo dest), ?_, ?_, ?_, ?_⟩
  · rw [← call_eq]
    exact bind_eq_ok.mpr ⟨ops, each, rfl⟩
  · exact fun instr member => ((lowers_callSetup ops).2 instr member).1
  · intro machine selected
    obtain ⟨code, same, -⟩ := selectFunc_eq_ok selected
    refine ⟨code.flatMap (Instr.lines naming), ?_⟩
    rw [← Func.written_lines, Func.lines, same, List.flatMap_append]
  intro start returnTo
  obtain ⟨values, give, read⟩ := @exists_gives start _ _ _ (mapM_ok_iff.mp each)
  have length : callee.params.length = values.length := count.symm.trans read.length_eq
  obtain ⟨entered, run, frame, right⟩ := @run_entry returnTo naming start callee.name _ _ _ give length distinct
  refine ⟨entered, run, fun index param arg atParam atArg => ?_, fun last still => ?_⟩
  · obtain ⟨inside, rfl⟩ := List.getElem?_eq_some_iff.mp atArg
    have bound : index < values.length := read.length_eq ▸ inside
    rw [right index param _ atParam (List.getElem?_eq_getElem bound)]
    exact read.get inside bound
  · obtain ⟨back, leave, pointer⟩ := @run_return returnTo naming ops dest last
    refine ⟨back, leave, ?_⟩
    rw [pointer, still, frame]
    omega

/-- A function with two parameters more than there are registers for them. -/
def eighthFunc : Tac.Func where
  name := "eighth"
  global := true
  params := ["a", "b", "c", "d", "e", "f", "g", "h"]
  body := [.ret (.var "h")]

theorem call_passes_arguments_eighth : ∃ setup cleanup,
    selectInstr "main" (.call "eighth" [.const 1, .const 2, .const 3, .const 4, .const 5, .const 6, .const (-7), .var "x"]
      (.var "y")) = .ok (setup ++ .call "eighth" :: cleanup) ∧
    ∀ (start : Hardware) (returnTo : BitVec 64), ∃ entered,
      start.run returnTo ((setup ++ [Instr.call "eighth"]).flatMap (Instr.lines {}) ++ (prologue ++
        (paramMoves eighthFunc.params).flatMap (Instr.lines {}))) = some entered ∧
      entered.locals entered.framePointer "a" = 1 ∧ entered.locals entered.framePointer "g" = -7 ∧
      entered.locals entered.framePointer "h" = start.locals start.framePointer "x" := by
  obtain ⟨setup, cleanup, call, -, -, runs⟩ := call_passes_arguments {} [] "main" "y"
    [.const 1, .const 2, .const 3, .const 4, .const 5, .const 6, .const (-7), .var "x"] eighthFunc
    (by decide) rfl (by decide)
  refine ⟨setup, cleanup, call, fun start returnTo => ?_⟩
  obtain ⟨entered, run, params, -⟩ := runs start returnTo
  have first := params 0 "a" _ rfl rfl
  have seventh := params 6 "g" _ rfl rfl
  have eighth := params 7 "h" _ rfl rfl
  exact ⟨entered, run, (Option.some.inj first).symm, (Option.some.inj seventh).symm, (Option.some.inj eighth).symm⟩

end IntC.Machine
