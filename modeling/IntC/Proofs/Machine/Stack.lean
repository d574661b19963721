import IntC.Proofs.Machine.Layout
import Mathlib.Algebra.BigOperators.Group.List.Basic

namespace IntC.Machine

/-- How far an instruction moves the stack pointer down. A call comes back with the pointer where it was. -/
def Instr.lowers : Instr → Int
  | .allocate bytes => bytes
  | .deallocate bytes => -bytes
  | .push _ => 8
  | _ => 0

def Instr.isCall : Instr → Bool
  | .call _ => true
  | _ => false

/-- Where control comes together or parts. -/
def Instr.isControl : Instr → Bool
  | .label _ | .jmp _ | .jmpCC .. | .ret => true
  | _ => false

/-- Whether control can go on to the next instruction. -/
def Instr.goesOn : Instr → Bool
  | .jmp _ | .ret => false
  | _ => true

def Instr.target? : Instr → Option String
  | .jmp target | .jmpCC _ target => some target
  | _ => none

/-- A point of a path through a function: the instructions from the next one on, and by how many bytes the stack
pointer lies below the frame pointer. -/
structure Point where
  rest : List Instr
  depth : Int

/-- One step along a path, wherever the data may lead it: a jump may be taken or passed. -/
inductive Point.Next (code : List Instr) : Point → Point → Prop
  | on {instr rest depth} : instr.goesOn = true → Next code ⟨instr :: rest, depth⟩ ⟨rest, depth + instr.lowers⟩
  | jump {instr rest depth target next} : instr.target? = some target → .label target :: next <:+ code →
      Next code ⟨instr :: rest, depth⟩ ⟨.label target :: next, depth⟩

/-- Going through the code from a depth, line by line, never leaves less than the frame below the frame pointer;
calls are aligned, and control changes hands with just the frame there. -/
def Levelled (frame : Int) : Int → List Instr → Prop
  | depth, [] => frame ≤ depth
  | depth, instr :: rest => frame ≤ depth ∧ (instr.isCall = true → 16 ∣ depth) ∧
    (instr.isControl = true → depth = frame) ∧ Levelled frame (depth + instr.lowers) rest

section Levelled
variable {frame depth : Int} {code rest : List Instr}

theorem Levelled.le (levelled : Levelled frame depth code) : frame ≤ depth := by
  cases code with
  | nil => exact levelled
  | cons instr rest => exact levelled.1

theorem Levelled.drop {block : List Instr} (levelled : Levelled frame depth (block ++ rest)) :
    ∃ later, Levelled frame later rest := by
  induction block generalizing depth with
  | nil => exact ⟨depth, levelled⟩
  | cons instr block ih => exact ih levelled.2.2.2

theorem Levelled.label {name : String} (levelled : Levelled frame depth code) (inside : .label name :: rest <:+ code) :
    Levelled frame frame (.label name :: rest) := by
  obtain ⟨block, rfl⟩ := inside
  obtain ⟨later, here⟩ := levelled.drop
  have same : later = frame := here.2.2.1 rfl
  exact same ▸ here

theorem Levelled.next {p q : Point}
    (labels : ∀ name rest, .label name :: rest <:+ code → Levelled frame frame (.label name :: rest))
    (levelled : Levelled frame p.depth p.rest) (step : p.Next code q) : Levelled frame q.depth q.rest := by
  cases step with
  | on => exact levelled.2.2.2
  | @jump instr _ _ _ _ jumps inside =>
    have control : instr.isControl = true := by
      cases instr <;> first
        | rfl
        | cases jumps
    rw [levelled.2.2.1 control]
    exact labels _ _ inside

theorem Levelled.down {block : List Instr} (le : frame ≤ depth)
    (quiet : ∀ instr ∈ block, instr.isCall = false ∧ instr.isControl = false ∧ 0 ≤ instr.lowers)
    (levelled : Levelled frame (depth + (block.map Instr.lowers).sum) rest) : Levelled frame depth (block ++ rest) := by
  induction block generalizing depth with
  | nil => simpa using levelled
  | cons instr block ih =>
    obtain ⟨⟨noCall, noControl, down⟩, others⟩ := List.forall_mem_cons.mp quiet
    refine ⟨le, by simp [noCall], by simp [noControl], ih (by omega) others ?_⟩
    rw [List.map_cons, List.sum_cons] at levelled
    rwa [Int.add_assoc]

/-- A block without calls that leaves the stack pointer alone can stand at the depth of the frame. -/
theorem Levelled.still {block : List Instr} (quiet : ∀ instr ∈ block, instr.isCall = false ∧ instr.lowers = 0)
    (levelled : Levelled frame frame rest) : Levelled frame frame (block ++ rest) := by
  induction block with
  | nil => exact levelled
  | cons instr block ih =>
    obtain ⟨⟨noCall, still⟩, others⟩ := List.forall_mem_cons.mp quiet
    refine ⟨le_rfl, by simp [noCall], fun _ => rfl, ?_⟩
    rw [still, Int.add_zero]
    exact ih others

end Levelled

section Call
variable {frame : Int} {rest : List Instr}

theorem lowers_pushArgs (args : List Operand) :
    ((args.flatMap pushArg).map Instr.lowers).sum = 8 * args.length ∧
      ∀ instr ∈ args.flatMap pushArg, instr.isCall = false ∧ instr.isControl = false ∧ 0 ≤ instr.lowers := by
  induction args with
  | nil => simp
  | cons arg args ih =>
    obtain ⟨sum, quiet⟩ := ih
    rw [List.flatMap_cons, List.map_append, List.sum_append, sum, List.length_cons, List.forall_mem_append]
    refine ⟨?_, ?_, quiet⟩
    · cases arg <;> simp [pushArg, Instr.lowers] <;> omega
    · cases arg <;> simp [pushArg, Instr.lowers, Instr.isCall, Instr.isControl]

theorem lowers_movs (args : List Operand) (regs : List Reg) :
    ((List.zipWith (fun arg reg => Instr.mov arg (.reg reg)) args regs).map Instr.lowers).sum = 0 ∧
      ∀ instr ∈ List.zipWith (fun arg reg => Instr.mov arg (.reg reg)) args regs,
        instr.isCall = false ∧ instr.isControl = false ∧ 0 ≤ instr.lowers := by
  induction args generalizing regs with
  | nil => simp
  | cons arg args ih =>
    cases regs with
    | nil => simp
    | cons reg regs =>
      obtain ⟨sum, quiet⟩ := ih regs
      rw [List.zipWith_cons_cons, List.map_cons, List.sum_cons, sum]
      exact ⟨rfl, List.forall_mem_cons.mpr ⟨⟨rfl, rfl, le_rfl⟩, quiet⟩⟩

/-- The bytes that are left free above the pushed arguments. -/
def callPadding (args : List Operand) : Nat := if (args.drop Reg.args.length).length % 2 = 1 then 8 else 0

/-- The bytes that a call takes on the stack, for pushed arguments and padding. -/
def callBytes (args : List Operand) : Nat := 8 * (args.drop Reg.args.length).length + callPadding args

/-- The instructions that hand over the arguments of a call. -/
def callSetup (args : List Operand) : List Instr :=
  (if callPadding args = 0 then [] else [.allocate (callPadding args)]) ++
    (List.zipWith (fun arg reg => Instr.mov arg (.reg reg)) args Reg.args ++
      (args.drop Reg.args.length).reverse.flatMap pushArg)

/-- The instructions behind a call that take the arguments off the stack and pick up the result. -/
def callCleanup (args : List Operand) (dest : Operand) : List Instr :=
  (if callBytes args = 0 then [] else [.deallocate (callBytes args)]) ++ [.mov (.reg .ax) dest]

theorem call_eq (callee : String) (args : List Operand) (dest : Operand) :
    call callee args dest = callSetup args ++ .call callee :: callCleanup args dest := by
  simp only [call, callSetup, callCleanup, callPadding, callBytes, List.append_assoc, List.cons_append,
    List.nil_append]
  rfl

theorem dvd_callBytes (args : List Operand) : 16 ∣ callBytes args := by
  unfold callBytes callPadding
  split <;> omega

theorem lowers_callSetup (args : List Operand) :
    ((callSetup args).map Instr.lowers).sum = callBytes args ∧
      ∀ instr ∈ callSetup args, instr.isCall = false ∧ instr.isControl = false ∧ 0 ≤ instr.lowers := by
  obtain ⟨noMove, quietMoves⟩ := lowers_movs args Reg.args
  obtain ⟨push, quietPushes⟩ := lowers_pushArgs (args.drop Reg.args.length).reverse
  unfold callSetup
  constructor
  · rw [List.map_append, List.map_append, List.sum_append, List.sum_append, noMove, push, List.length_reverse, callBytes]
    by_cases none : callPadding args = 0
    · rw [if_pos none, none]
      simp
    · rw [if_neg none]
      simp only [List.map_singleton, List.sum_singleton, Instr.lowers]
      omega
  · refine List.forall_mem_append.mpr ⟨?_, List.forall_mem_append.mpr ⟨quietMoves, quietPushes⟩⟩
    split <;> simp [Instr.isCall, Instr.isControl, Instr.lowers]

/-- A call can stand at the depth of the frame: it is made in alignment, and all that it took is given back. -/
theorem Levelled.call {callee : String} {args : List Operand} {dest : Operand} (aligned : 16 ∣ frame)
    (levelled : Levelled frame frame rest) : Levelled frame frame (Machine.call callee args dest ++ rest) := by
  obtain ⟨sum, quiet⟩ := lowers_callSetup args
  have bytes : (16 : Int) ∣ callBytes args := Int.natCast_dvd_natCast.mpr (dvd_callBytes args)
  have after : Levelled frame frame (.mov (.reg .ax) dest :: rest) :=
    ⟨le_rfl, by simp [Instr.isCall], by simp [Instr.isControl], by simpa [Instr.lowers] using levelled⟩
  have behind : Levelled frame (frame + callBytes args) (callCleanup args dest ++ rest) := by
    unfold callCleanup
    split
    · rename_i none
      simpa [none] using after
    · refine ⟨by omega, by simp [Instr.isCall], by simp [Instr.isControl], ?_⟩
      rw [Instr.lowers, Int.add_neg_cancel_right]
      exact after
  rw [call_eq, List.append_assoc]
  refine Levelled.down le_rfl quiet ?_
  rw [sum]
  exact ⟨by omega, fun _ => by omega, by simp [Instr.isControl], by simpa [Instr.lowers] using behind⟩

end Call

section Code
variable {frame : Int}

/-- Every block stands at the depth of the frame. -/
theorem selectInstr_levelled {func : String} {instr : Tac.Instr} {block rest : List Instr} (aligned : 16 ∣ frame)
    (selected : selectInstr func instr = .ok block) (levelled : Levelled frame frame rest) :
    Levelled frame frame (block ++ rest) := by
  cases instr with
  | call callee args dest =>
    simp only [selectInstr, bind_eq_ok, pure_eq_ok] at selected
    obtain ⟨ops, -, op, -, rfl⟩ := selected
    exact levelled.call aligned
  | unary op value dest =>
    cases op <;> simp only [selectInstr, bind_eq_ok, pure_eq_ok] at selected <;>
      obtain ⟨b, -, a, -, rfl⟩ := selected <;> exact levelled.still (by simp [Instr.isCall, Instr.lowers])
  | binary op left right dest =>
    simp only [selectInstr, bind_eq_ok, pure_eq_ok] at selected
    obtain ⟨a, -, b, -, c, -, rfl⟩ := selected
    cases op <;> exact levelled.still (by simp [Instr.isCall, Instr.lowers])
  | copy value dest =>
    simp only [selectInstr, bind_eq_ok, pure_eq_ok] at selected
    obtain ⟨a, -, b, -, rfl⟩ := selected
    exact levelled.still (by simp [Instr.isCall, Instr.lowers])
  | ret value | jumpIfZero value target | jumpIfNotZero value target =>
    obtain ⟨a, -, ⟨⟩⟩ := bind_eq_ok.mp selected
    exact levelled.still (by simp [Instr.isCall, Instr.lowers])
  | jump | label | mention =>
    cases selected
    exact levelled.still (by simp [Instr.isCall, Instr.lowers])
  | unknown | lacking => cases selected

theorem Selects.levelled {func : String} {code : List Tac.Instr} {instrs : List Instr} (aligned : 16 ∣ frame)
    (selects : Selects func code instrs) : Levelled frame frame instrs := by
  induction code generalizing instrs with
  | nil =>
    obtain ⟨blocks, each, rfl⟩ := selects
    cases each
    exact le_rfl
  | cons instr rest ih =>
    obtain ⟨block, others, first, later, rfl⟩ := selects_cons.mp selects
    exact selectInstr_levelled aligned first (ih later)

theorem selectFunc_levelled {func : Tac.Func} {machine : Func} (aligned : 16 ∣ frame)
    (selected : selectFunc func = .ok machine) : Levelled frame frame machine.instrs := by
  obtain ⟨code, same, selects⟩ := selectFunc_eq_ok selected
  rw [same]
  refine (selects.levelled aligned).still fun part moved => ?_
  obtain ⟨source, -, home, -, rfl⟩ := exists_of_mem_zipWith moved
  exact ⟨rfl, rfl⟩

theorem Levelled.mapOperands {σ : Type} {f : Operand → StateM σ Operand} {code : List Instr} {depth : Int}
    (levelled : Levelled frame depth code) (state : σ) :
    Levelled frame depth (code.mapM (Instr.mapOperandsM f) state).1 := by
  induction code generalizing depth state with
  | nil => exact levelled
  | cons instr rest ih =>
    obtain ⟨le, call, control, later⟩ := levelled
    have kept : (instr.mapOperandsM f state).1.isCall = instr.isCall ∧
        (instr.mapOperandsM f state).1.isControl = instr.isControl ∧
        (instr.mapOperandsM f state).1.lowers = instr.lowers := by
      cases instr <;> exact ⟨rfl, rfl, rfl⟩
    rw [List.mapM_cons]
    refine ⟨le, kept.1 ▸ call, kept.2.1 ▸ control, ?_⟩
    have behind := ih later (instr.mapOperandsM f state).2
    rw [← kept.2.2] at behind
    exact behind

theorem Instr.quiet_of_computes {instr : Instr} (computes : instr.computes = true) :
    instr.isCall = false ∧ instr.isControl = false ∧ instr.lowers = 0 := by
  cases instr <;> first
    | exact ⟨rfl, rfl, rfl⟩
    | cases computes

theorem Levelled.legalized {code : List Instr} {depth : Int} (levelled : Levelled frame depth code) :
    Levelled frame depth (legalized code) := by
  induction code generalizing depth with
  | nil => exact levelled
  | cons instr rest ih =>
    obtain ⟨le, call, control, later⟩ := levelled
    rw [legalized_cons]
    rcases encodable_cases instr with same | ⟨-, parts⟩
    · rw [same]
      exact ⟨le, call, control, ih later⟩
    · have quiet := fun part member => Instr.quiet_of_computes (parts part member)
      have none : (instr.encodable.map Instr.lowers).sum = 0 := by
        refine List.sum_eq_zero fun bytes member => ?_
        obtain ⟨part, inside, rfl⟩ := List.mem_map.mp member
        exact (quiet part inside).2.2
      have still : instr.lowers = 0 := by
        cases instr <;> first
          | rfl
          | exact (quiet _ (List.mem_singleton_self _)).2.2
      rw [still] at later
      refine Levelled.down le (fun part member => ?_) (none ▸ ih later)
      obtain ⟨noCall, noControl, zero⟩ := quiet part member
      exact ⟨noCall, noControl, Int.le_of_eq zero.symm⟩

end Code

/-- Whether a path from the first instruction of a function leads to a point. At first the stack pointer is at
the frame pointer. -/
def Func.Reaches (func : Func) (point : Point) : Prop :=
  Relation.ReflTransGen (Point.Next func.instrs) ⟨func.instrs, 0⟩ point

/-- Behind the first instruction, which reserves the frame, every path keeps to the discipline of the stack. -/
theorem finished_levelled {func : Tac.Func} {machine : Func} (symbols : SymbolTable)
    (selected : selectFunc func = .ok machine) {point : Point} (reached : (machine.finished symbols 16).Reaches point) :
    point = ⟨(machine.finished symbols 16).instrs, 0⟩ ∨
      Levelled (roundUp (machine.finished symbols 16).stackSize 16) point.depth point.rest := by
  have whole : Levelled (roundUp (machine.finished symbols 16).stackSize 16) _
      (legalized (machine.assignStorage symbols).instrs) :=
    ((selectFunc_levelled (dvd_roundUp _) selected).mapOperands []).legalized
  induction reached with
  | refl => exact .inl rfl
  | tail _ step ih =>
    right
    rcases ih with rfl | levelled
    · cases step with
      | on =>
        rw [Instr.lowers, Int.zero_add]
        exact whole
      | jump jumps => cases jumps
    · refine Levelled.next (fun name rest inside => ?_) levelled step
      rcases List.suffix_cons_iff.mp inside with same | behind
      · cases same
      · exact whole.label behind

end IntC.Machine
