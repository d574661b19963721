import IntC.Proofs.Il.Reader
import IntC.Proofs.Pass
import IntC.Proofs.Tac.Run
import IntC.Qbe

namespace IntC.Il

/-- How code, an operand and a result are written. -/
def codeText (code : List Instr) : String := written (code.map Line.code)

def Operand.text (operand : Operand) : String := String.ofList operand.atom.text

def Result.text (result : Result) : String := String.ofList (result.pieces.flatMap Piece.text)

@[simp] theorem codeText_nil : codeText [] = "" := rfl

@[simp] theorem codeText_append (first second : List Instr) :
    codeText (first ++ second) = codeText first ++ codeText second := by
  rw [codeText, List.map_append, written_append]
  rfl

section Text
variable (source left right : Operand) (dest symbol name target yes no : String) (result : Result)

theorem codeText_single (instr : Instr) : (codeText [instr]).toList = instr.pieces.flatMap Piece.text ++ ['\n'] := by
  simp [codeText, written, Line.text, Line.pieces]

@[simp] theorem Operand.text_temp : (Operand.temp name).text = "%" ++ name := by
  apply String.toList_inj.mp
  simp [Operand.text, Operand.atom, Atom.text, String.toList_append]

@[simp] theorem Operand.text_const (value : Int) : (Operand.const value).text = toString value := String.ofList_toList

@[simp] theorem Result.text_copy : (Result.copy source).text = "copy " ++ source.text := by
  apply String.toList_inj.mp
  simp [Result.text, Result.pieces, Piece.text, Atom.text, Operand.text, String.toList_append]

@[simp] theorem Result.text_neg : (Result.neg source).text = "neg " ++ source.text := by
  apply String.toList_inj.mp
  simp [Result.text, Result.pieces, Piece.text, Atom.text, Operand.text, String.toList_append]

@[simp] theorem Result.text_binary (op : Op) :
    (Result.binary op left right).text = op.name ++ " " ++ left.text ++ ", " ++ right.text := by
  apply String.toList_inj.mp
  simp [Result.text, Result.pieces, Piece.text, Atom.text, Operand.text, String.toList_append]

@[simp] theorem Result.text_load : (Result.load symbol).text = "loadw $" ++ symbol := by
  apply String.toList_inj.mp
  simp [Result.text, Result.pieces, Piece.text, Atom.text, String.toList_append]

theorem text_itemPieces (atoms : List Atom) : (itemPieces atoms).flatMap Piece.text =
    (", ".intercalate (atoms.map fun atom => "w " ++ String.ofList atom.text)).toList := by
  induction atoms with
  | nil => rfl
  | cons first rest ih =>
    cases rest with
    | nil => simp [itemPieces, Piece.text, Atom.text, String.toList_append]
    | cons second rest =>
      rw [List.map_cons] at ih
      simp [itemPieces, Piece.text, Atom.text, String.toList_append, ih]

@[simp] theorem Result.text_call (args : List Operand) : (Result.call symbol args).text =
    "call $" ++ symbol ++ "(" ++ ", ".intercalate (args.map fun arg => "w " ++ arg.text) ++ ")" := by
  apply String.toList_inj.mp
  simp [Result.text, Result.pieces, Piece.text, Atom.text, text_itemPieces, String.toList_append, Operand.text,
    Function.comp_def]

theorem codeText_block : codeText [.block name] = "@" ++ name ++ "\n" := by
  apply String.toList_inj.mp
  simp [codeText_single, Instr.pieces, Piece.text, Atom.text, String.toList_append]

theorem codeText_assign : codeText [.assign dest result] = "\t%" ++ dest ++ " =w " ++ result.text ++ "\n" := by
  apply String.toList_inj.mp
  simp [codeText_single, Instr.pieces, Piece.text, Atom.text, Result.text, String.toList_append]

theorem codeText_store : codeText [.store source symbol] = "\tstorew " ++ source.text ++ ", $" ++ symbol ++ "\n" := by
  apply String.toList_inj.mp
  simp [codeText_single, Instr.pieces, Piece.text, Atom.text, Operand.text, String.toList_append]

theorem codeText_jump : codeText [.jump target] = "\tjmp @" ++ target ++ "\n" := by
  apply String.toList_inj.mp
  simp [codeText_single, Instr.pieces, Piece.text, Atom.text, String.toList_append]

theorem codeText_branch :
    codeText [.branch source yes no] = "\tjnz " ++ source.text ++ ", @" ++ yes ++ ", @" ++ no ++ "\n" := by
  apply String.toList_inj.mp
  simp [codeText_single, Instr.pieces, Piece.text, Atom.text, Operand.text, String.toList_append]

theorem codeText_ret : codeText [.ret source] = "\tret " ++ source.text ++ "\n" := by
  apply String.toList_inj.mp
  simp [codeText_single, Instr.pieces, Piece.text, Atom.text, Operand.text, String.toList_append]

end Text

end IntC.Il

namespace IntC.Qbe

open Tac (Value)

def tempName (number : Nat) : String := ".q" ++ toString number

def blockName (number : Nat) : String := ".b" ++ toString number

section Code
variable (table : SymbolTable)

/-- The instructions that a value needs before it can be used, and the operand that then stands for it. Numbers before
the first count and up to the second one are given out. -/
inductive Loads (count : Nat) : Value → List Il.Instr → Il.Operand → Nat → Prop
  | const (value : Int) : Loads count (.const value) [] (.const value) count
  | plain {name : String} : table.isStatic name = false → Loads count (.var name) [] (.temp name) count
  | static {name : String} : table.isStatic name = true →
      Loads count (.var name) [.assign (tempName (count + 1)) (.load name)] (.temp (tempName (count + 1))) (count + 1)

inductive LoadsAll : Nat → List Value → List Il.Instr → List Il.Operand → Nat → Prop
  | nil {count} : LoadsAll count [] [] [] count
  | cons {count middle last value values code more operand operands} : Loads table count value code operand middle →
      LoadsAll middle values more operands last →
      LoadsAll count (value :: values) (code ++ more) (operand :: operands) last

/-- The instructions that put a result into a variable. -/
inductive Stores (count : Nat) (dest : String) (result : Il.Result) : List Il.Instr → Nat → Prop
  | plain : table.isStatic dest = false → Stores count dest result [.assign dest result] count
  | static : table.isStatic dest = true → Stores count dest result
      [.assign (tempName (count + 1)) result, .store (.temp (tempName (count + 1))) dest] (count + 1)

def operationOp : Tac.BinaryOp → Il.Op
  | .add => .add
  | .sub => .sub
  | .mul => .mul
  | .div => .div
  | .rem => .rem
  | .eq => .ceqw
  | .ne => .cnew
  | .lt => .csltw
  | .le => .cslew
  | .gt => .csgtw
  | .ge => .csgew

def unaryOperation (source : Il.Operand) : Tac.UnaryOp → Il.Result
  | .negate => .neg source
  | .complement => .binary .xor source (.const (-1))
  | .not => .binary .ceqw source (.const 0)

/-- The instructions that an instruction needs before its result, and the result for the variable. -/
inductive Results (count : Nat) : Tac.Instr → List Il.Instr → Il.Result → String → Nat → Prop
  | copy {source code operand last} (dest : String) : Loads table count source code operand last →
      Results count (.copy source (.var dest)) code (.copy operand) dest last
  | unary {source code operand last} (op : Tac.UnaryOp) (dest : String) : Loads table count source code operand last →
      Results count (.unary op source (.var dest)) code (unaryOperation operand op) dest last
  | binary {left right code more first second middle last} (op : Tac.BinaryOp) (dest : String) :
      Loads table count left code first middle → Loads table middle right more second last →
      Results count (.binary op left right (.var dest)) (code ++ more) (.binary (operationOp op) first second) dest last
  | call {args code operands last} (callee dest : String) : LoadsAll table count args code operands last →
      Results count (.call callee args (.var dest)) code (.call callee operands) dest last

/-- What an instruction becomes inside of a block. -/
inductive Continues (count : Nat) : Tac.Instr → List Il.Instr → Writing → Prop
  | ret {value code operand last} : Loads table count value code operand last →
      Continues count (.ret value) (code ++ [.ret operand]) ⟨last, true⟩
  | jump (target : String) : Continues count (.jump target) [.jump target] ⟨count, true⟩
  | jumpIfZero {cond code operand last} (target : String) : Loads table count cond code operand last →
      Continues count (.jumpIfZero cond target)
        (code ++ [.branch operand (blockName (last + 1)) target, .block (blockName (last + 1))]) ⟨last + 1, false⟩
  | jumpIfNotZero {cond code operand last} (target : String) : Loads table count cond code operand last →
      Continues count (.jumpIfNotZero cond target)
        (code ++ [.branch operand target (blockName (last + 1)), .block (blockName (last + 1))]) ⟨last + 1, false⟩
  | assign {instr code result dest middle more last} : Results table count instr code result dest middle →
      Stores table middle dest result more last → Continues count instr (code ++ more) ⟨last, false⟩

/-- What opens a block where the one before is closed. -/
inductive Opens : Writing → List Il.Instr → Nat → Prop
  | fresh (count : Nat) : Opens ⟨count, true⟩ [.block (blockName (count + 1))] (count + 1)
  | same (count : Nat) : Opens ⟨count, false⟩ [] count

/-- What an instruction becomes. -/
inductive Becomes : Writing → Tac.Instr → List Il.Instr → Writing → Prop
  | label (state : Writing) (name : String) : Becomes state (.label name) [.block name] ⟨state.count, false⟩
  | mention (state : Writing) (name : String) : Becomes state (.mention name) [] state
  | inside {state after instr code more count} : Opens state code count →
      Continues table count instr more after → Becomes state instr (code ++ more) after

inductive BecomesAll : Writing → List Tac.Instr → List Il.Instr → Writing → Prop
  | nil {state} : BecomesAll state [] [] state
  | cons {state middle after instr rest code more} : Becomes table state instr code middle →
      BecomesAll middle rest more after → BecomesAll state (instr :: rest) (code ++ more) after

/-- A variable is written with so many zero bytes or with its value. -/
def data (wordSize : Int) (var : Tac.StaticVar) : Il.Data where
  global := var.global
  name := var.name
  align := wordSize
  zero := var.init = 0
  value := if var.init = 0 then wordSize else var.init

def zeros (names : List String) : List Il.Instr := names.map fun name => .assign name (.copy (.const 0))

/-- The first block of a function sets variables to zero. -/
def zeroed (names : List String) : List Il.Instr := .block "start" :: zeros names

/-- What a function becomes, whatever numbers were given out before. -/
def FuncBecomes (func : Tac.Func) (il : Il.Func) : Prop :=
  ∃ count code after, BecomesAll table ⟨count, false⟩ func.body code after ∧
    il = ⟨func.global, func.name, func.params, zeroed (written table func) ++ code⟩

end Code

theorem name_operationOp (op : Tac.BinaryOp) : (operationOp op).name = operation op := by
  cases op <;> rfl

theorem text_unaryOperation (source : Il.Operand) (op : Tac.UnaryOp) :
    (unaryOperation source op).text = unaryResult source.text op := by
  have minusOne : (Int.repr (-1)).toList = ['-', '1'] := by decide
  have zero : (Int.repr 0).toList = ['0'] := by decide
  apply String.toList_inj.mp
  cases op <;> simp [unaryOperation, unaryResult, Il.Op.name, String.toList_append, minusOne, zero]

theorem codeText_branch_block (cond : Il.Operand) (yes no next : String) :
    Il.codeText [.branch cond yes no, .block next] =
      "\tjnz " ++ cond.text ++ ", @" ++ yes ++ ", @" ++ no ++ "\n" ++ ("@" ++ next ++ "\n") := by
  rw [← List.singleton_append, Il.codeText_append, Il.codeText_branch, Il.codeText_block]

theorem codeText_zeroed (names : List String) : Il.codeText (zeroed names) =
    "@start\n" ++ String.join (names.map fun name => "\t%" ++ name ++ " =w copy 0\n") := by
  have all : Il.codeText (zeros names) = String.join (names.map fun name => "\t%" ++ name ++ " =w copy 0\n") := by
    induction names with
    | nil => rfl
    | cons name rest ih =>
      have zero : (Int.repr 0).toList = ['0'] := by decide
      have here : Il.codeText [.assign name (.copy (.const 0))] = "\t%" ++ name ++ " =w copy 0\n" := by
        apply String.toList_inj.mp
        simp [Il.codeText_assign, String.toList_append, zero]
      rw [zeros, List.map_cons, ← List.singleton_append, Il.codeText_append, here, List.map_cons, String.join_cons, ← ih]
      rfl
  rw [zeroed, ← List.singleton_append, Il.codeText_append, all]
  rfl

theorem text_exportPieces (global : Bool) :
    (Il.exportPieces global).flatMap Il.Piece.text = (exported global).toList := by
  cases global <;> rfl

theorem written_lines (func : Il.Func) : Il.written func.lines =
    "\n" ++ exported func.global ++ "function w $" ++ func.name ++ "(" ++
      ", ".intercalate (func.params.map ("w %" ++ ·)) ++ ") \x7b\n" ++ Il.codeText func.body ++ "\x7d\n" := by
  have head : Il.written [.blank, .head func.global func.name func.params] =
      "\n" ++ exported func.global ++ "function w $" ++ func.name ++ "(" ++
        ", ".intercalate (func.params.map ("w %" ++ ·)) ++ ") \x7b\n" := by
    apply String.toList_inj.mp
    simp [Il.written, Il.Line.text, Il.Line.pieces, Il.text_itemPieces, text_exportPieces, Il.Piece.text,
      Il.Atom.text, String.toList_append, Function.comp_def]
  rw [Il.Func.lines, Il.written_append, Il.written_append, head]
  simp only [String.append_assoc]
  rfl

theorem written_data (wordSize : Int) (var : Tac.StaticVar) :
    Il.written [.data (data wordSize var)] = dataLine wordSize var := by
  apply String.toList_inj.mp
  by_cases zero : var.init = 0 <;>
    simp [Il.written, Il.Line.text, Il.Line.pieces, data, dataLine, zero, text_exportPieces, Il.Piece.text,
      Il.Atom.text, String.toList_append]

section Run
variable {α β : Type} (state : Writing)

theorem bind_apply (first : Write α) (next : α → Write β) :
    (first >>= next) state = next (first state).1 (first state).2 := rfl

theorem map_apply (f : α → β) (first : Write α) : (f <$> first) state = (f (first state).1, (first state).2) := rfl

theorem pure_apply (a : α) : (pure a : Write α) state = (a, state) := rfl

theorem modify_apply (f : Writing → Writing) : (modify f : Write PUnit) state = ((), f state) := rfl

theorem number_apply : number state = (state.count + 1, { state with count := state.count + 1 }) := rfl

end Run

section Text
variable (table : SymbolTable)

theorem exists_loads {value : Value} (present : value.isPresent = true) (state : Writing) :
    ∃ code op last, operand table value state = ((Il.codeText code, op.text), { state with count := last }) ∧
      Loads table state.count value code op last := by
  cases value with
  | absent => cases present
  | const value =>
    refine ⟨_, _, _, ?_, .const value⟩
    rw [Il.Operand.text_const]
    rfl
  | var name =>
    cases static : table.isStatic name with
    | true =>
      refine ⟨_, _, _, ?_, .static static⟩
      have made : operand table (.var name) state =
          (("\t" ++ ("%.q" ++ toString (state.count + 1)) ++ " =w loadw $" ++ name ++ "\n",
            "%.q" ++ toString (state.count + 1)), { state with count := state.count + 1 }) := by
        rw [operand, if_pos static]
        rfl
      rw [made]
      refine Prod.ext (Prod.ext ?_ ?_) rfl
      · rw [Il.codeText_assign]
        apply String.toList_inj.mp
        simp [tempName, String.toList_append]
      · apply String.toList_inj.mp
        simp [tempName, String.toList_append]
    | false =>
      refine ⟨_, _, _, ?_, .plain static⟩
      rw [operand, if_neg (by simp [static]), Il.Operand.text_temp]
      rfl

theorem exists_loadsAll {values : List Value} (present : ∀ value ∈ values, value.isPresent = true) (state : Writing) :
    ∃ code ops last, operands table values state =
        ((Il.codeText code, ops.map Il.Operand.text), { state with count := last }) ∧
      LoadsAll table state.count values code ops last := by
  induction values generalizing state with
  | nil => exact ⟨[], [], state.count, rfl, .nil⟩
  | cons value rest ih =>
    obtain ⟨here, later⟩ := List.forall_mem_cons.mp present
    obtain ⟨code, op, middle, made, loads⟩ := exists_loads table here state
    obtain ⟨more, ops, last, others, all⟩ := ih later { state with count := middle }
    refine ⟨code ++ more, op :: ops, last, ?_, .cons loads all⟩
    have both : operands table (value :: rest) state =
        (((operand table value state).1.1 ++ (operands table rest (operand table value state).2).1.1,
          (operand table value state).1.2 :: (operands table rest (operand table value state).2).1.2),
          (operands table rest (operand table value state).2).2) := rfl
    rw [both, made]
    dsimp only
    rw [others, Il.codeText_append]
    rfl

theorem exists_stores (dest : String) (result : Il.Result) (state : Writing) :
    ∃ code last, assign table (.var dest) result.text state = (Il.codeText code, { state with count := last }) ∧
      Stores table state.count dest result code last := by
  cases static : table.isStatic dest with
  | true =>
    refine ⟨_, _, ?_, .static static⟩
    have made : assign table (.var dest) result.text state =
        ("\t" ++ ("%.q" ++ toString (state.count + 1)) ++ " =w " ++ result.text ++ "\n\tstorew " ++
          ("%.q" ++ toString (state.count + 1)) ++ ", $" ++ dest ++ "\n", { state with count := state.count + 1 }) := by
      rw [assign, if_pos static]
      rfl
    rw [made, ← List.singleton_append, Il.codeText_append, Il.codeText_assign, Il.codeText_store, Il.Operand.text_temp]
    refine Prod.ext ?_ rfl
    apply String.toList_inj.mp
    simp [tempName, String.toList_append]
  | false =>
    refine ⟨_, _, ?_, .plain static⟩
    rw [assign, if_neg (by simp [static]), Il.codeText_assign]
    rfl

theorem exists_opens (state : Writing) :
    ∃ code count, openBlock state = (Il.codeText code, ⟨count, false⟩) ∧ Opens state code count := by
  obtain ⟨count, closed⟩ := state
  cases closed with
  | true =>
    refine ⟨_, _, ?_, .fresh count⟩
    have made : openBlock ⟨count, true⟩ = (("@.b" ++ toString (count + 1)) ++ "\n", ⟨count + 1, false⟩) := rfl
    rw [made, Il.codeText_block]
    refine Prod.ext ?_ rfl
    apply String.toList_inj.mp
    simp [blockName, String.toList_append]
  | false => exact ⟨_, _, rfl, .same count⟩

theorem exists_continues {instr : Tac.Instr} (complete : instr.isComplete = true) (notLabel : ∀ name, instr ≠ .label name)
    (notMention : ∀ name, instr ≠ .mention name) (count : Nat) :
    ∃ code after, body table instr ⟨count, false⟩ = (some (Il.codeText code), after) ∧
      Continues table count instr code after := by
  cases instr with
  | ret value =>
    obtain ⟨code, op, last, loaded, loads⟩ := exists_loads table complete ⟨count, false⟩
    refine ⟨_, _, ?_, .ret loads⟩
    simp only [body, bind_apply, loaded, setClosed, modify_apply, pure_apply, Il.codeText_append, Il.codeText_ret,
      String.append_assoc]
  | jump target =>
    refine ⟨_, _, ?_, .jump target⟩
    simp only [body, bind_apply, setClosed, modify_apply, pure_apply, Il.codeText_jump]
  | jumpIfZero cond target =>
    obtain ⟨code, op, last, loaded, loads⟩ := exists_loads table complete ⟨count, false⟩
    refine ⟨_, _, ?_, .jumpIfZero target loads⟩
    simp only [body, map_apply, branch, bind_apply, loaded, block, number_apply, pure_apply]
    refine Prod.ext (congrArg some ?_) rfl
    rw [Il.codeText_append, codeText_branch_block]
    apply String.toList_inj.mp
    simp [blockName, String.toList_append]
  | jumpIfNotZero cond target =>
    obtain ⟨code, op, last, loaded, loads⟩ := exists_loads table complete ⟨count, false⟩
    refine ⟨_, _, ?_, .jumpIfNotZero target loads⟩
    simp only [body, map_apply, branch, bind_apply, loaded, block, number_apply, pure_apply]
    refine Prod.ext (congrArg some ?_) rfl
    rw [Il.codeText_append, codeText_branch_block]
    apply String.toList_inj.mp
    simp [blockName, String.toList_append]
  | copy source dest =>
    obtain ⟨present, isVar⟩ := Bool.and_eq_true_iff.mp complete
    obtain ⟨dest, rfl⟩ := Value.isVar_iff.mp isVar
    obtain ⟨code, op, middle, loaded, loads⟩ := exists_loads table present ⟨count, false⟩
    obtain ⟨more, last, stored, stores⟩ := exists_stores table dest (.copy op) ⟨middle, false⟩
    rw [Il.Result.text_copy] at stored
    refine ⟨_, _, ?_, .assign (.copy dest loads) stores⟩
    simp only [body, bind_apply, loaded, stored, pure_apply, Il.codeText_append]
  | unary op source dest =>
    obtain ⟨present, isVar⟩ := Bool.and_eq_true_iff.mp complete
    obtain ⟨dest, rfl⟩ := Value.isVar_iff.mp isVar
    obtain ⟨code, operand, middle, loaded, loads⟩ := exists_loads table present ⟨count, false⟩
    obtain ⟨more, last, stored, stores⟩ := exists_stores table dest (unaryOperation operand op) ⟨middle, false⟩
    rw [text_unaryOperation] at stored
    refine ⟨_, _, ?_, .assign (.unary op dest loads) stores⟩
    simp only [body, bind_apply, loaded, stored, pure_apply, Il.codeText_append]
  | binary op left right dest =>
    obtain ⟨both, isVar⟩ := Bool.and_eq_true_iff.mp complete
    obtain ⟨presentL, presentR⟩ := Bool.and_eq_true_iff.mp both
    obtain ⟨dest, rfl⟩ := Value.isVar_iff.mp isVar
    obtain ⟨codeL, first, between, loadedL, loadsL⟩ := exists_loads table presentL ⟨count, false⟩
    obtain ⟨codeR, second, middle, loadedR, loadsR⟩ := exists_loads table presentR ⟨between, false⟩
    obtain ⟨more, last, stored, stores⟩ :=
      exists_stores table dest (.binary (operationOp op) first second) ⟨middle, false⟩
    rw [Il.Result.text_binary, name_operationOp] at stored
    refine ⟨_, _, ?_, .assign (.binary op dest loadsL loadsR) stores⟩
    simp only [body, bind_apply, loadedL, loadedR, stored, pure_apply, Il.codeText_append]
  | call callee args dest =>
    obtain ⟨present, isVar⟩ := Bool.and_eq_true_iff.mp complete
    obtain ⟨dest, rfl⟩ := Value.isVar_iff.mp isVar
    obtain ⟨code, ops, middle, loaded, loads⟩ := exists_loadsAll table (List.all_eq_true.mp present) ⟨count, false⟩
    obtain ⟨more, last, stored, stores⟩ := exists_stores table dest (.call callee ops) ⟨middle, false⟩
    rw [Il.Result.text_call] at stored
    refine ⟨_, _, ?_, .assign (.call callee dest loads) stores⟩
    simp only [body, bind_apply, loaded, List.map_map, Function.comp_def, stored, pure_apply, Il.codeText_append]
  | label name => exact absurd rfl (notLabel name)
  | mention name => exact absurd rfl (notMention name)
  | unknown | lacking => cases complete

/-- Every complete instruction is written as the text of what it becomes. -/
theorem instr_becomes {instr : Tac.Instr} (complete : instr.isComplete = true) (state : Writing) :
    Pass.Meets (Qbe.instr table instr) state
      (fun lines after => ∃ code, lines = Il.codeText code ∧ Becomes table state instr code after) fun _ => False := by
  unfold Qbe.instr
  extract_lets finish
  split
  · rename_i name
    exact ⟨_, (Il.codeText_block name).symm, .label state name⟩
  · rename_i name
    exact ⟨[], rfl, .mention state name⟩
  · rename_i notLabel notMention
    obtain ⟨code, count, opened, opens⟩ := exists_opens state
    obtain ⟨more, after, made, continues⟩ := exists_continues table complete notLabel notMention count
    rw [Pass.meets_bind, Pass.meets_lift, opened]
    unfold finish
    rw [Pass.meets_bind, Pass.meets_lift, made]
    exact ⟨code ++ more, (Il.codeText_append ..).symm, .inside opens continues⟩

theorem mapM_instr_becomes {instrs : List Tac.Instr} (complete : ∀ instr ∈ instrs, instr.isComplete = true)
    (state : Writing) :
    Pass.Meets (instrs.mapM (Qbe.instr table)) state
      (fun texts after => ∃ code, String.join texts = Il.codeText code ∧ BecomesAll table state instrs code after)
      fun _ => False := by
  induction instrs generalizing state with
  | nil => exact ⟨[], rfl, .nil⟩
  | cons instr rest ih =>
    obtain ⟨here, later⟩ := List.forall_mem_cons.mp complete
    rw [List.mapM_cons]
    refine (instr_becomes table here state).bind fun first middle done => ?_
    obtain ⟨code, rfl, becomes⟩ := done
    refine (ih later middle).bind fun texts after others => ?_
    obtain ⟨more, same, all⟩ := others
    refine ⟨code ++ more, ?_, .cons becomes all⟩
    rw [String.join_cons, same, Il.codeText_append]

theorem func_becomes {func : Tac.Func} (complete : ∀ instr ∈ func.body, instr.isComplete = true) (state : Writing) :
    Pass.Meets (Qbe.func table func) state
      (fun text _ => ∃ il, text = Il.written il.lines ∧ FuncBecomes table func il) fun _ => False := by
  unfold Qbe.func
  rw [Pass.meets_bind, Pass.meets_lift]
  refine (mapM_instr_becomes table complete _).bind fun texts after done => ?_
  obtain ⟨code, same, becomes⟩ := done
  refine ⟨_, ?_, ⟨_, code, after, becomes, rfl⟩⟩
  rw [written_lines, Il.codeText_append, codeText_zeroed, same]
  simp only [String.append_assoc]
  rfl

theorem mapM_func_becomes {funcs : List Tac.Func}
    (complete : ∀ func ∈ funcs, ∀ instr ∈ func.body, instr.isComplete = true) (state : Writing) :
    Pass.Meets (funcs.mapM (Qbe.func table)) state
      (fun texts _ => ∃ ils : List Il.Func, String.join texts = Il.written (ils.flatMap Il.Func.lines) ∧
        List.Forall₂ (FuncBecomes table) funcs ils) fun _ => False := by
  induction funcs generalizing state with
  | nil => exact ⟨[], rfl, .nil⟩
  | cons func rest ih =>
    obtain ⟨here, later⟩ := List.forall_mem_cons.mp complete
    rw [List.mapM_cons]
    refine (func_becomes table here state).bind fun first middle done => ?_
    obtain ⟨il, rfl, becomes⟩ := done
    refine (ih later middle).bind fun texts after others => ?_
    obtain ⟨ils, same, all⟩ := others
    refine ⟨il :: ils, ?_, .cons becomes all⟩
    rw [String.join_cons, same, List.flatMap_cons, Il.written_append]

/-- A program of complete instructions is written as the text of what its functions become. -/
theorem program_becomes {code : Tac.Program} (wordSize : Int)
    (complete : ∀ func ∈ code.funcs, ∀ instr ∈ func.body, instr.isComplete = true) :
    ∃ funcs, program table wordSize code =
        .ok (Il.written (Il.Program.lines ⟨code.statics.map (data wordSize), funcs⟩)) ∧
      List.Forall₂ (FuncBecomes table) code.funcs funcs := by
  obtain ⟨texts, after, done, funcs, same, becomes⟩ := (mapM_func_becomes table complete {}).exists_ok
  refine ⟨funcs, ?_, becomes⟩
  have statics : Il.written ((code.statics.map (data wordSize)).map Il.Line.data) =
      String.join (code.statics.map (dataLine wordSize)) := by
    induction code.statics with
    | nil => rfl
    | cons var rest ih =>
      rw [List.map_cons, List.map_cons, ← List.singleton_append, Il.written_append, ih, written_data, List.map_cons,
        String.join_cons]
  rw [Il.Program.lines, Il.written_append, statics, ← same, program, done]
  rfl

end Text

end IntC.Qbe
