import IntC.Proofs.Machine.Layout
import IntC.Proofs.Machine.Lines
import IntC.Proofs.Token.Lexer

namespace IntC.Machine

variable {text : String} {op : Operand} {instr : Instr} {func : Tac.Func} {machine : Func}

/-- The labels that a text defines: what stands before the colon on each line that ends in one. -/
def labelsIn (text : String) : List String :=
  (text.toList.splitOn '\n').filterMap fun line =>
    if line.getLast? = some ':' then some (String.ofList line.dropLast) else none

/-- Text that neither ends a line nor makes it a label. -/
def isQuiet (text : String) : Bool := text.toList.all fun c => c ≠ '\n' && c ≠ ':'

section Quiet

@[simp] theorem isQuiet_append (first second : String) : isQuiet (first ++ second) = (isQuiet first && isQuiet second) := by
  simp only [isQuiet, String.toList_append, List.all_append]

theorem labelsIn_append_line {line : List Char} (unbroken : '\n' ∉ line) (rest : String) :
    labelsIn (String.ofList (line ++ ['\n']) ++ rest) =
      (if line.getLast? = some ':' then [String.ofList line.dropLast] else []) ++ labelsIn rest := by
  have free : ∀ c ∈ line, (c == '\n') = false := fun c inside => by
    rw [beq_eq_false_iff_ne]
    rintro rfl
    exact unbroken inside
  have parts : (String.ofList (line ++ ['\n']) ++ rest).toList.splitOn '\n' = line :: rest.toList.splitOn '\n' := by
    rw [String.toList_append, String.toList_ofList, List.append_assoc, List.singleton_append]
    exact List.splitOnP_append_cons_of_forall_mem free '\n' (by decide) rest.toList
  rw [labelsIn, parts, List.filterMap_cons]
  split <;> rename_i found <;> split at found <;> cases found
  · rw [if_neg ‹_›]
    rfl
  · rw [if_pos ‹_›]
    rfl

theorem mem_of_isQuiet (quiet : isQuiet text = true) : '\n' ∉ text.toList ∧ ':' ∉ text.toList := by
  have each := List.all_eq_true.mp quiet
  constructor
  · intro inside
    have char := each '\n' inside
    simp at char
  · intro inside
    have char := each ':' inside
    simp at char

theorem labelsIn_codeLine (quiet : isQuiet text = true) (rest : String) :
    labelsIn (codeLine text ++ rest) = labelsIn rest := by
  obtain ⟨unbroken, unmarked⟩ := mem_of_isQuiet quiet
  have line : codeLine text = String.ofList (('\t' :: text.toList) ++ ['\n']) := by
    apply String.toList_inj.mp
    simp [codeLine, String.toList_append]
  rw [line, labelsIn_append_line (by simpa using unbroken), if_neg, List.nil_append]
  intro last
  have inside := List.mem_of_getLast? last
  simp [unmarked] at inside

theorem labelsIn_labelLine {symbol : String} (quiet : isQuiet symbol = true) (rest : String) :
    labelsIn (labelLine symbol ++ rest) = symbol :: labelsIn rest := by
  obtain ⟨unbroken, -⟩ := mem_of_isQuiet quiet
  have line : labelLine symbol = String.ofList ((symbol.toList ++ [':']) ++ ['\n']) := by
    apply String.toList_inj.mp
    simp [labelLine, String.toList_append]
  rw [line, labelsIn_append_line (by simpa using unbroken), if_pos (List.getLast?_concat ..), List.dropLast_concat,
    String.ofList_toList]
  rfl

theorem isQuiet_number (number : Nat) : isQuiet (toString number) = true := by
  refine List.all_eq_true.mpr fun c member => ?_
  rw [number_toList] at member
  have digit := Nat.isDigit_of_mem_toDigits (by decide) (by decide) member
  have other : ∀ c : Char, c.isDigit = true → (decide (c ≠ '\n') && decide (c ≠ ':')) = true := by
    intro c digit
    rw [Bool.and_eq_true, decide_eq_true_iff, decide_eq_true_iff]
    constructor <;> rintro rfl <;> cases digit
  exact other c digit

theorem isQuiet_integer (number : Int) : isQuiet (toString number) = true := by
  rw [Int.toString_eq_repr, Int.repr_eq_if]
  split
  · exact isQuiet_number _
  · rw [isQuiet_append]
    exact Bool.and_eq_true_iff.mpr ⟨by decide, isQuiet_number _⟩

end Quiet

def Line.label? : Line → Option String
  | .label symbol => some symbol
  | _ => none

/-- A line of which the text is one line of text, with a label or without. -/
def Line.Reads (naming : Naming) (defined : List String) (line : Line) : Prop :=
  ∃ text, isQuiet text = true ∧
    (line = .label text ∨ line.label? = none ∧ line.text naming defined = codeLine text)

theorem labelsIn_written {naming : Naming} {defined : List String} {lines : List Line}
    (reads : ∀ line ∈ lines, line.Reads naming defined) :
    labelsIn (written naming defined lines) = lines.filterMap Line.label? := by
  induction lines with
  | nil => rfl
  | cons line rest ih =>
    obtain ⟨⟨text, quiet, shape⟩, others⟩ := List.forall_mem_cons.mp reads
    rw [written_cons]
    rcases shape with rfl | ⟨plain, same⟩
    · exact (labelsIn_labelLine quiet _).trans (congrArg _ (ih others))
    · rw [same, labelsIn_codeLine quiet, List.filterMap_cons_none plain]
      exact ih others

def Instr.symbol? : Instr → Option String
  | .jmp target | .jmpCC _ target => some target
  | .label name | .call name => some name
  | _ => none

/-- An instruction with names that can stand in a line. -/
structure Instr.Named (good : String → Prop) (instr : Instr) : Prop where
  data : ∀ name, .data name ∈ instr.operands → good name
  symbol : ∀ name ∈ instr.symbol?, good name

section Reads
variable {naming : Naming} {defined : List String}

theorem Operand.isQuiet_text (symbols : isQuiet naming.symbolPrefix = true) (width : Width)
    (data : ∀ name, op = .data name → isQuiet name = true) : isQuiet (op.text naming width) = true := by
  cases op with
  | imm value =>
    rw [Operand.text, isQuiet_append, isQuiet_integer]
    decide
  | reg r =>
    have each : isQuiet (r.name width) = true := by cases width <;> cases r <;> decide
    exact each
  | stack offset =>
    rw [Operand.text, isQuiet_append, isQuiet_integer]
    decide
  | data name =>
    rw [Operand.text, isQuiet_append, isQuiet_append, symbols, data name rfl]
    decide
  | pseudo | absent => exact (by decide : isQuiet "?" = true)

theorem CondCode.isQuiet_suffix (cc : CondCode) : isQuiet cc.suffix = true := by cases cc <;> decide

theorem Line.Reads.fixed {line : Line} (plain : line.label? = none) (same : line.text naming defined = codeLine text)
    (quiet : isQuiet text = true) : line.Reads naming defined :=
  ⟨text, quiet, .inr ⟨plain, same⟩⟩

theorem Line.Reads.code (same : instr.text naming defined = codeLine text) (quiet : isQuiet text = true) :
    ∀ line ∈ [Line.code instr], line.Reads naming defined :=
  List.forall_mem_singleton.mpr (.fixed rfl same quiet)

theorem Instr.lines_read (symbols : isQuiet naming.symbolPrefix = true) (labels : isQuiet naming.labelPrefix = true)
    (named : instr.Named fun name => isQuiet name = true) :
    ∀ line ∈ instr.lines naming, line.Reads naming defined := by
  have operand : ∀ {width op}, op ∈ instr.operands → isQuiet (op.text naming width) = true :=
    fun inside => Operand.isQuiet_text symbols _ fun name same => named.data name (same ▸ inside)
  have symbol := named.symbol
  cases instr with
  | mov source dest | cmp source dest =>
    refine .code rfl ?_
    simp only [isQuiet_append, Bool.and_eq_true]
    exact ⟨⟨⟨by decide, operand (by simp [Instr.operands])⟩, by decide⟩, operand (by simp [Instr.operands])⟩
  | binary op source dest =>
    refine .code rfl ?_
    simp only [isQuiet_append, Bool.and_eq_true]
    have mnemonic : isQuiet op.mnemonic = true := by cases op <;> decide
    exact ⟨⟨⟨⟨mnemonic, by decide⟩, operand (by simp [Instr.operands])⟩, by decide⟩,
      operand (by simp [Instr.operands])⟩
  | unary op dest =>
    refine .code rfl ?_
    simp only [isQuiet_append, Bool.and_eq_true]
    have mnemonic : isQuiet op.mnemonic = true := by cases op <;> decide
    exact ⟨⟨mnemonic, by decide⟩, operand (by simp [Instr.operands])⟩
  | setCC cc dest =>
    refine .code rfl ?_
    simp only [isQuiet_append, Bool.and_eq_true]
    exact ⟨⟨⟨by decide, cc.isQuiet_suffix⟩, by decide⟩, operand (by simp [Instr.operands])⟩
  | idiv source | push source =>
    refine .code rfl ?_
    simp only [isQuiet_append, Bool.and_eq_true]
    exact ⟨by decide, operand (by simp [Instr.operands])⟩
  | cdq => exact .code rfl (by decide)
  | jmp target =>
    refine .code rfl ?_
    simp only [isQuiet_append, Bool.and_eq_true]
    exact ⟨⟨by decide, labels⟩, symbol target rfl⟩
  | jmpCC cc target =>
    refine .code rfl ?_
    simp only [isQuiet_append, Bool.and_eq_true]
    exact ⟨⟨⟨⟨by decide, cc.isQuiet_suffix⟩, by decide⟩, labels⟩, symbol target rfl⟩
  | allocate bytes | deallocate bytes =>
    refine .code rfl ?_
    simp only [isQuiet_append, Bool.and_eq_true]
    exact ⟨⟨by decide, isQuiet_integer bytes⟩, by decide⟩
  | call name =>
    refine .code rfl ?_
    have callee := symbol name rfl
    simp only [isQuiet_append, Bool.and_eq_true, callTarget]
    refine ⟨by decide, ?_⟩
    split
    · simp only [isQuiet_append, Bool.and_eq_true]
      exact ⟨⟨symbols, callee⟩, by decide⟩
    · simp only [isQuiet_append, Bool.and_eq_true]
      exact ⟨symbols, callee⟩
  | label name =>
    refine List.forall_mem_singleton.mpr ⟨naming.labelPrefix ++ name, ?_, .inl rfl⟩
    simp only [isQuiet_append, Bool.and_eq_true]
    exact ⟨labels, symbol name rfl⟩
  | ret =>
    have each : ∀ line ∈ epilogue, line.Reads naming defined := by
      simp only [epilogue, List.forall_mem_cons]
      exact ⟨.fixed rfl rfl (by decide), .fixed rfl rfl (by decide), .fixed rfl rfl (by decide), List.forall_mem_nil _⟩
    exact each

theorem globalLines_read {symbol : String} (global : Bool) (quiet : isQuiet symbol = true) :
    ∀ line ∈ globalLines symbol global, line.Reads naming defined := by
  have text : isQuiet (".globl " ++ symbol) = true := by
    rw [isQuiet_append, quiet]
    decide
  cases global with
  | false => exact List.forall_mem_nil _
  | true => exact List.forall_mem_singleton.mpr (.fixed rfl rfl text)

theorem StaticVar.lines_read {var : StaticVar} (quiet : isQuiet (naming.symbolPrefix ++ var.name) = true) :
    ∀ line ∈ var.lines naming, line.Reads naming defined := by
  refine List.forall_mem_append.mpr ⟨globalLines_read _ quiet, ?_⟩
  have label : (Line.label (naming.symbolPrefix ++ var.name)).Reads naming defined := ⟨_, quiet, .inl rfl⟩
  have init : isQuiet (".long " ++ toString var.init) = true := by
    rw [isQuiet_append, isQuiet_integer]
    decide
  split <;> simp only [List.forall_mem_cons]
  · exact ⟨.fixed rfl rfl (by decide), .fixed rfl rfl (by decide), label, .fixed rfl rfl (by decide),
      List.forall_mem_nil _⟩
  · exact ⟨.fixed rfl rfl (by decide), .fixed rfl rfl (by decide), label, .fixed rfl rfl init, List.forall_mem_nil _⟩

theorem Func.lines_read (symbols : isQuiet naming.symbolPrefix = true) (labels : isQuiet naming.labelPrefix = true)
    {func : Func} (name : isQuiet func.name = true)
    (named : ∀ instr ∈ func.instrs, instr.Named fun name => isQuiet name = true) :
    ∀ line ∈ func.lines naming, line.Reads naming defined := by
  have quiet : isQuiet (naming.symbolPrefix ++ func.name) = true := by rw [isQuiet_append, symbols, name, Bool.true_and]
  simp only [Func.lines, Func.heading, prologue, List.forall_mem_append, List.forall_mem_cons, List.forall_mem_flatMap]
  exact ⟨⟨globalLines_read _ quiet, .fixed rfl rfl (by decide), ⟨_, quiet, .inl rfl⟩, List.forall_mem_nil _⟩,
    ⟨.fixed rfl rfl (by decide), .fixed rfl rfl (by decide), List.forall_mem_nil _⟩,
    fun instr inside => Instr.lines_read symbols labels (named instr inside)⟩

end Reads

def Instr.label? : Instr → Option String
  | .label name => some name
  | _ => none

def labels (code : List Instr) : List String := code.filterMap Instr.label?

/-- The labels of a program: those of its variables and functions, and those inside each function. -/
def Program.labels (naming : Naming) (program : Program) : List String :=
  program.statics.map (fun var => naming.symbolPrefix ++ var.name) ++ program.funcs.flatMap fun func =>
    (naming.symbolPrefix ++ func.name) :: (Machine.labels func.instrs).map fun name => naming.labelPrefix ++ name

section Program
variable {naming : Naming}

theorem filterMap_globalLines (symbol : String) (global : Bool) :
    (globalLines symbol global).filterMap Line.label? = [] := by
  cases global <;> rfl

theorem StaticVar.filterMap_lines (var : StaticVar) :
    (var.lines naming).filterMap Line.label? = [naming.symbolPrefix ++ var.name] := by
  rw [StaticVar.lines, List.filterMap_append, filterMap_globalLines]
  split <;> rfl

theorem Instr.filterMap_lines (instr : Instr) :
    (instr.lines naming).filterMap Line.label? = (instr.label?.map fun name => naming.labelPrefix ++ name).toList := by
  cases instr <;> rfl

theorem Func.filterMap_lines (func : Func) : (func.lines naming).filterMap Line.label? =
    (naming.symbolPrefix ++ func.name) :: (labels func.instrs).map fun name => naming.labelPrefix ++ name := by
  have body : (func.instrs.flatMap (Instr.lines naming)).filterMap Line.label? =
      (labels func.instrs).map fun name => naming.labelPrefix ++ name := by
    rw [labels, List.map_filterMap, List.filterMap_flatMap, List.filterMap_eq_flatMap_toList]
    exact List.flatMap_congr fun instr _ => instr.filterMap_lines
  rw [Func.lines, Func.heading, List.filterMap_append, List.filterMap_append, List.filterMap_append,
    filterMap_globalLines, body]
  rfl

theorem Program.filterMap_lines (program : Program) :
    (program.lines naming).filterMap Line.label? = program.labels naming := by
  have note : List.filterMap Line.label? (if naming.stackNote then
      [.directive ".section .note.GNU-stack,\"\",@progbits"] else []) = [] := by
    split <;> rfl
  rw [Program.lines, List.filterMap_append, List.filterMap_append, note, List.append_nil, List.filterMap_flatMap,
    List.filterMap_flatMap, Program.labels]
  congr 1
  · rw [List.flatMap_congr fun var _ => var.filterMap_lines, ← List.map_eq_flatMap]
  · exact List.flatMap_congr fun func _ => func.filterMap_lines

/-- The labels of a program are those that its text defines, if no name gets in the way. -/
theorem Program.labelsIn_text {program : Program} (symbols : isQuiet naming.symbolPrefix = true)
    (labels : isQuiet naming.labelPrefix = true) (statics : ∀ var ∈ program.statics, isQuiet var.name = true)
    (funcs : ∀ func ∈ program.funcs, isQuiet func.name = true ∧
      ∀ instr ∈ func.instrs, instr.Named fun name => isQuiet name = true) :
    labelsIn (program.text naming) = program.labels naming := by
  rw [← Program.written_lines, labelsIn_written, Program.filterMap_lines]
  simp only [Program.lines, List.forall_mem_append, List.forall_mem_flatMap]
  refine ⟨fun var member => StaticVar.lines_read ?_, fun func member => ?_, ?_⟩
  · rw [isQuiet_append, symbols, statics var member, Bool.true_and]
  · exact Func.lines_read symbols labels (funcs func member).1 (funcs func member).2
  · split
    · exact List.forall_mem_singleton.mpr (.fixed rfl rfl (by decide))
    · exact List.forall_mem_nil _

/-- Labels are told apart if symbols are, if the labels inside functions are, and if the ones are never the others. -/
theorem Program.nodup_labels {program : Program}
    (symbols : (program.statics.map StaticVar.name ++ program.funcs.map Func.name).Nodup)
    (inner : (program.funcs.flatMap fun func => Machine.labels func.instrs).Nodup)
    (apart : ∀ symbol ∈ program.statics.map StaticVar.name ++ program.funcs.map Func.name, ∀ name,
      naming.symbolPrefix ++ symbol ≠ naming.labelPrefix ++ name) : (program.labels naming).Nodup := by
  have order : (program.labels naming).Perm
      ((program.statics.map StaticVar.name ++ program.funcs.map Func.name).map (fun name => naming.symbolPrefix ++ name) ++
        (program.funcs.flatMap fun func => Machine.labels func.instrs).map fun name => naming.labelPrefix ++ name) := by
    rw [Program.labels, List.map_append, List.map_map, List.append_assoc, List.map_map, List.map_flatMap]
    refine List.Perm.append_left _ ?_
    rw [List.map_eq_flatMap]
    exact (List.flatMap_append_perm program.funcs (fun func => [naming.symbolPrefix ++ func.name]) fun func =>
      (Machine.labels func.instrs).map fun name => naming.labelPrefix ++ name).symm
  rw [order.nodup_iff, List.nodup_append]
  refine ⟨symbols.map fun a b same => ?_, inner.map fun a b same => ?_, ?_⟩
  · simpa using same
  · simpa using same
  · intro first listed second inside
    obtain ⟨symbol, member, rfl⟩ := List.mem_map.mp listed
    obtain ⟨name, -, rfl⟩ := List.mem_map.mp inside
    exact apart symbol member name

end Program

section Finished

theorem labels_cons (instr : Instr) (rest : List Instr) : labels (instr :: rest) = instr.label?.toList ++ labels rest := by
  unfold labels
  rw [List.filterMap_cons]
  cases instr.label? <;> rfl

theorem labels_append (first second : List Instr) : labels (first ++ second) = labels first ++ labels second :=
  List.filterMap_append ..

theorem call_symbols {callee : String} {args : List Operand} {dest : Operand} :
    ∀ part ∈ call callee args dest, part.label? = none ∧ ∀ name ∈ part.symbol?, name = callee := by
  intro part member
  simp only [call, List.mem_append, List.mem_ite_nil_left, List.mem_singleton] at member
  rcases member with ((((⟨-, rfl⟩ | inRegister) | pushed) | rfl) | ⟨-, rfl⟩) | rfl
  · simp [Instr.label?, Instr.symbol?]
  · obtain ⟨arg, -, reg, -, rfl⟩ := exists_of_mem_zipWith inRegister
    simp [Instr.label?, Instr.symbol?]
  · obtain ⟨arg, -, here⟩ := List.mem_flatMap.mp pushed
    cases arg <;> simp only [pushArg, List.mem_cons, List.not_mem_nil, or_false] at here <;>
      rcases here with rfl | rfl <;> simp [Instr.label?, Instr.symbol?]
  · simp [Instr.label?, Instr.symbol?]
  · simp [Instr.label?, Instr.symbol?]
  · simp [Instr.label?, Instr.symbol?]

/-- The symbols that a block names are those of the instruction it is selected for. -/
theorem selectInstr_symbols {func : String} {instr : Tac.Instr} {block : List Instr}
    (selected : selectInstr func instr = .ok block) :
    labels block = instr.label?.toList ∧ ∀ part ∈ block, ∀ name ∈ part.symbol?, name ∈ instr.symbols := by
  cases instr with
  | call callee args dest =>
    simp only [selectInstr, bind_eq_ok, pure_eq_ok] at selected
    obtain ⟨ops, -, op, -, rfl⟩ := selected
    have parts := @call_symbols callee ops op
    refine ⟨List.filterMap_eq_nil_iff.mpr fun part member => (parts part member).1, fun part member name found => ?_⟩
    rw [(parts part member).2 name found]
    exact List.mem_singleton_self _
  | unary op value dest =>
    cases op <;> simp only [selectInstr, bind_eq_ok, pure_eq_ok] at selected <;>
      obtain ⟨b, -, a, -, rfl⟩ := selected <;> simp [labels, Instr.label?, Tac.Instr.label?, Instr.symbol?]
  | binary op left right dest =>
    simp only [selectInstr, bind_eq_ok, pure_eq_ok] at selected
    obtain ⟨a, -, b, -, c, -, rfl⟩ := selected
    cases op <;> simp [labels, Instr.label?, Tac.Instr.label?, Instr.symbol?]
  | copy value dest =>
    simp only [selectInstr, bind_eq_ok, pure_eq_ok] at selected
    obtain ⟨a, -, b, -, rfl⟩ := selected
    simp [labels, Instr.label?, Tac.Instr.label?, Instr.symbol?]
  | ret value | jumpIfZero value target | jumpIfNotZero value target =>
    obtain ⟨a, -, ⟨⟩⟩ := bind_eq_ok.mp selected
    simp [labels, Instr.label?, Tac.Instr.label?, Instr.symbol?, Tac.Instr.symbols]
  | jump | label | mention =>
    cases selected
    simp [labels, Instr.label?, Tac.Instr.label?, Instr.symbol?, Tac.Instr.symbols]
  | unknown | lacking => cases selected

theorem Selects.symbols {func : String} {code : List Tac.Instr} {instrs : List Instr} (selects : Selects func code instrs) :
    labels instrs = Tac.labels code ∧
      ∀ part ∈ instrs, ∀ name ∈ part.symbol?, ∃ instr ∈ code, name ∈ instr.symbols := by
  induction code generalizing instrs with
  | nil =>
    obtain ⟨blocks, each, rfl⟩ := selects
    cases each
    exact ⟨rfl, List.forall_mem_nil _⟩
  | cons instr rest ih =>
    obtain ⟨block, others, first, later, rfl⟩ := selects_cons.mp selects
    obtain ⟨here, named⟩ := selectInstr_symbols first
    obtain ⟨behind, namedToo⟩ := ih later
    refine ⟨?_, List.forall_mem_append.mpr ⟨fun part member name found => ?_, fun part member name found => ?_⟩⟩
    · rw [labels_append, here, behind, Tac.labels_cons]
    · exact ⟨instr, List.mem_cons_self, named part member name found⟩
    · obtain ⟨other, inside, listed⟩ := namedToo part member name found
      exact ⟨other, List.mem_cons_of_mem _ inside, listed⟩

theorem selectFunc_symbols (selected : selectFunc func = .ok machine) :
    labels machine.instrs = Tac.labels func.body ∧
      ∀ part ∈ machine.instrs, ∀ name ∈ part.symbol?, ∃ instr ∈ func.body, name ∈ instr.symbols := by
  obtain ⟨code, same, selects⟩ := selectFunc_eq_ok selected
  obtain ⟨behind, named⟩ := selects.symbols
  have moves : ∀ part ∈ paramMoves func.params, part.label? = none ∧ part.symbol? = none := by
    intro part member
    obtain ⟨source, -, home, -, rfl⟩ := exists_of_mem_zipWith member
    exact ⟨rfl, rfl⟩
  rw [same]
  refine ⟨?_, List.forall_mem_append.mpr ⟨fun part member name found => ?_, named⟩⟩
  · have none : labels (paramMoves func.params) = [] :=
      List.filterMap_eq_nil_iff.mpr fun part member => (moves part member).1
    rw [labels_append, none, List.nil_append, behind]
  · rw [(moves part member).2] at found
    cases found

theorem symbol?_mapOperandsM {σ : Type} (f : Operand → StateM σ Operand) (instr : Instr) (state : σ) :
    (instr.mapOperandsM f state).1.symbol? = instr.symbol? ∧ (instr.mapOperandsM f state).1.label? = instr.label? := by
  cases instr <;> exact ⟨rfl, rfl⟩

theorem labels_mapM {σ : Type} (f : Operand → StateM σ Operand) (code : List Instr) (state : σ) :
    labels (code.mapM (Instr.mapOperandsM f) state).1 = labels code := by
  induction code generalizing state with
  | nil => rfl
  | cons instr rest ih =>
    have whole : labels ((instr :: rest).mapM (Instr.mapOperandsM f) state).1 =
        labels ((instr.mapOperandsM f state).1 ::
          (rest.mapM (Instr.mapOperandsM f) (instr.mapOperandsM f state).2).1) := by
      rw [List.mapM_cons]
      rfl
    rw [whole, labels_cons, ih, labels_cons, (symbol?_mapOperandsM f instr state).2]

theorem symbol?_of_computes (computes : instr.computes = true) : instr.symbol? = none ∧ instr.label? = none := by
  cases instr <;> first
    | exact ⟨rfl, rfl⟩
    | cases computes

theorem labels_encodable (instr : Instr) : labels instr.encodable = instr.label?.toList := by
  rcases encodable_cases instr with same | ⟨-, parts⟩
  · rw [same, labels_cons]
    exact List.append_nil _
  · have none : labels instr.encodable = [] :=
      List.filterMap_eq_nil_iff.mpr fun part member => (symbol?_of_computes (parts part member)).2
    rw [none]
    cases instr with
    | label name => cases parts _ (List.mem_singleton_self _)
    | _ => rfl

theorem labels_legalized (code : List Instr) : labels (legalized code) = labels code := by
  induction code with
  | nil => rfl
  | cons instr rest ih => rw [legalized_cons, labels_append, ih, labels_encodable, labels_cons]

theorem symbol?_encodable (instr : Instr) :
    ∀ part ∈ instr.encodable, ∀ name ∈ part.symbol?, name ∈ instr.symbol? := by
  intro part member name found
  rcases encodable_cases instr with same | ⟨-, parts⟩
  · rw [same, List.mem_singleton] at member
    exact member ▸ found
  · rw [(symbol?_of_computes (parts part member)).1] at found
    cases found

theorem place_data {table : SymbolTable} {frame : Frame} {name : String}
    (data : (Frame.place table op frame).1 = .data name) :
    op = .pseudo name ∧ table.isStatic name = true ∨ op = .data name := by
  cases op with
  | pseudo other =>
    rw [Frame.place_pseudo] at data
    split at data
    · rename_i static
      cases data
      exact .inl ⟨rfl, static⟩
    · split at data <;> cases data
  | _ => exact .inr data

/-- A finished function has the name and the labels of the function it is selected for. -/
theorem finished_labels (symbols : SymbolTable) (align : Int) (selected : selectFunc func = .ok machine) :
    (machine.finished symbols align).name = func.name ∧
      labels (machine.finished symbols align).instrs = Tac.labels func.body := by
  have name : machine.name = func.name := by
    simp only [selectFunc, bind_eq_ok, pure_eq_ok] at selected
    obtain ⟨blocks, -, rfl⟩ := selected
    rfl
  have placed : labels (machine.assignStorage symbols).instrs = labels machine.instrs := labels_mapM ..
  refine ⟨name, ?_⟩
  change labels (.allocate _ :: legalized (machine.assignStorage symbols).instrs) = _
  rw [labels_cons, labels_legalized, placed, (selectFunc_symbols selected).1]
  rfl

/-- An operand of a finished function is a scratch register, or stands where one that was selected has its place. -/
theorem finished_source {symbols : SymbolTable} {align : Int} (selected : selectFunc func = .ok machine) {part : Instr}
    (member : part ∈ (machine.finished symbols align).instrs) (among : op ∈ part.operands) : op.isScratch = true ∨
      ∃ before : Operand, before.Source func ∧ ∃ frame, op = (Frame.place symbols before frame).1 := by
  rcases List.mem_cons.mp member with rfl | encoded
  · cases among
  · obtain ⟨instr, inside, here⟩ := List.mem_flatMap.mp encoded
    obtain ⟨old, listed, frame, rfl⟩ := exists_of_mem_mapM_state inside
    rcases mem_operands_encodable _ part here _ among with found | scratch
    · obtain ⟨before, source, frame, same⟩ := (mapOperandsM_operands (Frame.place symbols) old frame).1 _ found
      exact .inr ⟨before, (selectFunc_source selected old listed).1 before source, frame, same⟩
    · exact .inl scratch

/-- A finished function has no names but the ones in the function it is selected for. -/
theorem finished_named (symbols : SymbolTable) (align : Int) (selected : selectFunc func = .ok machine)
    {good : String → Prop} (known : ∀ name ∈ names func, good name)
    (named : ∀ instr ∈ func.body, ∀ name ∈ instr.symbols, good name) :
    ∀ instr ∈ (machine.finished symbols align).instrs, instr.Named good := by
  obtain ⟨-, origin⟩ := selectFunc_symbols selected
  intro part member
  refine ⟨fun name among => ?_, fun name found => ?_⟩
  · rcases finished_source selected member among with scratch | ⟨before, source, frame, same⟩
    · cases scratch
    · rcases place_data same.symm with ⟨rfl, -⟩ | rfl
      · exact known name source.asks
      · cases source
  · rcases List.mem_cons.mp member with rfl | encoded
    · cases found
    · obtain ⟨instr, inside, here⟩ := List.mem_flatMap.mp encoded
      obtain ⟨old, listed, frame, rfl⟩ := exists_of_mem_mapM_state inside
      have kept := symbol?_encodable _ part here name found
      rw [(symbol?_mapOperandsM (Frame.place symbols) old frame).1] at kept
      obtain ⟨instr, body, listed⟩ := origin old listed name kept
      exact named instr body name listed

end Finished

end IntC.Machine
