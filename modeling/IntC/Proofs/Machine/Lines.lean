import IntC.Machine.Assembly

namespace IntC.Machine

/-- A line of assembly text, by what it stands for. -/
inductive Line where
  | directive (text : String)
  | label (symbol : String)
  | code (instr : Instr)
  /-- Pushes the frame pointer. -/
  | saveBase
  /-- Sets the frame pointer to the stack pointer. -/
  | setBase
  /-- Sets the stack pointer to the frame pointer. -/
  | resetStack
  /-- Pops the frame pointer. -/
  | restoreBase
  /-- Pops the address to return to. -/
  | goBack

def prologue : List Line := [.saveBase, .setBase]

def epilogue : List Line := [.resetStack, .restoreBase, .goBack]

def Instr.lines (naming : Naming) : Instr → List Line
  | .label name => [.label (naming.labelPrefix ++ name)]
  | .ret => epilogue
  | instr => [.code instr]

def globalLines (symbol : String) (global : Bool) : List Line :=
  if global then [.directive (".globl " ++ symbol)] else []

def StaticVar.lines (naming : Naming) (var : StaticVar) : List Line :=
  globalLines (naming.symbolPrefix ++ var.name) var.global ++
    if var.init = 0 then
      [.directive ".bss", .directive ".balign 4", .label (naming.symbolPrefix ++ var.name), .directive ".zero 4"]
    else
      [.directive ".data", .directive ".balign 4", .label (naming.symbolPrefix ++ var.name),
        .directive (".long " ++ toString var.init)]

def Func.heading (naming : Naming) (func : Func) : List Line :=
  globalLines (naming.symbolPrefix ++ func.name) func.global ++
    [.directive ".text", .label (naming.symbolPrefix ++ func.name)]

def Func.lines (naming : Naming) (func : Func) : List Line :=
  func.heading naming ++ (prologue ++ func.instrs.flatMap (Instr.lines naming))

def Program.lines (naming : Naming) (program : Program) : List Line :=
  program.statics.flatMap (StaticVar.lines naming) ++ (program.funcs.flatMap (Func.lines naming) ++
    if naming.stackNote then [.directive ".section .note.GNU-stack,\"\",@progbits"] else [])

def Line.text (naming : Naming) (defined : List String) : Line → String
  | .directive text => codeLine text
  | .label symbol => labelLine symbol
  | .code instr => instr.text naming defined
  | .saveBase => codeLine "pushq %rbp"
  | .setBase => codeLine "movq %rsp, %rbp"
  | .resetStack => codeLine "movq %rbp, %rsp"
  | .restoreBase => codeLine "popq %rbp"
  | .goBack => codeLine "ret"

/-- The text that lines make up, where the given functions are defined. -/
def written (naming : Naming) (defined : List String) (lines : List Line) : String :=
  String.join (lines.map (Line.text naming defined))

section Written
variable {naming : Naming} {defined : List String}

@[simp] theorem written_nil : written naming defined [] = "" := rfl

@[simp] theorem written_cons (line : Line) (rest : List Line) :
    written naming defined (line :: rest) = line.text naming defined ++ written naming defined rest :=
  String.join_cons

@[simp] theorem written_append (first second : List Line) :
    written naming defined (first ++ second) = written naming defined first ++ written naming defined second := by
  rw [written, List.map_append, String.join_append]
  rfl

theorem written_flatMap {α : Type} {lines : α → List Line} {text : α → String}
    (each : ∀ a, written naming defined (lines a) = text a) (parts : List α) :
    written naming defined (parts.flatMap lines) = String.join (parts.map text) := by
  induction parts with
  | nil => rfl
  | cons a rest ih => rw [List.flatMap_cons, written_append, each, ih, List.map_cons, String.join_cons]

theorem Instr.written_lines (instr : Instr) : written naming defined (instr.lines naming) = instr.text naming defined := by
  cases instr <;> simp [Instr.lines, epilogue, Line.text, Instr.text, String.append_assoc]

theorem written_globalLines (symbol : String) (global : Bool) :
    written naming defined (globalLines symbol global) = globalLine symbol global := by
  cases global <;> simp [globalLines, globalLine, Line.text]

theorem StaticVar.written_lines (var : StaticVar) : written naming defined (var.lines naming) = var.text naming := by
  unfold StaticVar.lines StaticVar.text
  rw [written_append, written_globalLines]
  split <;> simp [Line.text, String.append_assoc]

theorem Func.written_lines (func : Func) : written naming defined (func.lines naming) = func.text naming defined := by
  unfold Func.lines Func.heading Func.text
  rw [written_append, written_append, written_append, written_globalLines, written_flatMap Instr.written_lines]
  simp [prologue, Line.text, String.append_assoc]

end Written

theorem Program.written_lines (naming : Naming) (program : Program) :
    written naming (program.funcs.map Func.name) (program.lines naming) = program.text naming := by
  unfold Program.lines Program.text
  rw [written_append, written_append, written_flatMap StaticVar.written_lines, written_flatMap Func.written_lines]
  cases naming.stackNote <;> simp [Line.text, String.append_assoc]

end IntC.Machine
