import IntC.Proofs.CompileIl
import IntC.Proofs.Il.Blocks

namespace IntC

section Lowered
variable {compiler : Compiler} {config : Config} {source : String} {file : Int} {code : Tac.Program}
  {symbols : SymbolTable}

/-- The text for the code of a source is that of a program with one function for each of the code, which it becomes. -/
theorem exists_il (made : (compiler.compile config source file .lower).1 = .ok (.code code symbols)) (wordSize : Int) :
    ∃ program : Il.Program, Qbe.program symbols wordSize code = .ok (Il.written program.lines) ∧
      Il.Program.read? (Il.written program.lines) = some program ∧
      List.Forall₂ (fun func il => Qbe.FuncBecomes symbols func il ∧ il.InBlocks) code.funcs program.funcs := by
  obtain ⟨tokens, tree, resolved, program, names, passes⟩ := exists_passes made
  have sound := sound_of_compile made
  obtain ⟨funcs, done, becomes⟩ := Qbe.program_becomes symbols wordSize fun func member => (sound func member).2
  have each : ∀ {func il}, func ∈ code.funcs → Qbe.FuncBecomes symbols func il → il.isLawful = true ∧ il.InBlocks := by
    intro func il member becomes
    obtain ⟨-, -, -, front, whole⟩ := exists_of_mem_right passes.funcs_end member
    have ends : ∃ front value, func.body = front ++ [.ret value] := ⟨front, _, whole⟩
    have lawful := becomes.lawful (sound func member).1 ends (passes.labels_plain member)
    exact ⟨lawful, becomes.inBlocks (sound func member).1 ends lawful⟩
  refine ⟨_, done, Il.Program.read?_written (fun il member => ?_) (List.forall_mem_append.mpr ⟨?_, ?_⟩), ?_⟩
  · obtain ⟨func, among, becomes⟩ := exists_of_mem_right becomes member
    exact (each among becomes).1
  · simp only [List.forall_mem_map, Il.Line.names, List.forall_mem_singleton]
    exact fun var member => isName_of_isTame (isTame_of_isTidy (passes.statics_tidy var member))
  · intro line member
    obtain ⟨il, among, inside⟩ := List.mem_flatMap.mp member
    obtain ⟨func, origin, becomes⟩ := exists_of_mem_right becomes among
    exact passes.names_read origin becomes line inside
  · refine List.forall₂_iff_zip.mpr ⟨becomes.length_eq, fun {func il} paired => ?_⟩
    have becomes := (List.forall₂_iff_zip.mp becomes).2 paired
    exact ⟨becomes, (each (List.of_mem_zip paired).1 becomes).2⟩

/-- The text for the code of a source consists of the definitions of its variables and of one function for each of the
code, line by line, and every function is made up of blocks: behind `@start` stand instructions and the names of blocks,
what ends a block is followed by the name of the next one or by the end, which comes behind a return, no name is given
twice, and jumps go to blocks of the same function, but not to the first. -/
theorem qbe_forms_blocks (made : (compiler.compile config source file .lower).1 = .ok (.code code symbols))
    (wordSize : Int) :
    ∃ text program, Qbe.program symbols wordSize code = .ok text ∧ text = Il.written program.lines ∧
      Il.Program.read? text = some program ∧
      List.Forall₂ (fun func il => il.name = func.name ∧ il.params = func.params ∧ il.InBlocks)
        code.funcs program.funcs := by
  obtain ⟨program, done, read, each⟩ := exists_il made wordSize
  refine ⟨_, program, done, rfl, read, each.imp fun func il both => ?_⟩
  obtain ⟨name, -, params⟩ := both.1.head
  exact ⟨name, params, both.2⟩

/-- The source has returns in a row, a jump behind a return, and blocks that control never comes to. -/
def leavingSource : String :=
  "int f(int a) \x7b while (a) \x7b if (a) return 1; return 2; break; \x7d return 3; return 4; \x7d"

def Product.isLeaving : Product → Bool
  | .code made _ => made.funcs.map Tac.Func.name = ["f"]
  | _ => false

def leaving : Sample .lower Product.isLeaving where
  source := leavingSource
  passes := by decide +kernel

theorem qbe_forms_blocks_leaving : ∃ code symbols text program il,
    (Compiler.compile {} {} leavingSource 0 .lower).1 = .ok (.code code symbols) ∧
    Qbe.program symbols 4 code = .ok text ∧ Il.Program.read? text = some program ∧ program.funcs = [il] ∧
    il.name = "f" ∧ il.InBlocks := by
  obtain ⟨code, symbols, made, shape⟩ := leaving.exists_code
  have names : code.funcs.map Tac.Func.name = ["f"] := of_decide_eq_true shape
  obtain ⟨func, funcs, name⟩ := List.map_eq_singleton_iff.mp names
  obtain ⟨text, program, written, -, read, each⟩ := qbe_forms_blocks made 4
  rw [funcs] at each
  obtain ⟨il, rest, ⟨same, -, inBlocks⟩, none, ils⟩ := List.forall₂_cons_left_iff.mp each
  cases none
  exact ⟨code, symbols, text, program, il, made, written, read, ils, same.trans name, inBlocks⟩

end Lowered

end IntC
