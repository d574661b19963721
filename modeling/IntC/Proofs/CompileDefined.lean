import IntC.Proofs.CompileBlocks
import IntC.Proofs.Il.Defined

namespace IntC

section Lowered
variable {compiler : Compiler} {config : Config} {source : String} {file : Int} {code : Tac.Program}
  {symbols : SymbolTable}

/-- In the text for the code of a source, a temporary has a value on every path to an instruction that reads it, except
where it stands for a variable that its function reads and never gives a value. Such a one has a value on no path. -/
theorem qbe_defines_what_is_set (made : (compiler.compile config source file .lower).1 = .ok (.code code symbols))
    (wordSize : Int) :
    ∃ text program, Qbe.program symbols wordSize code = .ok text ∧ Il.Program.read? text = some program ∧
      List.Forall₂ (fun func il => il.name = func.name ∧ il.params = func.params ∧
        ∀ passed instr rest, Il.Path il.body passed (instr :: rest) →
          ∀ name ∈ instr.reads, Il.Defined il.params passed name ↔ ¬func.Lacks name)
        code.funcs program.funcs := by
  obtain ⟨tokens, tree, resolved, program, names, passes⟩ := exists_passes made
  obtain ⟨il, done, read, each⟩ := exists_il made wordSize
  refine ⟨_, il, done, read, List.forall₂_iff_zip.mpr ⟨each.length_eq, fun {func il} paired => ?_⟩⟩
  have member := (List.of_mem_zip paired).1
  have becomes := ((List.forall₂_iff_zip.mp each).2 paired).1
  obtain ⟨name, -, params⟩ := becomes.head
  refine ⟨name, params, fun passed instr rest path name reads => ?_⟩
  refine becomes.defined_iff (fun label inside => (passes.labels_plain member label inside).2) ?_ path reads
  exact fun instr inside name listed => isDotted_of_isTidy (passes.vars_tidy member instr inside name listed)

/-- The source adds a variable with a value to one without. -/
def halfSetSource : String := "int main(void) \x7b int a; int b = 1; return a + b; \x7d"

def halfSetFunc : Tac.Func where
  name := "main"
  global := true
  params := []
  body := [.copy (.const 1) (.var "b.1"), .binary .add (.var "a.0") (.var "b.1") (.var "tmp.2"), .ret (.var "tmp.2"),
    .ret (.const 0)]

/-- What the text for it is read as. -/
def halfSetIl : List Il.Instr := [
  .block "start", .assign "b.1" (.copy (.const 0)), .assign "tmp.2" (.copy (.const 0)),
  .assign "b.1" (.copy (.const 1)), .assign "tmp.2" (.binary .add (.temp "a.0") (.temp "b.1")), .ret (.temp "tmp.2"),
  .block ".b1", .ret (.const 0)]

def Product.isHalfSet : Product → Bool
  | .code made symbols => made.funcs = [halfSetFunc] ∧
    (Qbe.program symbols 4 made).toOption.bind (fun text => (Il.Program.read? text).map Il.Program.funcs) =
      some [⟨true, "main", [], halfSetIl⟩]
  | _ => false

def halfSet : Sample .lower Product.isHalfSet where
  source := halfSetSource
  passes := by decide +kernel

theorem exists_halfSet : ∃ code symbols text program,
    (Compiler.compile {} {} halfSetSource 0 .lower).1 = .ok (.code code symbols) ∧ code.funcs = [halfSetFunc] ∧
    Qbe.program symbols 4 code = .ok text ∧ Il.Program.read? text = some program ∧
    program.funcs = [⟨true, "main", [], halfSetIl⟩] := by
  obtain ⟨code, symbols, made, shape⟩ := halfSet.exists_code
  obtain ⟨funcs, texts⟩ := of_decide_eq_true shape
  obtain ⟨text, written, texts⟩ := Option.bind_eq_some_iff.mp texts
  obtain ⟨program, read, same⟩ := Option.map_eq_some_iff.mp texts
  exact ⟨code, symbols, text, program, made, funcs, eq_ok_of_toOption written, read, same⟩

theorem halfSet_path : Il.Path halfSetIl (halfSetIl.take 4) (halfSetIl.drop 4) :=
  .on (.on (.on (.on .start rfl) rfl) rfl) rfl

/-- The sum reads a variable that has a value on the path to it, and one that has none. -/
theorem qbe_defines_what_is_set_halfSet : ∃ code symbols text,
    (Compiler.compile {} {} halfSetSource 0 .lower).1 = .ok (.code code symbols) ∧
    Qbe.program symbols 4 code = .ok text ∧ Il.Defined [] (halfSetIl.take 4) "b.1" ∧
    ¬Il.Defined [] (halfSetIl.take 4) "a.0" := by
  obtain ⟨code, symbols, text, program, made, funcs, written, read, ils⟩ := exists_halfSet
  obtain ⟨other, again, writtenToo, readToo, each⟩ := qbe_defines_what_is_set made 4
  cases Except.ok.inj (written.symm.trans writtenToo)
  cases Option.some.inj (read.symm.trans readToo)
  rw [funcs, ils] at each
  obtain - | ⟨⟨-, -, defined⟩, -⟩ := each
  have set : ¬halfSetFunc.Lacks "b.1" := by unfold Tac.Func.Lacks; decide
  have unset : halfSetFunc.Lacks "a.0" := by unfold Tac.Func.Lacks; decide
  refine ⟨code, symbols, text, made, written, ?_, ?_⟩
  · exact (defined _ _ _ halfSet_path "b.1" (by decide)).mpr set
  · exact fun has => (defined _ _ _ halfSet_path "a.0" (by decide)).mp has unset

/-- So it is not true that every temporary that is read has a value: in the text for this source, there is a path to an
instruction that reads one, which is no parameter, and which no instruction at all gives a value. -/
theorem qbe_reads_undefined : ∃ code symbols text program il passed instr rest name,
    (Compiler.compile {} {} halfSetSource 0 .lower).1 = .ok (.code code symbols) ∧
    Qbe.program symbols 4 code = .ok text ∧ Il.Program.read? text = some program ∧ il ∈ program.funcs ∧
    Il.Path il.body passed (instr :: rest) ∧ name ∈ instr.reads ∧ name ∉ il.params ∧
    ∀ other ∈ il.body, other.sets? ≠ some name := by
  obtain ⟨code, symbols, text, program, made, -, written, read, ils⟩ := exists_halfSet
  refine ⟨code, symbols, text, program, _, _, _, _, "a.0", made, written, read, ils ▸ List.mem_singleton_self _,
    halfSet_path, ?_, ?_, ?_⟩
  · decide
  · decide
  · decide

end Lowered

end IntC
