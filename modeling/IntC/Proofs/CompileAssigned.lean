import IntC.Proofs.CompilePasses
import IntC.Proofs.CompileRun
import IntC.Proofs.Tac.LoweringAssigned

namespace IntC

namespace Tac

theorem Instr.exists_writes {instr : Instr} (complete : instr.isComplete = true) (operates : instr.operates = true) :
    ∃ name, instr.writes? = some name := by
  cases instr with
  | unary op source dest | call callee args dest | binary op left right dest =>
    cases dest with
    | var name => exact ⟨name, rfl⟩
    | const | absent => simp [Instr.isComplete, Value.isVar] at complete
  | _ => cases operates

/-- What an operation writes is an intermediate value, and no other instruction writes it. -/
theorem Writes.alone {bound first last : Nat} {before after : List Instr} {instr : Instr} {name : String}
    (writes : Writes bound first last (before ++ instr :: after)) (le : bound ≤ first)
    (operates : instr.operates = true) (wrote : instr.writes? = some name) :
    Temporary first last name ∧ ∀ other ∈ before ++ after, other.writes? ≠ some name := by
  have among : name ∈ Tac.results (before ++ instr :: after) := mem_results.mpr ⟨instr, by simp, operates, wrote⟩
  have temporary := writes.results name among
  refine ⟨temporary, fun other member also => ?_⟩
  cases kind : other.operates with
  | true =>
    have distinct := writes.distinct
    have elsewhere : name ∈ Tac.results (before ++ after) := mem_results.mpr ⟨other, member, kind, also⟩
    simp only [Tac.results, List.filter_append, List.filter_cons, operates, if_true, List.filterMap_append,
      List.filterMap_cons, wrote] at distinct elsewhere
    exact (List.nodup_cons.mp (List.nodup_middle.mp distinct)).1 elsewhere
  | false =>
    have copied : name ∈ Tac.copies (before ++ instr :: after) := by
      refine mem_copies.mpr ⟨other, ?_, kind, also⟩
      rcases List.mem_append.mp member with early | late
      · exact List.mem_append_left _ early
      · exact List.mem_append_right _ (List.mem_cons_of_mem _ late)
    rcases writes.copies name copied with old | new
    · exact temporary.not_before le old
    · exact new.2 among

/-- Along every path of code that runs well, an intermediate value is written before it is read. -/
theorem Runs.written {bound first last : Nat} {body passed rest : List Instr} {instr : Instr} {name : String}
    (runs : Runs bound [] body) (distinct : (labels body).Nodup) (le : bound ≤ first)
    (path : Path body passed (instr :: rest)) (reads : .var name ∈ instr.reads) (temporary : Temporary first last name) :
    ∃ earlier ∈ passed, earlier.writes? = some name := by
  obtain ⟨table, assured⟩ := runs.exists_table distinct
  obtain ⟨known, written, here⟩ := assured.path path
  rcases here.ready _ reads name rfl with old | found
  · exact absurd old (temporary.not_before le)
  · exact written name found

end Tac

/-- In the code of a source, every intermediate value is written on each path to an instruction that reads it, whichever
way the jumps go. The result of every operation and every call is an intermediate value that no other instruction of the
program writes. Intermediate values are named while code is lowered, with the numbers from where validation stops. -/
theorem lower_writes_before_reads {compiler : Compiler} {config : Config} {source : String} {file : Int}
    {code : Tac.Program} {symbols : SymbolTable} {first last : Nat}
    (made : (compiler.compile config source file .lower).1 = .ok (.code code symbols))
    (starts : (compiler.compile config source file .validate).2.names.next = first)
    (ends : (compiler.compile config source file .lower).2.names.next = last) :
    (∀ func ∈ code.funcs, ∀ passed instr rest, Tac.Path func.body passed (instr :: rest) →
      ∀ name, .var name ∈ instr.reads → Temporary first last name → ∃ earlier ∈ passed, earlier.writes? = some name) ∧
    ∀ before instr after, code.funcs.flatMap Tac.Func.body = before ++ instr :: after → instr.operates = true →
      ∃ name, instr.writes? = some name ∧ Temporary first last name ∧
        ∀ other ∈ before ++ after, other.writes? ≠ some name := by
  obtain ⟨tokens, tree, resolved, program, -, lowered, passes⟩ := exists_checked made
  have accepted := passes.accepted
  rw [starts] at accepted
  obtain ⟨writes, runs⟩ := (accepted.lower_performs _).of_ok lowered
  rw [starts, ends] at writes
  have sound := sound_of_compile made
  constructor
  · intro func member passed instr rest path name reads temporary
    have distinct : (Tac.labels func.body).Nodup := (sound func member).1.distinct
    exact (runs func member).written distinct (Nat.le_refl _) path reads temporary
  · intro before instr after split operates
    have inside : instr ∈ code.funcs.flatMap Tac.Func.body := by simp [split]
    obtain ⟨func, member, among⟩ := List.mem_flatMap.mp inside
    obtain ⟨name, wrote⟩ := Tac.Instr.exists_writes ((sound func member).2 instr among) operates
    rw [split] at writes
    exact ⟨name, wrote, writes.alone (Nat.le_refl _) operates wrote⟩

/-- The source gives one of two values back. -/
def choosingSource : String := "int main(void) \x7b int a = 1; return a ? a + 3 : 4; \x7d"

/-- Its body has two ways to the first return. -/
def choosingBody : List Tac.Instr := [
  .copy (.const 1) (.var "a.0"), .jumpIfZero (.var "a.0") "conditional_else.1",
  .binary .add (.var "a.0") (.const 3) (.var "tmp.2"), .copy (.var "tmp.2") (.var "tmp.3"), .jump "conditional_end.4",
  .label "conditional_else.1", .copy (.const 4) (.var "tmp.3"),
  .label "conditional_end.4", .ret (.var "tmp.3"), .ret (.const 0)]

def Product.isChoosing : Product → Bool
  | .code made _ => made.funcs = [⟨"main", true, [], choosingBody⟩]
  | _ => false

/-- A sample, with the numbers that its lowering makes names of. -/
structure NumberedSample (test : Product → Bool) extends Sample .lower test where
  first : Nat
  last : Nat
  starts : (Compiler.compile {} config source 0 .validate).2.names.next = first
  ends : (Compiler.compile {} config source 0 .lower).2.names.next = last

def choosing : NumberedSample Product.isChoosing where
  source := choosingSource
  passes := by decide +kernel
  first := 1
  last := 5
  starts := by decide +kernel
  ends := by decide +kernel

theorem lower_writes_before_reads_choosing : ∃ code symbols passed,
    (Compiler.compile {} {} choosingSource 0 .lower).1 = .ok (.code code symbols) ∧
    code.funcs = [⟨"main", true, [], choosingBody⟩] ∧
    Tac.Path choosingBody passed [.ret (.var "tmp.3"), .ret (.const 0)] ∧ Temporary 1 5 "tmp.3" ∧
    (∃ earlier ∈ passed, earlier.writes? = some "tmp.3") ∧ Temporary 1 5 "tmp.2" := by
  obtain ⟨code, symbols, made, shape⟩ := choosing.exists_code
  have body : code.funcs = [⟨"main", true, [], choosingBody⟩] := of_decide_eq_true shape
  obtain ⟨written, alone⟩ := lower_writes_before_reads made choosing.starts choosing.ends
  have path : Tac.Path choosingBody (choosingBody.take 2 ++ [choosingBody[6], choosingBody[7]])
      [.ret (.var "tmp.3"), .ret (.const 0)] := by
    have test : Tac.Path choosingBody (choosingBody.take 1) (choosingBody.drop 1) := .on .start rfl
    have other : Tac.Path choosingBody (choosingBody.take 2) (choosingBody.drop 6) := .jump test rfl rfl
    exact .on (.on other rfl) rfl
  have temporary : Temporary 1 5 "tmp.3" := ⟨3, by decide, by decide, rfl⟩
  refine ⟨code, symbols, _, made, body, path, temporary, ?_, ?_⟩
  · exact written _ (body ▸ List.mem_singleton_self _) _ _ _ path "tmp.3" (List.mem_singleton_self _) temporary
  · have place : code.funcs.flatMap Tac.Func.body = choosingBody.take 2 ++ choosingBody[2] :: choosingBody.drop 3 := by
      rw [body]
      rfl
    obtain ⟨name, wrote, fits, -⟩ := alone _ _ _ place rfl
    cases wrote
    exact fits

end IntC
