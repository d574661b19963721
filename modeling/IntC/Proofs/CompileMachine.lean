import IntC.Proofs.CompileRun
import IntC.Proofs.CompileWeight
import IntC.Proofs.Machine.Stack

namespace IntC

section Lowered
variable {compiler : Compiler} {config : Config} {source : String} {file : Int} {code : Tac.Program}
  {symbols : SymbolTable}

/-- The code that comes from a source is lowered to the machine, function by function. -/
theorem exists_lower_of_compile (made : (compiler.compile config source file .lower).1 = .ok (.code code symbols))
    (align : Int) :
    ∃ machine, Machine.lower code symbols align = .ok machine ∧
      ∀ func ∈ machine.funcs, ∃ origin ∈ code.funcs, ∃ selected, Machine.selectFunc origin = .ok selected ∧
        func = selected.finished symbols align := by
  obtain ⟨funcs, each, lowered⟩ := Machine.exists_lower_eq symbols align fun func member =>
    (sound_of_compile made func member).2
  refine ⟨_, lowered, fun func member => ?_⟩
  obtain ⟨selected, among, rfl⟩ := List.mem_map.mp member
  obtain ⟨origin, inside, done⟩ := exists_of_mem_right each among
  exact ⟨origin, inside, selected, done, rfl⟩

/-- Every instruction that the code of a source is lowered to has a form on the machine. -/
theorem lower_makes_legal (made : (compiler.compile config source file .lower).1 = .ok (.code code symbols))
    (align : Int) :
    ∃ machine, Machine.lower code symbols align = .ok machine ∧
      ∀ func ∈ machine.funcs, ∀ instr ∈ func.instrs, instr.isLegal = true := by
  obtain ⟨tokens, tree, resolved, program, names, passes⟩ := exists_passes made
  obtain ⟨machine, lowered, origins⟩ := exists_lower_of_compile made align
  refine ⟨machine, lowered, fun func member => ?_⟩
  obtain ⟨origin, inside, selected, done, rfl⟩ := origins func member
  exact Machine.finished_isLegal symbols align done (sound_of_compile made origin inside).1.results
    fun instr among value listed => passes.const_fits inside among listed

/-- The source has products, quotients and comparisons of constants, and a call with more arguments than there
are registers for them. -/
def callingSource : String :=
  "int n; int sum(int a, int b, int c, int d, int e, int f, int g) \x7b return a * b - g; \x7d " ++
    "int main(void) \x7b while (1 < 2) n = sum(n, 2, 3, 4, 5, 6, 7) / 2; return 5 / n; \x7d"

def Product.isCalling : Product → Bool
  | .code code symbols =>
    (Machine.lower code symbols 16).toOption.any fun machine =>
      machine.funcs.map Machine.Func.name = ["sum", "main"]
  | _ => false

def calling : Sample .lower Product.isCalling where
  source := callingSource
  passes := by decide +kernel

theorem exists_calling : ∃ code symbols machine,
    (Compiler.compile {} {} callingSource 0 .lower).1 = .ok (.code code symbols) ∧
    Machine.lower code symbols 16 = .ok machine ∧ machine.funcs.map Machine.Func.name = ["sum", "main"] := by
  obtain ⟨code, symbols, made, shape⟩ := calling.exists_code
  obtain ⟨machine, lowered, names⟩ := (Option.any_eq_true ..).mp shape
  exact ⟨code, symbols, machine, made, eq_ok_of_toOption lowered, of_decide_eq_true names⟩

theorem lower_makes_legal_calling : ∃ code symbols machine,
    (Compiler.compile {} {} callingSource 0 .lower).1 = .ok (.code code symbols) ∧
    Machine.lower code symbols 16 = .ok machine ∧ machine.funcs.map Machine.Func.name = ["sum", "main"] ∧
    ∀ func ∈ machine.funcs, ∀ instr ∈ func.instrs, instr.isLegal = true := by
  obtain ⟨code, symbols, machine, made, lowered, names⟩ := exists_calling
  obtain ⟨other, same, legal⟩ := lower_makes_legal made 16
  cases lowered.symm.trans same
  exact ⟨code, symbols, machine, made, lowered, names, legal⟩

theorem length_names_le (func : Tac.Func) : (Machine.names func).length ≤ func.weight .ones := by
  have params : (func.params.map Weights.ones.name).sum = func.params.length := by simp [Weights.ones]
  have values : ∀ values : List Tac.Value,
      (values.filterMap Machine.varName?).length ≤ (values.map (Tac.Value.weight .ones)).sum := by
    intro values
    induction values with
    | nil => exact le_rfl
    | cons value rest ih =>
      cases value <;> simp only [List.filterMap_cons, List.length_cons, List.map_cons, List.sum_cons,
        Machine.varName?, Tac.Value.weight, Weights.ones] at ih ⊢ <;> omega
  have body : (func.body.map fun instr => (instr.values.filterMap Machine.varName?).length).sum ≤
      Tac.codeWeight .ones func.body :=
    List.sum_le_sum fun instr _ => Nat.le_add_right_of_le (Nat.le_add_right_of_le (values instr.values))
  rw [Machine.names, List.length_append, List.length_flatMap, Tac.Func.weight, params]
  omega

/-- The discipline of the stack, on every path through a function that the code of a source is lowered to. Calls
find the stack aligned, control changes hands with just the frame there, and once the frame is reserved nothing
reaches into it: what is pushed lies below every slot. The last holds of every source that a machine with
addresses of fifty-seven bits can hold. -/
theorem lower_keeps_stack (made : (compiler.compile config source file .lower).1 = .ok (.code code symbols)) :
    ∃ machine, Machine.lower code symbols 16 = .ok machine ∧ ∀ func ∈ machine.funcs,
      func.instrs.head? = some (.allocate (Machine.roundUp func.stackSize 16)) ∧
      ∀ point, func.Reaches point →
        (∀ callee rest, point.rest = .call callee :: rest → 16 ∣ point.depth) ∧
        (∀ instr rest, point.rest = instr :: rest → instr.isControl = true →
          point.depth = Machine.roundUp func.stackSize 16) ∧
        (point ≠ ⟨func.instrs, 0⟩ → Machine.roundUp func.stackSize 16 ≤ point.depth ∧
          (source.length < 2 ^ 57 → func.stackSize ≤ point.depth ∧
            ∀ instr ∈ func.instrs, ∀ offset, .stack offset ∈ instr.operands → -point.depth ≤ offset)) := by
  obtain ⟨tokens, tree, resolved, program, names, passes⟩ := exists_passes made
  obtain ⟨machine, lowered, origins⟩ := exists_lower_of_compile made 16
  refine ⟨machine, lowered, fun func member => ?_⟩
  obtain ⟨origin, inside, selected, done, rfl⟩ := origins func member
  obtain ⟨nonneg, few, above⟩ := Machine.finished_lays symbols 16 done
  refine ⟨rfl, fun point reached => ?_⟩
  rcases Machine.finished_levelled symbols done reached with rfl | levelled
  · refine ⟨fun callee rest same => ?_, fun instr rest same control => ?_, fun other => absurd rfl other⟩
    · cases same
    · cases same
      cases control
  · refine ⟨fun callee rest same => ?_, fun instr rest same control => ?_, fun _ => ⟨levelled.le, fun short => ?_⟩⟩
    · rw [same] at levelled
      exact levelled.2.1 rfl
    · rw [same] at levelled
      exact levelled.2.2.1 control
    · have size := Nat.le_trans (length_names_le origin) (passes.func_size inside)
      have frame := Machine.le_roundUp nonneg (by omega)
      have deep := Int.le_trans frame levelled.le
      refine ⟨deep, fun instr among offset listed => ?_⟩
      have slot := above instr among offset listed
      omega

theorem lower_keeps_stack_calling : ∃ code symbols machine,
    (Compiler.compile {} {} callingSource 0 .lower).1 = .ok (.code code symbols) ∧
    Machine.lower code symbols 16 = .ok machine ∧ machine.funcs.map Machine.Func.name = ["sum", "main"] ∧
    ∀ func ∈ machine.funcs, ∀ point, func.Reaches point →
      (∀ callee rest, point.rest = .call callee :: rest → 16 ∣ point.depth) ∧
      (point ≠ ⟨func.instrs, 0⟩ → func.stackSize ≤ point.depth) := by
  obtain ⟨code, symbols, machine, made, lowered, names⟩ := exists_calling
  obtain ⟨other, same, keeps⟩ := lower_keeps_stack made
  cases lowered.symm.trans same
  have short : callingSource.length < 2 ^ 57 := by
    unfold callingSource
    rw [String.length_append]
    decide
  refine ⟨code, symbols, machine, made, lowered, names, fun func member point reached => ?_⟩
  obtain ⟨calls, -, frame⟩ := (keeps func member).2 point reached
  exact ⟨calls, fun behind => ((frame behind).2 short).1⟩

end Lowered

end IntC
