import IntC.Proofs.CompilePasses
import IntC.Proofs.Tac.LoweringKinds

namespace IntC

section Kinds
variable {compiler : Compiler} {config : Config} {source : String} {file : Int} {code : Tac.Program}
  {symbols : SymbolTable}

/-- The table that the checker leaves behind has all that its steps have found out. -/
theorem Passes.steps_shown {tokens : List Token} {tree resolved program : Program} {names : NameSupply}
    (passes : Passes source file tokens tree resolved program symbols names code) :
    ∀ step ∈ program.checkSteps, step.Shown symbols := by
  obtain ⟨before, after, renamed, labelled⟩ := passes.renamed
  obtain ⟨last, checked, rfl⟩ := passes.checked
  have separate := separate_of_labelled (written_of_parse passes.lexed passes.parsed) renamed labelled
  rw [Program.check_eq] at checked
  rw [← List.append_nil program.checkSteps] at separate
  exact CheckStep.shown_runAll separate checked

theorem Passes.funcs_kinded {tokens : List Token} {tree resolved program : Program} {names : NameSupply}
    (passes : Passes source file tokens tree resolved program symbols names code) :
    ∀ func ∈ code.funcs, Tac.CodeKinded symbols func.body ∧ symbols.Takes func.name func.params.length := by
  have each := passes.forall₂ fun made among func first last le lowered => by
    obtain ⟨inside, defined⟩ := mem_definitions.mp among
    exact lowered.kinds passes.accepted.sound le defined fun step listed =>
      passes.steps_shown step (List.mem_flatMap.mpr ⟨_, inside, listed⟩)
  intro func member
  obtain ⟨made, -, kinded⟩ := exists_of_mem_right each member
  exact kinded

/-- What the checker has accepted stays well used down to the code, whatever the order of declarations and uses: every
variable of an instruction is a variable of the table or an intermediate value, and every call names a function of the
table with as many parameters as there are arguments. The function of that name in the code, if there is one, has that
many as well. -/
theorem lower_keeps_kinds (made : (compiler.compile config source file .lower).1 = .ok (.code code symbols)) :
    ∀ func ∈ code.funcs, ∀ instr ∈ func.body,
      (∀ name, .var name ∈ instr.values → symbols.IsVariable name ∨ symbols.IsTemporary name) ∧
      ∀ callee args dest, instr = .call callee args dest → symbols.Takes callee args.length ∧
        ∀ other ∈ code.funcs, other.name = callee → other.params.length = args.length := by
  obtain ⟨tokens, tree, resolved, program, names, passes⟩ := exists_passes made
  have kinded := passes.funcs_kinded
  intro func member instr among
  obtain ⟨values, calls⟩ := (kinded func member).1 instr among
  refine ⟨fun name listed => values _ listed name rfl, fun callee args dest same => ?_⟩
  have takes := calls callee args dest same
  refine ⟨takes, fun other inside named => ?_⟩
  exact (named ▸ (kinded other inside).2).unique takes

/-- The source calls a function that is declared in a block, then called, and defined only behind the call. -/
def forwardSource : String :=
  "int n; int main(void) \x7b int sum(int a, int b); int k = sum(n, 2) ; return k + n; \x7d " ++
    "int sum(int x, int y) \x7b static int n = 3; return x * y - n; \x7d"

def Tac.Instr.callee? : Tac.Instr → Option (String × Nat)
  | .call callee args _ => some (callee, args.length)
  | _ => none

def Product.isForward : Product → Bool
  | .code code _ => (code.funcs.map fun func => (func.name, func.params.length, func.body.filterMap Tac.Instr.callee?)) =
      [("main", 0, [("sum", 2)]), ("sum", 2, [])]
  | _ => false

def forward : Sample .lower Product.isForward where
  source := forwardSource
  passes := by decide +kernel

theorem lower_keeps_kinds_forward : ∃ code symbols,
    (Compiler.compile {} {} forwardSource 0 .lower).1 = .ok (.code code symbols) ∧
    (code.funcs.map fun func => (func.name, func.params.length, func.body.filterMap Tac.Instr.callee?)) =
      [("main", 0, [("sum", 2)]), ("sum", 2, [])] ∧
    ∀ func ∈ code.funcs, ∀ instr ∈ func.body,
      (∀ name, .var name ∈ instr.values → symbols.IsVariable name ∨ symbols.IsTemporary name) ∧
      ∀ callee args dest, instr = .call callee args dest → symbols.Takes callee args.length := by
  obtain ⟨code, symbols, made, shape⟩ := forward.exists_code
  refine ⟨code, symbols, made, of_decide_eq_true shape, fun func member instr among => ?_⟩
  obtain ⟨values, calls⟩ := lower_keeps_kinds made func member instr among
  exact ⟨values, fun callee args dest same => (calls callee args dest same).1⟩

end Kinds

end IntC
