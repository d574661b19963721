import IntC.Proofs.Compile
import IntC.Proofs.Machine.SelectRun
import IntC.Proofs.Tac.LoweringRun
import Mathlib.Data.List.Chain

namespace IntC

/-- A source that passes validation is accepted, and what its lowering meets holds of the code that the
compiler makes of it. -/
theorem exists_code {compiler : Compiler} {config : Config} {source : String} {file : Int} {program : Program}
    {symbols : SymbolTable} (valid : (compiler.compile config source file .validate).1 = .ok (.checked program symbols)) :
    ∃ names : NameSupply, Accepted names.next program symbols ∧ ∀ {done : Tac.Program → Prop},
      Pass.Meets (program.lower symbols) names (fun code _ => done code) (fun _ => False) →
      ∃ code, (compiler.compile config source file .lower).1 = .ok (.code code symbols) ∧ done code := by
  have whole : Compilation.run config source file .validate { compiler with } =
      (.ok (.checked program symbols), (compiler.compile config source file .validate).2) := Prod.ext valid rfl
  obtain ⟨⟨found, table⟩, after, fine, accepted, same⟩ := Compilation.exists_front (by decide) (by decide) whole
  cases same
  refine ⟨_, accepted, fun meets => ?_⟩
  obtain ⟨code, last, lowered, good⟩ := (Compilation.lower_meets meets).exists_ok
  refine ⟨code, ?_, good⟩
  have made : Compilation.run config source file .lower { compiler with } = (.ok (.code code table), last) := by
    rw [Compilation.run_eq (by decide) (by decide)]
    exact Pass.bind_eq_ok.mpr ⟨_, _, fine, Pass.bind_eq_ok.mpr ⟨code, last, lowered, rfl⟩⟩
  exact congrArg Prod.fst made

/-- Lowering keeps the meaning of every function that an accepted source defines. However its variables
start and whatever the functions it calls do, where its body returns a value the code comes to return the
same one, after the same calls and with the same values in all variables. -/
theorem lower_keeps_meaning {compiler : Compiler} {config : Config} {source : String} {file : Int} {program : Program}
    {symbols : SymbolTable} (valid : (compiler.compile config source file .validate).1 = .ok (.checked program symbols)) :
    ∃ code, (compiler.compile config source file .lower).1 = .ok (.code code symbols) ∧
      List.Forall₂ (fun made func => func.name = made.1.name ∧ func.params = made.1.params.map Param.name ∧
        ∀ (answer : String → List Word → Store → Word × Store) (start : Memory) (value : Word) (final : Memory),
          made.2.Returns ⟨symbols.isStatic, answer⟩ start value final →
          ∃ last, Tac.Returns ⟨symbols.isStatic, answer⟩ func.body start value last ∧ last.calls = final.calls ∧
            ∀ name symbol, symbols.get? name = some symbol → last.store name = final.store name)
        (definitions program.items) code.funcs := by
  obtain ⟨names, accepted, transfer⟩ := exists_code valid
  obtain ⟨code, done, all⟩ := transfer (accepted.lower_preserves names (Nat.le_refl _))
  refine ⟨code, done, all.imp ?_⟩
  rintro made func ⟨name, params, preserves⟩
  refine ⟨name, params, fun answer start value final returns => ?_⟩
  obtain ⟨last, reached, agrees⟩ := preserves answer start value final returns
  exact ⟨last, reached, agrees.calls, fun key symbol found => agrees.store key (accepted.sound key symbol found).2⟩

/-- The source counts a global variable up to one. -/
def countingSource : String := "int n; int main(void) \x7b while (n < 1) n = n + 1; return n; \x7d"

/-- Whether a product is the program of that source, up to places in the text. -/
def Product.isCounting : Product → Bool
  | .checked ⟨_, [.var _, .func ⟨_, name, _, some ⟨_, [
      .stmt (.whileLoop _ (.binary _ .less (.ident _ tested) (.number _ limit))
        (.expr _ (.assign _ (.ident _ counted) (.binary _ .plus (.ident _ old) (.number _ step)))) _),
      .stmt (.ret _ (.ident _ result))]⟩, _⟩]⟩ _ =>
    decide ((name, tested, limit, counted, old, step, result) = ("main", "n", 1, "n", "n", 1, "n"))
  | _ => false

def counting : Sample .validate Product.isCounting where
  source := countingSource
  passes := by decide +kernel

theorem lower_keeps_meaning_counting : ∃ program symbols code,
    (Compiler.compile {} {} countingSource 0 .validate).1 = .ok (.checked program symbols) ∧
    (Compiler.compile {} {} countingSource 0 .lower).1 = .ok (.code code symbols) ∧
    ∃ func ∈ code.funcs, func.name = "main" ∧ ∀ answer, ∃ last,
      Tac.Returns ⟨symbols.isStatic, answer⟩ func.body { store := fun _ => 0 } 1 last ∧ last.calls = [] := by
  obtain ⟨product, valid, shape⟩ := counting.exists_product
  unfold Product.isCounting at shape
  split at shape
  · cases of_decide_eq_true shape
    obtain ⟨code, done, all⟩ := lower_keeps_meaning valid
    refine ⟨_, _, code, valid, done, ?_⟩
    generalize code.funcs = funcs at all ⊢
    cases all with
    | cons here _ =>
      obtain ⟨name, -, preserves⟩ := here
      refine ⟨_, List.mem_cons_self .., name, fun answer => ?_⟩
      let final : Memory := Memory.set { store := fun _ => 0 } "n" 1
      have returns := preserves answer { store := fun _ => 0 } 1 final ?_
      · obtain ⟨last, reached, calls, -⟩ := returns
        exact ⟨last, reached, calls⟩
      · refine .inl ⟨.normal, final, ?_, ?_⟩
        · exact .next rfl ⟨rfl, rfl⟩ (.inl rfl) rfl (.stop rfl)
        · exact ⟨_, _, ⟨.named "n", rfl, rfl⟩, rfl, rfl⟩
  · cases shape

/-- Instructions can be selected for every function that comes from a source. -/
theorem sound_of_compile {compiler : Compiler} {config : Config} {source : String} {file : Int} {code : Tac.Program}
    {symbols : SymbolTable} (made : (compiler.compile config source file .lower).1 = .ok (.code code symbols)) :
    ∀ func ∈ code.funcs, func.Sound ∧ ∀ instr ∈ func.body, instr.isComplete = true := by
  have whole : Compilation.run config source file .lower { compiler with } =
      (.ok (.code code symbols), (compiler.compile config source file .lower).2) := Prod.ext made rfl
  obtain ⟨⟨program, table⟩, after, -, accepted, rest⟩ := Compilation.exists_front (by decide) (by decide) whole
  obtain ⟨lowered, last, done, same⟩ := Pass.bind_eq_ok.mp rest
  cases same
  exact (Compilation.lower_meets (accepted.lower_sound _ le_rfl)).of_ok done

/-- Selection keeps the runs of every sound function. However its variables start and whatever its calls
do, the selected instructions pass a point for each point of the run, with the same values in all
variables and the same calls behind them, and where the function returns a value they go on to a return
with the value in its register. If every callee takes one number of arguments, they come to no other
return. Every function with complete instructions is selected, and what comes from a source is sound and
complete. -/
theorem select_keeps_runs :
    (∀ (func : Tac.Func) (machine : Machine.Func), func.Sound → Machine.selectFunc func = .ok machine →
      ∃ code, machine.instrs = Machine.paramMoves func.params ++ code ∧
        ∀ (world : World) (cpu : Machine.Processor) (takes : String → Nat → Prop)
          (leave : String → Machine.State → (Machine.Reg → Word) × Machine.Flags) (start : Memory)
          (state : Machine.State), Machine.Holds start state.pushed state →
          (∀ callee args dest, .call callee args dest ∈ func.body → takes callee args.length) →
          (∀ points : List Tac.Config, (⟨func.body, start⟩ :: points).IsChain (Tac.Step world func.body) →
            ∃ companions,
              (⟨code, state⟩ :: companions).IsChain
                (Machine.Steps (Machine.hosted world cpu takes leave) machine.instrs) ∧
              List.Forall₂ (fun c d => Machine.Mirrors func.name state.pushed c d ∧
                ∀ value, c.returned? = some value → ∃ rest last,
                  Machine.Steps (Machine.hosted world cpu takes leave) machine.instrs d ⟨.ret :: rest, last⟩ ∧
                  last.regs .ax = value ∧ Machine.Holds c.memory state.pushed last)
                (⟨func.body, start⟩ :: points) (⟨code, state⟩ :: companions)) ∧
          ((∀ callee m n, takes callee m → takes callee n → m = n) → ∀ rest last,
            Machine.Steps (Machine.hosted world cpu takes leave) machine.instrs ⟨code, state⟩ ⟨.ret :: rest, last⟩ →
            ∃ final, Tac.Returns world func.body start (last.regs .ax) final ∧
              Machine.Holds final state.pushed last)) ∧
    (∀ func : Tac.Func, (∀ instr ∈ func.body, instr.isComplete = true) →
      ∃ machine, Machine.selectFunc func = .ok machine) ∧
    ∀ (compiler : Compiler) (config : Config) (source : String) (file : Int) (code : Tac.Program)
      (symbols : SymbolTable), (compiler.compile config source file .lower).1 = .ok (.code code symbols) →
      ∀ func ∈ code.funcs, func.Sound ∧ ∀ instr ∈ func.body, instr.isComplete = true := by
  refine ⟨fun func machine sound selected => ?_, fun func complete => Machine.exists_selectFunc complete,
    fun _ _ _ _ _ _ made => sound_of_compile made⟩
  obtain ⟨code, same, selects⟩ := Machine.selectFunc_eq_ok selected
  refine ⟨code, same, fun world cpu takes leave start state holds allowed => ?_⟩
  rw [same]
  refine ⟨fun points run => ?_, fun single rest last run => ?_⟩
  · have first : Machine.Mirrors func.name state.pushed ⟨func.body, start⟩ ⟨code, state⟩ := ⟨selects, holds⟩
    obtain ⟨companions, chain, pointwise⟩ :=
      (selects.tracks sound allowed).follows.run ⟨first, List.suffix_rfl⟩ run
    exact ⟨companions, chain, pointwise.imp fun c d both => ⟨both.1, fun value returned => both.1.returned returned⟩⟩
  · exact selects.returns_back sound allowed single holds run

/-- A function that reports its parameter to another one while it counts it down, and returns the last
answer. -/
def countdownFunc : Tac.Func where
  name := "countdown"
  global := true
  params := ["n"]
  body := [.label "again", .jumpIfZero (.var "n") "done", .call "report" [.var "n"] (.var "answer"),
    .binary .sub (.var "n") (.const 1) (.var "n"), .jump "again", .label "done", .ret (.var "answer")]

theorem select_keeps_runs_countdown : countdownFunc.Sound ∧
    ∃ machine code, Machine.selectFunc countdownFunc = .ok machine ∧
      machine.instrs = Machine.paramMoves ["n"] ++ code ∧
      ∀ (answer : String → List Word → Store → Word × Store) (cpu : Machine.Processor)
        (leave : String → Machine.State → (Machine.Reg → Word) × Machine.Flags) (state : Machine.State),
        state.pseudos = (fun _ => 1) → state.calls = [] → ∃ rest last,
          Machine.Steps (Machine.hosted ⟨fun _ => false, answer⟩ cpu (fun _ count => count = 1) leave) machine.instrs
            ⟨code, state⟩ ⟨.ret :: rest, last⟩ ∧ last.calls = [("report", [1])] ∧
          last.regs .ax = (answer "report" [1] fun _ => 0).1 := by
  have sound : countdownFunc.Sound := ⟨by decide, by decide, by decide, by decide⟩
  obtain ⟨machine, selected⟩ := select_keeps_runs.2.1 countdownFunc (by decide)
  obtain ⟨code, same, runs⟩ := select_keeps_runs.1 countdownFunc machine sound selected
  refine ⟨sound, machine, code, selected, same, fun answer cpu leave state ones none => ?_⟩
  let world : World := ⟨fun _ => false, answer⟩
  have allowed : ∀ callee args dest, Tac.Instr.call callee args dest ∈ countdownFunc.body → args.length = 1 := by
    intro callee args dest member
    simp only [countdownFunc, List.mem_cons, reduceCtorEq, false_or, or_false, List.not_mem_nil,
      Tac.Instr.call.injEq] at member
    rw [member.2.1]
    rfl
  let start : Memory := { store := fun _ => 1 }
  let called : Memory := (world.call "report" [1] start).2.set "answer" (world.call "report" [1] start).1
  have count : called.store "n" = 1 := Memory.set_other _ _ (by decide)
  have run : [⟨countdownFunc.body, start⟩, ⟨countdownFunc.body.drop 1, start⟩, ⟨countdownFunc.body.drop 2, start⟩,
      ⟨countdownFunc.body.drop 3, called⟩, ⟨countdownFunc.body.drop 4, called.set "n" 0⟩,
      ⟨countdownFunc.body.drop 1, called.set "n" 0⟩, ⟨countdownFunc.body.drop 6, called.set "n" 0⟩].IsChain
      (Tac.Step world countdownFunc.body) := by
    refine .cons_cons .label (.cons_cons (.notZero rfl (by decide)) (.cons_cons (.call (.cons rfl .nil) rfl)
      (.cons_cons (.binary rfl rfl (by rw [count]; rfl)) (.cons_cons (.jump rfl)
        (.cons_cons (.zero rfl rfl) (.singleton _))))))
  obtain ⟨companions, chain, pointwise⟩ :=
    (runs world cpu (fun _ count => count = 1) leave start state ⟨ones, none, rfl⟩ allowed).1 _ run
  rcases pointwise with _ | ⟨_, _ | ⟨_, _ | ⟨_, _ | ⟨_, _ | ⟨_, _ | ⟨_, _ | ⟨⟨-, returns⟩, _ | _⟩⟩⟩⟩⟩⟩⟩
  obtain ⟨rest, last, more, value, held⟩ := returns _ rfl
  have there := List.relationReflTransGen_of_exists_isChain_cons _ chain rfl
  rw [Relation.reflTransGen_eq_self] at there
  refine ⟨rest, last, there.trans more, held.calls, ?_⟩
  rw [value, Memory.set_other _ _ (by decide), Memory.set_same]
  rfl

end IntC
