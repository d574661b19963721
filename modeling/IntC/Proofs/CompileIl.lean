import IntC.Proofs.CompileLabels
import IntC.Proofs.Il.WritingRun

namespace IntC

theorem isName_of_isTame {name : String} (tame : isTame name = true) : Il.isName name = true := by
  have none : Il.special.all (fun c => !(isWordChar c || c = '.')) = true := by decide
  refine List.all_eq_true.mpr fun c member => Il.isPlain_iff.mpr fun special => ?_
  have other := List.all_eq_true.mp none c special
  rw [List.all_eq_true.mp tame c member] at other
  cases other

theorem isDotted_of_isTidy {name : String} (tidy : isTidy name = true) : isDotted name = false := by
  have start := (Bool.and_eq_true_iff.mp tidy).1
  refine decide_eq_false fun dotted => ?_
  rw [dotted] at start
  exact absurd start (by decide)

section Passed
variable {source : String} {file : Int} {tokens : List Token} {tree resolved program : Program}
  {symbols : SymbolTable} {names : NameSupply} {code : Tac.Program} {func : Tac.Func}
  (passes : Passes source file tokens tree resolved program symbols names code)
include passes

theorem Passes.vars_tidy (member : func ∈ code.funcs) :
    ∀ instr ∈ func.body, ∀ name, .var name ∈ instr.values → isTidy name = true := by
  obtain ⟨-, known, -⟩ := passes.func_tidy member
  intro instr inside name listed
  exact known name (List.mem_append_right _ (List.mem_flatMap.mpr ⟨instr, inside, List.mem_filterMap.mpr ⟨_, listed, rfl⟩⟩))

theorem Passes.labels_plain (member : func ∈ code.funcs) :
    ∀ name ∈ Tac.labels func.body, isDotted name = false ∧ name ≠ "start" := by
  obtain ⟨-, -, named⟩ := passes.func_tidy member
  intro name inside
  refine ⟨isDotted_of_isTidy (named _ (Tac.mem_labels.mp inside) name (List.mem_singleton_self _)), ?_⟩
  rintro rfl
  exact passes.labels_unspelled member inside (by unfold Spelled; decide)

theorem Passes.names_read (member : func ∈ code.funcs) {table : SymbolTable} {il : Il.Func}
    (becomes : Qbe.FuncBecomes table func il) : ∀ line ∈ il.lines, ∀ name ∈ line.names, Il.isName name = true := by
  have read : ∀ {name}, isTidy name = true → Il.isName name = true := fun tidy => isName_of_isTame (isTame_of_isTidy tidy)
  obtain ⟨name, known, named⟩ := passes.func_tidy member
  exact becomes.names Qbe.isName_tempName Qbe.isName_blockName (by decide) (read name)
    (fun name inside => read (known name (List.mem_append_left _ inside)))
    (fun instr inside name listed => read (passes.vars_tidy member instr inside name listed))
    fun instr inside name listed => read (named instr inside name listed)

end Passed

section Lowered
variable {compiler : Compiler} {config : Config} {source : String} {file : Int} {code : Tac.Program}
  {symbols : SymbolTable}

/-- The text for the code of a source can be read, and every function in it does what the code does: for all arguments,
all values of static variables and all answers to calls, where the code returns a value, the text returns it after the
same calls, with the same values left in static variables. -/
theorem qbe_keeps_returns (made : (compiler.compile config source file .lower).1 = .ok (.code code symbols))
    (wordSize : Int) :
    ∃ text program, Qbe.program symbols wordSize code = .ok text ∧ Il.Program.read? text = some program ∧
      List.Forall₂ (fun func il => il.name = func.name ∧ il.global = func.global ∧ il.params = func.params ∧
        ∀ answer args statics value final,
          Tac.Returns ⟨symbols.isStatic, answer⟩ func.body
            ⟨fun name => if symbols.isStatic name then statics name else arguments func.params args name, []⟩ value final →
          ∃ last, Il.Func.Returns ⟨symbols.isStatic, answer⟩ il args statics value last ∧
            last.memory.calls = final.calls ∧
            ∀ name, symbols.isStatic name = true → last.memory.store name = final.store name)
        code.funcs program.funcs := by
  obtain ⟨tokens, tree, resolved, program, names, passes⟩ := exists_passes made
  obtain ⟨funcs, done, becomes⟩ := Qbe.program_becomes symbols wordSize fun func member =>
    (sound_of_compile made func member).2
  have lawful : ∀ {func il}, func ∈ code.funcs → Qbe.FuncBecomes symbols func il → il.isLawful = true := by
    intro func il member becomes
    obtain ⟨-, -, -, front, whole⟩ := exists_of_mem_right passes.funcs_end member
    exact becomes.lawful (sound_of_compile made func member).1 ⟨front, _, whole⟩ (passes.labels_plain member)
  refine ⟨_, _, done, Il.Program.read?_written (fun il member => ?_) ?_, ?_⟩
  · obtain ⟨func, among, becomes⟩ := exists_of_mem_right becomes member
    exact lawful among becomes
  · refine List.forall_mem_append.mpr ⟨?_, ?_⟩
    · simp only [List.forall_mem_map, Il.Line.names, List.forall_mem_singleton]
      exact fun var member => isName_of_isTame (isTame_of_isTidy (passes.statics_tidy var member))
    · intro line member
      obtain ⟨il, among, inside⟩ := List.mem_flatMap.mp member
      obtain ⟨func, origin, becomes⟩ := exists_of_mem_right becomes among
      exact passes.names_read origin becomes line inside
  · refine List.forall₂_iff_zip.mpr ⟨becomes.length_eq, fun {func il} paired => ?_⟩
    have member := (List.of_mem_zip paired).1
    have becomes := (List.forall₂_iff_zip.mp becomes).2 paired
    have renders := becomes.renders (lawful member becomes) (passes.labels_plain member) fun instr inside name listed =>
      isDotted_of_isTidy (passes.vars_tidy member instr inside name listed)
    obtain ⟨name, global, params⟩ := becomes.head
    refine ⟨name, global, params, fun answer args statics value final returns => ?_⟩
    obtain ⟨last, returnsToo, mirrors⟩ := becomes.returns renders rfl returns
    exact ⟨last, returnsToo, mirrors.calls, mirrors.static⟩

/-- The source adds what a call answers to a static variable, under a condition. -/
def addingSource : String :=
  "static int n; int g(int a); int f(int a) \x7b if (a) n = n + g(a); return n; \x7d"

def addingFunc : Tac.Func where
  name := "f"
  global := true
  params := ["a.1"]
  body := [.jumpIfZero (.var "a.1") "if_end.2", .call "g" [.var "a.1"] (.var "tmp.3"),
    .binary .add (.var "n") (.var "tmp.3") (.var "tmp.4"), .copy (.var "tmp.4") (.var "n"), .label "if_end.2",
    .ret (.var "n"), .ret (.const 0)]

def Product.isAdding : Product → Bool
  | .code made symbols => made.funcs = [addingFunc] ∧
    ["n", "a.1", "tmp.3", "tmp.4"].map symbols.isStatic = [true, false, false, false]
  | _ => false

/-- Called with two, while the variable is four and the call answers three, the function returns seven. -/
theorem addingFunc_returns {static : String → Bool}
    (statics : ["n", "a.1", "tmp.3", "tmp.4"].map static = [true, false, false, false]) :
    ∃ final, Tac.Returns ⟨static, fun _ _ store => (3, store)⟩ addingFunc.body
        ⟨fun name => if static name then 4 else arguments addingFunc.params [2] name, []⟩ 7 final ∧
      final.calls = [("g", [2])] ∧ final.store "n" = 7 := by
  simp only [List.map_cons, List.map_nil, List.cons.injEq, and_true] at statics
  obtain ⟨n, a, -, -⟩ := statics
  have given : (fun name => if static name then 4 else arguments addingFunc.params [2] name : Store) "a.1" = 2 := by
    simp only [a]
    decide
  have kept : (fun name => if static name then 4 else arguments addingFunc.params [2] name : Store) "n" = 4 := by
    simp only [n, if_true]
  generalize (fun name => if static name then 4 else arguments addingFunc.params [2] name : Store) = store at given kept ⊢
  have answered : World.call ⟨static, fun _ _ store => (3, store)⟩ "g" [2] ⟨store, []⟩ = (3, ⟨store, [("g", [2])]⟩) := by
    refine Prod.ext rfl (Memory.ext ?_ rfl)
    funext name
    unfold World.call World.seen
    dsimp only
    split <;> rfl
  have held : Tac.Value.read (Memory.set ⟨store, [("g", [2])]⟩ "tmp.3" 3).store (.var "n") = some 4 :=
    congrArg some kept
  refine ⟨((Memory.set ⟨store, [("g", [2])]⟩ "tmp.3" 3).set "tmp.4" 7).set "n" 7,
    ⟨[.ret (.var "n"), .ret (.const 0)], ?_, rfl⟩, rfl, rfl⟩
  refine .head (.notZero (congrArg some given) (by decide)) ?_
  refine .head (.call (.cons (congrArg some given) .nil) answered) ?_
  refine .head (.binary held rfl rfl) ?_
  exact .head (.copy rfl) (.single .label)

def adding : Sample .lower Product.isAdding where
  source := addingSource
  passes := by decide +kernel

theorem qbe_keeps_returns_adding : ∃ code symbols text program il last,
    (Compiler.compile {} {} addingSource 0 .lower).1 = .ok (.code code symbols) ∧
    Qbe.program symbols 4 code = .ok text ∧ Il.Program.read? text = some program ∧ program.funcs = [il] ∧
    Il.Func.Returns ⟨symbols.isStatic, fun _ _ store => (3, store)⟩ il [2] (fun _ => 4) 7 last ∧
    last.memory.calls = [("g", [2])] ∧ last.memory.store "n" = 7 := by
  obtain ⟨code, symbols, made, shape⟩ := adding.exists_code
  obtain ⟨funcs, statics⟩ : code.funcs = [addingFunc] ∧
    ["n", "a.1", "tmp.3", "tmp.4"].map symbols.isStatic = [true, false, false, false] := of_decide_eq_true shape
  obtain ⟨text, program, written, read, each⟩ := qbe_keeps_returns made 4
  rw [funcs] at each
  obtain ⟨final, returns, calls, value⟩ := addingFunc_returns statics
  cases ils : program.funcs with
  | nil =>
    rw [ils] at each
    cases each
  | cons il rest =>
    rw [ils] at each
    obtain - | ⟨⟨-, -, -, runs⟩, ⟨⟩⟩ := each
    obtain ⟨last, returnsToo, callsToo, stores⟩ := runs _ _ _ _ _ returns
    refine ⟨code, symbols, text, program, il, last, made, written, read, ils, returnsToo, callsToo.trans calls, ?_⟩
    exact (stores "n" (List.cons.inj statics).1).trans value

end Lowered

end IntC
