import IntC.Proofs.CompilePasses
import IntC.Proofs.LoopNames
import IntC.Proofs.ScopeNames
import IntC.Proofs.Tac.LoweringNames

namespace IntC

variable {α β : Type}

theorem Pass.bind_of_ok {σ : Type} {pass : Pass σ β} {f : β → Pass σ α} {state middle : σ} {b : β}
    (outcome : pass state = (.ok b, middle)) : (pass >>= f) state = f b middle := by
  simp only [bind, ExceptT.bind, ExceptT.mk, StateT.bind, outcome]
  rfl

theorem Pass.exists_of_bind_ok {σ : Type} {pass : Pass σ β} {f : β → Pass σ α} {state : σ} {a : α}
    (outcome : ((pass >>= f) state).1 = .ok a) :
    ∃ b middle, pass state = (.ok b, middle) ∧ (f b middle).1 = .ok a := by
  obtain ⟨b, middle, first, rest⟩ := Pass.bind_eq_ok.mp (Prod.ext outcome rfl :
    (pass >>= f) state = (.ok a, ((pass >>= f) state).2))
  exact ⟨b, middle, first, congrArg Prod.fst rest⟩

namespace Compilation

abbrev supply (state : Compilation) : NameSupply := state.names

section Draws
variable {α : Type} {state : Compilation} {stems : List String} {done : α → List String → Compilation → Prop}

theorem announce_draws {stage : String} {f : Unit → Pass Compilation α}
    (later : Pass.Draws supply (f ()) { state with progress := state.progress ++ [stage] } stems done) :
    Pass.Draws supply (announce stage >>= f) state stems done := later

theorem get_draws {f : Compilation → Pass Compilation α} (later : Pass.Draws supply (f state) state stems done) :
    Pass.Draws supply (get >>= f) state stems done := later

theorem withNames_draws {pass : Pass NameSupply α} {wanted : α → List String → Prop}
    (draws : Pass.Draws id pass state.names stems fun a given _ => wanted a given) :
    Pass.Draws supply (withNames pass) state stems fun a given _ => wanted a given := draws

end Draws

def warned (config : Config) (warnings : List Warning) (state : Compilation) : Compilation :=
  let shown := warnings.filter fun w => config.isEnabled w.caution.kind
  { state with issued := state.issued + shown.length, shown := state.shown ++ shown }

theorem resolve_eq (config : Config) (program : Program) (state : Compilation) :
    resolve config program state = ((program.resolve ⟨state.names, []⟩).1,
      warned config (program.resolve ⟨state.names, []⟩).2.warnings
        { state with names := (program.resolve ⟨state.names, []⟩).2.names }) := by
  have got : (get : Pass Compilation Compilation) state = (.ok state, state) := rfl
  unfold resolve
  rw [Pass.bind_of_ok got]
  generalize program.resolve ⟨state.names, []⟩ = result
  obtain ⟨_ | _, _⟩ := result <;> rfl

theorem check_eq (config : Config) (program : Program) (state : Compilation) :
    check config program state = ((program.check {}).1.map fun _ => (program.check {}).2.symbols,
      warned config (program.check {}).2.warnings state) := by
  unfold check
  generalize program.check {} = result
  obtain ⟨_ | _, _⟩ := result <;> rfl

theorem resolve_draws {program : Program} (written : unitWritten program.items) (config : Config)
    (state : Compilation) :
    Pass.Draws supply (resolve config program) state (unitDeclared program.items)
      (fun found given _ => unitDeclared found.items = given ∧ found.rename stemOf id = program) := by
  have draws := Program.resolve_draws written ⟨state.names, []⟩
  unfold Pass.Draws at draws ⊢
  rw [resolve_eq]
  generalize program.resolve ⟨state.names, []⟩ = result at draws ⊢
  obtain ⟨_ | found, after⟩ := result
  · exact draws
  · exact draws

/-- The last part of validation: checking, and warnings that count as errors. -/
def judge (config : Config) (issued : Nat) (program : Program) : Pass Compilation (Program × SymbolTable) := do
  announce "Type checking..."
  let symbols ← check config program
  let given := (← get).issued - issued
  if config.warningsAsErrors && given > 0 then Pass.fail (.warnings given) {}
  return (program, symbols)

/-- What validation does with a resolved program. -/
def settle (config : Config) (issued : Nat) (resolved : Program) : Pass Compilation (Program × SymbolTable) := do
  announce "Labeling loops..."
  judge config issued (← withNames resolved.label)

theorem validate_eq (config : Config) (program : Program) : validate config program = (do
    let issued := (← get).issued
    announce "Resolving identifiers..."
    settle config issued (← resolve config program)) := rfl

theorem check_draws (config : Config) (program : Program) (state : Compilation) :
    Pass.Draws supply (check config program) state [] (fun _ given _ => given = []) := by
  unfold Pass.Draws
  rw [check_eq]
  generalize program.check {} = result
  obtain ⟨_ | _, after⟩ := result
  · exact ⟨0, le_rfl, rfl⟩
  · exact ⟨rfl, rfl⟩

theorem judge_draws (config : Config) (issued : Nat) (program : Program) (state : Compilation) :
    Pass.Draws supply (judge config issued program) state [] (fun found given _ => found.1 = program ∧ given = []) := by
  unfold judge
  refine announce_draws ?_
  rw [← List.append_nil []]
  refine (check_draws config program _).bind ?_
  rintro symbols _ after rfl
  exact get_draws (Pass.draws_guard fun _ => Pass.draws_pure ⟨rfl, rfl⟩)

theorem settle_draws (config : Config) (issued : Nat) (resolved : Program) (state : Compilation) :
    Pass.Draws supply (settle config issued resolved) state (unitLoopStems resolved.items) (fun found given _ =>
      unitLoops found.1.items = given ∧ unlabelledItems found.1.items = unlabelledItems resolved.items) := by
  unfold settle
  refine announce_draws ?_
  rw [← List.append_nil (unitLoopStems resolved.items)]
  refine (withNames_draws (Program.label_draws _ resolved)).bind ?_
  rintro program _ after ⟨rfl, same⟩
  refine (judge_draws config issued program after).mono ?_
  rintro ⟨found, symbols⟩ _ _ ⟨rfl, rfl⟩
  exact ⟨(List.append_nil _).symm, same⟩

theorem validate_draws {tree : Program} (written : unitWritten tree.items) (config : Config) (state : Compilation) :
    Pass.Draws supply (validate config tree) state (unitDeclared tree.items ++ unitLoopStems tree.items)
      (fun found _ _ => unitCodeStems found.1.items = unitCodeStems tree.items) := by
  rw [validate_eq]
  refine get_draws (announce_draws ((resolve_draws written config _).bind ?_))
  rintro resolved _ after ⟨rfl, back⟩
  have items : renameItems stemOf id resolved.items = tree.items := congrArg Program.items back
  rw [← items, unitLoopStems_rename]
  refine (settle_draws config _ resolved after).mono ?_
  rintro ⟨program, symbols⟩ _ _ ⟨-, same⟩
  rw [unitCodeStems_rename]
  exact (stems_of_unlabelled same).2

theorem lower_draws (program : Program) (symbols : SymbolTable) (state : Compilation) :
    Pass.Draws supply (lower program symbols) state (unitCodeStems program.items) (fun code given _ =>
      Tac.Covers given (fun name => ∃ made ∈ definitions program.items, made.2.Knows name)
        (code.funcs.flatMap Tac.Func.body)) := by
  unfold lower
  exact announce_draws (withNames_draws (Program.lower_draws symbols _ program))

def finish (config : Config) (stop : Stage) (code : Tac.Program) (symbols : SymbolTable) :
    Pass Compilation Product := do
  if stop = .lower then return .code code symbols
  if stop = .codegen then
    if config.backend ≠ .x86 then return .machine none
    announce "Selecting instructions..."
    return .machine (some (← Pass.check (Machine.lower code symbols config.stackAlignment)))
  announce ("Generating code with '" ++ config.backend.name ++ "' backend...")
  return .output (← Pass.check (emit config code symbols))

theorem back_eq {stop : Stage} (late : stop ≠ .validate) (config : Config) (program : Program) (symbols : SymbolTable) :
    back config stop program symbols = lower program symbols >>= fun code => finish config stop code symbols := by
  unfold back finish
  rw [if_neg late]

theorem finish_draws (config : Config) (stop : Stage) (code : Tac.Program) (symbols : SymbolTable)
    (state : Compilation) : Pass.Draws supply (finish config stop code symbols) state [] (fun _ _ _ => True) := by
  unfold finish
  split
  · exact Pass.draws_pure trivial
  split
  · split
    · exact Pass.draws_pure trivial
    · exact announce_draws (Pass.draws_check_self fun _ _ => Pass.draws_pure trivial)
  · exact announce_draws (Pass.draws_check_self fun _ _ => Pass.draws_pure trivial)

theorem back_draws (config : Config) (stop : Stage) (program : Program) (symbols : SymbolTable) (state : Compilation) :
    Pass.Draws supply (back config stop program symbols) state
      (if stop = .validate then [] else unitCodeStems program.items) (fun _ _ _ => True) := by
  split
  · rename_i early
    unfold back
    rw [if_pos early]
    exact Pass.draws_pure trivial
  · rename_i late
    rw [back_eq late, ← List.append_nil (unitCodeStems program.items)]
    exact (lower_draws program symbols state).bind fun code _ after _ => finish_draws config stop code symbols after

end Compilation

/-- A step that only goes on in the supply of names. -/
def Pass.GoesOn {α : Type} (pass : Pass Compilation α) : Prop :=
  ∀ state, ∃ count, (pass state).2.names = state.names.advance count

theorem Pass.GoesOn.bind {pass : Pass Compilation β} {f : β → Pass Compilation α} (first : pass.GoesOn)
    (later : ∀ b, (f b).GoesOn) : (pass >>= f).GoesOn := by
  intro state
  obtain ⟨count, moved⟩ := first state
  simp only [Bind.bind, ExceptT.bind, ExceptT.mk, StateT.bind]
  generalize pass state = result at moved ⊢
  obtain ⟨error | b, after⟩ := result
  · exact ⟨count, moved⟩
  · obtain ⟨more, movedToo⟩ := later b after
    refine ⟨count + more, movedToo.trans ?_⟩
    rw [moved, NameSupply.advance_add]

namespace Compilation

theorem judge_goesOn (config : Config) (issued : Nat) (program : Program) : (judge config issued program).GoesOn :=
  fun state => (judge_draws config issued program state).exists_count.imp fun _ => And.right

theorem settle_goesOn (config : Config) (issued : Nat) (resolved : Program) : (settle config issued resolved).GoesOn :=
  fun state => (settle_draws config issued resolved state).exists_count.imp fun _ => And.right

theorem back_goesOn (config : Config) (stop : Stage) (program : Program) (symbols : SymbolTable) :
    (back config stop program symbols).GoesOn :=
  fun state => (back_draws config stop program symbols state).exists_count.imp fun _ => And.right

end Compilation

/-- What a compiler is asked to do. -/
structure Call where
  config : Config
  source : String
  file : Int := 0
  stop : Stage

namespace Call

variable {call : Call} {tree : Program}

def after (call : Call) (compiler : Compiler) : Compiler :=
  (compiler.compile call.config call.source call.file call.stop).2.toCompiler

/-- The tree that the source is parsed to, if it can be. -/
def tree? (call : Call) : Option Program := (tokenize call.source call.file >>= parse).toOption

/-- The stems of the names that a call may ask for: those of the parameters and local variables, those of the loops,
and those of the labels and intermediate values of the code. -/
def stems (call : Call) : List String :=
  match call.tree? with
  | none => []
  | some tree =>
    if call.stop = .lex ∨ call.stop = .parse then []
    else unitDeclared tree.items ++ unitLoopStems tree.items ++
      if call.stop = .validate then [] else unitCodeStems tree.items

/-- The names that a call gives out: as many of those it may ask for as the supply has gone on by. -/
def given (call : Call) (compiler : Compiler) : List String :=
  compiler.names.give (call.stems.take ((call.after compiler).names.next - compiler.names.next))

theorem exists_of_tree? (found : call.tree? = some tree) :
    ∃ tokens, tokenize call.source call.file = .ok tokens ∧ parse tokens = .ok tree := by
  have whole := eq_ok_of_toOption found
  cases lexed : tokenize call.source call.file with
  | error error =>
    rw [lexed] at whole
    cases whole
  | ok tokens =>
    rw [lexed] at whole
    exact ⟨tokens, rfl, whole⟩

theorem tree?_eq_some {tokens : List Token} (lexed : tokenize call.source call.file = .ok tokens)
    (parsed : parse tokens = .ok tree) : call.tree? = some tree := by
  unfold tree?
  rw [lexed]
  exact congrArg Except.toOption parsed

theorem written_of_tree? (found : call.tree? = some tree) : unitWritten tree.items := by
  obtain ⟨tokens, lexed, parsed⟩ := exists_of_tree? found
  exact written_of_parse lexed parsed

theorem stems_of_early (early : call.stop = .lex ∨ call.stop = .parse) : call.stems = [] := by
  unfold stems
  cases call.tree? with
  | none => rfl
  | some tree => exact if_pos early

theorem stems_of_tree? (found : call.tree? = some tree) (late : call.stop ≠ .lex) (later : call.stop ≠ .parse) :
    call.stems = unitDeclared tree.items ++ unitLoopStems tree.items ++
      if call.stop = .validate then [] else unitCodeStems tree.items := by
  unfold stems
  rw [found]
  exact if_neg (by simp [late, later])

/-- However a call ends, the names it gives out are the first few of those it may ask for. -/
theorem run_draws (call : Call) (state : Compilation) :
    Pass.Draws Compilation.supply (Compilation.run call.config call.source call.file call.stop) state call.stems
      (fun _ _ _ => True) := by
  by_cases early : call.stop = .lex ∨ call.stop = .parse
  · rw [stems_of_early early]
    unfold Compilation.run Compilation.lex Compilation.parse
    simp only [bind_assoc]
    refine Compilation.announce_draws (Pass.draws_check_self fun tokens _ => ?_)
    split
    · exact Pass.draws_pure trivial
    refine Compilation.announce_draws (Pass.draws_check_self fun tree _ => ?_)
    rw [if_pos (early.resolve_left ‹_›)]
    exact Pass.draws_pure trivial
  · obtain ⟨late, later⟩ := not_or.mp early
    rw [Compilation.run_eq late later]
    unfold Compilation.front Compilation.lex Compilation.parse
    simp only [bind_assoc]
    refine Compilation.announce_draws (Pass.draws_check_self fun tokens lexed => ?_)
    refine Compilation.announce_draws (Pass.draws_check_self fun tree parsed => ?_)
    have found := tree?_eq_some lexed parsed
    rw [stems_of_tree? found late later]
    refine (Compilation.validate_draws (written_of_tree? found) call.config _).bind ?_
    rintro ⟨program, symbols⟩ _ after same
    rw [← same]
    exact Compilation.back_draws call.config call.stop program symbols after

/-- A compilation that has a tree and is about to resolve its names. -/
def parsed (compiler : Compiler) : Compilation :=
  { compiler with
    progress := ["Tokenizing source...", "Parsing tokens into AST...", "Resolving identifiers..."] }

/-- A call that goes beyond parsing resolves names, settles the rest of validation and goes on from there. -/
theorem compile_of_tree? (found : call.tree? = some tree) (compiler : Compiler) {stop : Stage} (late : stop ≠ .lex)
    (later : stop ≠ .parse) :
    compiler.compile call.config call.source call.file stop = (do
      let resolved ← Compilation.resolve call.config tree
      let found ← Compilation.settle call.config compiler.issued resolved
      Compilation.back call.config stop found.1 found.2) (parsed compiler) := by
  obtain ⟨tokens, lexed, parsed⟩ := exists_of_tree? found
  have first : Compilation.lex call.source call.file { compiler with } =
      (.ok tokens, { compiler with progress := ["Tokenizing source..."] }) := by
    unfold Compilation.lex
    rw [lexed]
    rfl
  have second : Compilation.parse tokens { compiler with progress := ["Tokenizing source..."] } =
      (.ok tree, { compiler with progress := ["Tokenizing source...", "Parsing tokens into AST..."] }) := by
    unfold Compilation.parse
    rw [parsed]
    rfl
  unfold Compiler.compile
  rw [Compilation.run_eq late later]
  unfold Compilation.front
  simp only [bind_assoc, Compilation.validate_eq]
  rw [Pass.bind_of_ok first, Pass.bind_of_ok second]
  rfl

theorem exists_after (call : Call) (compiler : Compiler) :
    ∃ count, count ≤ call.stems.length ∧ (call.after compiler).names = compiler.names.advance count :=
  (call.run_draws { compiler with }).exists_count

/-- The names that a call gives out begin with those it has asked for first. -/
theorem given_of_stems {compiler : Compiler} {first rest : List String} {count : Nat}
    (stems : call.stems = first ++ rest)
    (moved : (call.after compiler).names = compiler.names.advance (first.length + count)) :
    call.given compiler = compiler.names.give first ++ (compiler.names.advance first.length).give (rest.take count) := by
  have gone : (call.after compiler).names.next - compiler.names.next = first.length + count := by
    rw [moved]
    exact Nat.add_sub_cancel_left ..
  unfold given
  rw [gone, stems, List.take_length_add_append, NameSupply.give_append]

theorem names_after (call : Call) (compiler : Compiler) :
    (call.after compiler).names = compiler.names.advance (call.given compiler).length := by
  obtain ⟨count, few, moved⟩ := call.exists_after compiler
  have gone : (call.after compiler).names.next - compiler.names.next = count := by
    rw [moved]
    exact Nat.add_sub_cancel_left ..
  unfold given
  rw [gone, NameSupply.length_give, List.length_take, Nat.min_eq_left few, moved]

theorem fresh_given (call : Call) (compiler : Compiler) :
    Fresh compiler.names.next (call.after compiler).names.next (call.given compiler) := by
  have fresh := compiler.names.fresh_give (call.stems.take ((call.after compiler).names.next - compiler.names.next))
  rw [← NameSupply.length_give compiler.names] at fresh
  have last : (call.after compiler).names.next = compiler.names.next + (call.given compiler).length :=
    congrArg NameSupply.next (call.names_after compiler)
  rw [last]
  exact fresh

/-- What is behind the names that a call gives out: the supply goes on by as many, also if the call fails. They are the
names of the parameters and the local variables of the resolved tree, each with its spelling as the stem, then the ids of
the loops, then the names of the code that were not there before. -/
def Accounted (call : Call) (compiler : Compiler) : Prop :=
  (call.after compiler).names = compiler.names.advance (call.given compiler).length ∧
  ∀ tree, call.tree? = some tree → ∀ resolved after, tree.resolve ⟨compiler.names, []⟩ = (.ok resolved, after) →
    resolved.rename stemOf id = tree ∧ (call.stop ≠ .lex → call.stop ≠ .parse →
      unitDeclared resolved.items <+: call.given compiler ∧
      ∀ program names, resolved.label after.names = (.ok program, names) →
        unitDeclared resolved.items ++ unitLoops program.items <+: call.given compiler ∧
        ∀ code symbols, call.stop ≠ .validate →
          (compiler.compile call.config call.source call.file .lower).1 = .ok (.code code symbols) →
          ∃ lowered, call.given compiler = unitDeclared resolved.items ++ unitLoops program.items ++ lowered ∧
            Tac.Covers lowered (fun name => ∃ made ∈ definitions program.items, made.2.Knows name)
              (code.funcs.flatMap Tac.Func.body))

theorem exists_resolve {resolved : Program} {compiler : Compiler} {after : Resolution}
    (done : tree.resolve ⟨compiler.names, []⟩ = (.ok resolved, after)) (config : Config) :
    ∃ middle, Compilation.resolve config tree (parsed compiler) = (.ok resolved, middle) ∧ middle.names = after.names := by
  have outcome := Compilation.resolve_eq config tree (parsed compiler)
  have names : (parsed compiler).names = compiler.names := rfl
  rw [names, done] at outcome
  exact ⟨_, outcome, rfl⟩

theorem exists_settle {resolved program : Program} {middle : Compilation} {supply : NameSupply}
    (labelled : resolved.label middle.names = (.ok program, supply)) (config : Config) (issued : Nat) :
    ∃ last : Compilation, last.names = supply ∧ ∀ (α : Type) (f : Program × SymbolTable → Pass Compilation α),
      (Compilation.settle config issued resolved >>= f) middle = (Compilation.judge config issued program >>= f) last := by
  have named : Compilation.withNames resolved.label
      { middle with progress := middle.progress ++ ["Labeling loops..."] } =
        (.ok program, { middle with progress := middle.progress ++ ["Labeling loops..."], names := supply }) := by
    unfold Compilation.withNames
    rw [labelled]
  refine ⟨{ middle with progress := middle.progress ++ ["Labeling loops..."], names := supply }, rfl, fun α f => ?_⟩
  have announced : Compilation.announce "Labeling loops..." middle =
      (.ok (), { middle with progress := middle.progress ++ ["Labeling loops..."] }) := rfl
  unfold Compilation.settle
  simp only [bind_assoc]
  rw [Pass.bind_of_ok announced, Pass.bind_of_ok named]

section Accounted
variable {call : Call} {compiler : Compiler} {tree resolved program : Program} {after : Resolution} {supply : NameSupply}

/-- Once the names are resolved, the call has given out those of the parameters and local variables. -/
theorem resolved_given (found : call.tree? = some tree) (done : tree.resolve ⟨compiler.names, []⟩ = (.ok resolved, after))
    (late : call.stop ≠ .lex) (later : call.stop ≠ .parse) : unitDeclared resolved.items <+: call.given compiler := by
  obtain ⟨moved, declared, -⟩ := (Program.resolve_draws (written_of_tree? found) _).of_ok done
  obtain ⟨middle, first, names⟩ := exists_resolve done call.config
  have compiled := compile_of_tree? found compiler late later
  rw [Pass.bind_of_ok first] at compiled
  obtain ⟨count, last⟩ := (Compilation.settle_goesOn call.config compiler.issued resolved).bind
    (fun found => Compilation.back_goesOn call.config call.stop found.1 found.2) middle
  have gone : (call.after compiler).names = compiler.names.advance ((unitDeclared tree.items).length + count) := by
    rw [← NameSupply.advance_add, ← moved, ← names, ← last, Call.after, compiled]
  have stems := stems_of_tree? found late later
  rw [List.append_assoc] at stems
  rw [declared, given_of_stems stems gone]
  exact List.prefix_append _ _

/-- The names of the parameters and local variables and the ids of the loops are given out in a row. -/
theorem labelled_names (found : call.tree? = some tree)
    (done : tree.resolve ⟨compiler.names, []⟩ = (.ok resolved, after))
    (labelled : resolved.label after.names = (.ok program, supply)) :
    unitDeclared resolved.items ++ unitLoops program.items =
        compiler.names.give (unitDeclared tree.items ++ unitLoopStems tree.items) ∧
      supply = compiler.names.advance (unitDeclared tree.items ++ unitLoopStems tree.items).length ∧
      unitCodeStems program.items = unitCodeStems tree.items := by
  obtain ⟨moved, declared, back⟩ := (Program.resolve_draws (written_of_tree? found) _).of_ok done
  obtain ⟨movedToo, loops, same⟩ := (Program.label_draws _ resolved).of_ok labelled
  have items : renameItems stemOf id resolved.items = tree.items := congrArg Program.items back
  have loopStems : unitLoopStems tree.items = unitLoopStems resolved.items := by rw [← items, unitLoopStems_rename]
  have codeStems : unitCodeStems tree.items = unitCodeStems resolved.items := by rw [← items, unitCodeStems_rename]
  simp only [id] at moved movedToo
  refine ⟨?_, ?_, ?_⟩
  · rw [NameSupply.give_append, ← moved, declared, loops, loopStems]
    rfl
  · rw [List.length_append, ← NameSupply.advance_add, ← moved, loopStems]
    exact movedToo
  · rw [codeStems]
    exact (stems_of_unlabelled same).2

theorem exists_judge (found : call.tree? = some tree) (done : tree.resolve ⟨compiler.names, []⟩ = (.ok resolved, after))
    (labelled : resolved.label after.names = (.ok program, supply)) :
    ∃ last : Compilation, last.names = supply ∧ ∀ stop, stop ≠ .lex → stop ≠ .parse →
      compiler.compile call.config call.source call.file stop = (do
        let found ← Compilation.judge call.config compiler.issued program
        Compilation.back call.config stop found.1 found.2) last := by
  obtain ⟨middle, first, names⟩ := exists_resolve done call.config
  rw [← names] at labelled
  obtain ⟨last, same, settled⟩ := exists_settle labelled call.config compiler.issued
  refine ⟨last, same, fun stop late later => ?_⟩
  rw [compile_of_tree? found compiler late later, Pass.bind_of_ok first, settled]

/-- Once the loops are labelled, the call has given out their ids as well. -/
theorem labelled_given (found : call.tree? = some tree) (done : tree.resolve ⟨compiler.names, []⟩ = (.ok resolved, after))
    (labelled : resolved.label after.names = (.ok program, supply)) (late : call.stop ≠ .lex)
    (later : call.stop ≠ .parse) :
    unitDeclared resolved.items ++ unitLoops program.items <+: call.given compiler := by
  obtain ⟨given, moved, -⟩ := labelled_names found done labelled
  obtain ⟨last, names, compiled⟩ := exists_judge found done labelled
  obtain ⟨count, gone⟩ := (Compilation.judge_goesOn call.config compiler.issued program).bind
    (fun found => Compilation.back_goesOn call.config call.stop found.1 found.2) last
  have whole : (call.after compiler).names =
      compiler.names.advance ((unitDeclared tree.items ++ unitLoopStems tree.items).length + count) := by
    rw [← NameSupply.advance_add, ← moved, ← names, ← gone, Call.after, compiled call.stop late later]
  rw [given, given_of_stems (stems_of_tree? found late later) whole]
  exact List.prefix_append _ _

/-- Once there is code, the call has given out the names of the code, and nothing more. -/
theorem lowered_given {code : Tac.Program} {symbols : SymbolTable} (found : call.tree? = some tree)
    (done : tree.resolve ⟨compiler.names, []⟩ = (.ok resolved, after))
    (labelled : resolved.label after.names = (.ok program, supply)) (late : call.stop ≠ .lex)
    (later : call.stop ≠ .parse) (last : call.stop ≠ .validate)
    (made : (compiler.compile call.config call.source call.file .lower).1 = .ok (.code code symbols)) :
    ∃ lowered, call.given compiler = unitDeclared resolved.items ++ unitLoops program.items ++ lowered ∧
      Tac.Covers lowered (fun name => ∃ made ∈ definitions program.items, made.2.Knows name)
        (code.funcs.flatMap Tac.Func.body) := by
  obtain ⟨given, moved, codeStems⟩ := labelled_names found done labelled
  obtain ⟨start, names, compiled⟩ := exists_judge found done labelled
  rw [compiled .lower (by decide) (by decide)] at made
  obtain ⟨⟨checked, table⟩, second, judged, rest⟩ := Pass.exists_of_bind_ok made
  obtain ⟨still, same, -⟩ := (Compilation.judge_draws call.config compiler.issued program start).of_ok judged
  dsimp only at rest same
  subst same
  rw [Compilation.back_eq (by decide)] at rest
  obtain ⟨other, third, lowered, finished⟩ := Pass.exists_of_bind_ok rest
  have product : (pure (.code other table) : Pass Compilation Product) third = (.ok (.code other table), third) := rfl
  rw [Compilation.finish, if_pos rfl, product] at finished
  cases finished
  obtain ⟨gone, covers⟩ := (Compilation.lower_draws checked symbols second).of_ok lowered
  obtain ⟨count, few, ends⟩ := (Compilation.finish_draws call.config call.stop code symbols third).exists_count
  obtain rfl : count = 0 := Nat.le_zero.mp few
  have settled : second.names = compiler.names.advance (unitDeclared tree.items ++ unitLoopStems tree.items).length := by
    rw [← moved, ← names]
    exact still
  have whole : (call.after compiler).names =
      compiler.names.advance ((unitDeclared tree.items ++ unitLoopStems tree.items).length +
        (unitCodeStems tree.items).length) := by
    rw [Call.after, compiled call.stop late later, Pass.bind_of_ok judged, Compilation.back_eq last,
      Pass.bind_of_ok lowered, ← NameSupply.advance_add, ← settled, ← codeStems]
    exact ends.trans gone
  refine ⟨_, ?_, covers⟩
  rw [given, given_of_stems (stems_of_tree? found late later) whole, if_neg last, List.take_length, ← settled, codeStems]

end Accounted

theorem accounted (call : Call) (compiler : Compiler) : call.Accounted compiler := by
  refine ⟨call.names_after compiler, fun tree found resolved after done => ?_⟩
  obtain ⟨-, -, back⟩ := (Program.resolve_draws (written_of_tree? found) _).of_ok done
  refine ⟨back, fun late later => ⟨resolved_given found done late later, fun program names labelled => ?_⟩⟩
  exact ⟨labelled_given found done labelled late later, fun code symbols last made =>
    lowered_given found done labelled late later last made⟩

end Call

/-- The calls of a sequence, each with the compiler it is made on. -/
def Compiler.session (compiler : Compiler) : List Call → List (Compiler × Call)
  | [] => []
  | call :: rest => (compiler, call) :: (call.after compiler).session rest

/-- The names that a sequence of calls gives out. -/
def Compiler.given (compiler : Compiler) (calls : List Call) : List String :=
  (compiler.session calls).flatMap fun step => step.2.given step.1

theorem Compiler.fresh_given (compiler : Compiler) (calls : List Call) :
    ∃ last, Fresh compiler.names.next last (compiler.given calls) := by
  induction calls generalizing compiler with
  | nil => exact ⟨_, .nil le_rfl⟩
  | cons call rest ih =>
    obtain ⟨last, later⟩ := ih (call.after compiler)
    exact ⟨last, (call.fresh_given compiler).append later⟩

theorem Scanner.steps_word {count : Nat} {scanner : Scanner} {token : Token} (read : .ok token ∈ scanner.steps count)
    (ident : token.kind = .ident) : IsWord token.value := by
  induction count generalizing scanner with
  | zero => cases read
  | succ count ih =>
    rcases List.mem_cons.mp read with here | later
    · have fine := scanner.next_fine
      rw [← here] at fine
      exact fine ident
    · exact ih later

/-- Names never collide. Over any sequence of calls, however each of them ends, no name is given out twice and none is
spelled as an identifier in any of the sources; what is given out are the names of parameters and local variables, the ids
of loops, and the labels and intermediate values of code; and the stems of the names lead back to the parsed tree. -/
theorem given_names_distinct (compiler : Compiler) (calls : List Call) :
    (compiler.given calls).Nodup ∧
    (∀ name ∈ compiler.given calls, ∀ call ∈ calls, ∀ count token,
      .ok token ∈ (Scanner.start call.source call.file).steps count → token.kind = .ident → name ≠ token.value) ∧
    ∀ before call, (before, call) ∈ compiler.session calls → call.Accounted before := by
  obtain ⟨last, fresh⟩ := compiler.fresh_given calls
  refine ⟨fresh.distinct, fun name member call _ count token read ident same => ?_, fun before call _ => call.accounted before⟩
  have spelled := (Scanner.steps_word read ident).spelled
  rw [← same] at spelled
  exact (fresh.minted name member).not_spelled spelled

/-- Variables that are called like labels and intermediate values, then a source with a mistake, then the first again. -/
def collidingCalls : List Call :=
  let source := "int main(void) \x7b int tmp = 1; for (int for_start = 0; for_start && tmp; ) tmp = 0; return -tmp; \x7d"
  [⟨{}, source, 0, .lower⟩, ⟨{}, "int f(int tmp) \x7b int tmp; \x7d", 0, .all⟩, ⟨{}, source, 0, .validate⟩]

theorem given_names_distinct_colliding :
    Compiler.given {} collidingCalls = [
      "tmp.0", "for_start.1", "for.2", "for_start.3", "and_false.4", "and_end.5", "tmp.6", "tmp.7",
      "tmp.8",
      "tmp.9", "for_start.10", "for.11"] ∧
    (Compiler.given {} collidingCalls).Nodup :=
  ⟨by decide +kernel, (given_names_distinct {} collidingCalls).1⟩

end IntC
