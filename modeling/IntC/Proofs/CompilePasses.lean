import IntC.Proofs.Compile

namespace IntC

/-- What the passes have made of a source, each from what the one before has made. -/
structure Passes (source : String) (file : Int) (tokens : List Token) (tree resolved program : Program)
    (symbols : SymbolTable) (names : NameSupply) (code : Tac.Program) : Prop where
  lexed : tokenize source file = .ok tokens
  parsed : parse tokens = .ok tree
  renamed : ∃ before after, tree.resolve before = (.ok resolved, after) ∧ resolved.label after.names = (.ok program, names)
  checked : ∃ after, program.check {} = (.ok (), after) ∧ after.symbols = symbols
  lowered : ∃ last, program.lower symbols names = (.ok code, last)
  accepted : Accepted names.next program symbols

section Functions
variable {source : String} {file : Int} {tokens : List Token} {tree resolved program : Program}
  {symbols : SymbolTable} {names : NameSupply} {code : Tac.Program}
  (passes : Passes source file tokens tree resolved program symbols names code)
include passes

theorem Passes.unit_lowered :
    ∃ last, UnitLowered symbols (definitions program.items) names.next last code.funcs := by
  obtain ⟨last, lowered⟩ := passes.lowered
  exact ⟨last.next, (passes.accepted.lower_meets names).of_ok lowered⟩

/-- What holds of each definition and the function that it is lowered to holds all along the code. -/
theorem Passes.forall₂ {related : FuncDecl × Block → Tac.Func → Prop}
    (each : ∀ made ∈ definitions program.items, ∀ func first last, names.next ≤ first →
      FuncDecl.Lowered symbols made first last func → related made func) :
    List.Forall₂ related (definitions program.items) code.funcs := by
  obtain ⟨last, lowered⟩ := passes.unit_lowered
  exact lowered.forall₂ each

end Functions

namespace Compilation

variable {state after : Compilation} {program : Program} {config : Config} {symbols : SymbolTable}

theorem check_eq_ok {α : Type} {outcome : Except Error α} {a : α} :
    Pass.check outcome state = (.ok a, after) ↔ outcome = .ok a ∧ state = after := by
  cases outcome with
  | error error =>
    refine ⟨fun same => ?_, fun both => ?_⟩
    · cases same
    · cases both.1
  | ok b =>
    refine ⟨fun same => ?_, fun both => ?_⟩
    · cases same
      exact ⟨rfl, rfl⟩
    · cases both.1
      exact congrArg (Prod.mk _) both.2

theorem lex_eq_ok {source : String} {file : Int} {tokens : List Token}
    (done : lex source file state = (.ok tokens, after)) : tokenize source file = .ok tokens := by
  obtain ⟨_, _, -, checked⟩ := Pass.bind_eq_ok.mp done
  exact (check_eq_ok.mp checked).1

theorem parse_eq_ok {tokens : List Token} (done : parse tokens state = (.ok program, after)) :
    IntC.parse tokens = .ok program := by
  obtain ⟨_, _, -, checked⟩ := Pass.bind_eq_ok.mp done
  exact (check_eq_ok.mp checked).1

theorem resolve_eq_ok {resolved : Program} (done : resolve config program state = (.ok resolved, after)) :
    ∃ last, program.resolve ⟨state.names, []⟩ = (.ok resolved, last) ∧ after.names = last.names := by
  obtain ⟨_, _, got, rest⟩ := Pass.bind_eq_ok.mp done
  cases got
  obtain ⟨_, _, stored, rest⟩ := Pass.bind_eq_ok.mp rest
  cases stored
  obtain ⟨_, _, given, checked⟩ := Pass.bind_eq_ok.mp rest
  cases given
  obtain ⟨fine, same⟩ := check_eq_ok.mp checked
  exact ⟨_, Prod.ext fine rfl, same ▸ rfl⟩

theorem withNames_eq_ok {α : Type} {pass : Pass NameSupply α} {a : α} (done : withNames pass state = (.ok a, after)) :
    pass state.names = (.ok a, after.names) := by
  have outcome : (withNames pass state).1 = .ok a := congrArg Prod.fst done
  have names : (withNames pass state).2.names = after.names := congrArg (fun result => result.2.names) done
  exact Prod.ext outcome names

theorem checks_eq_ok (done : check config program state = (.ok symbols, after)) :
    (∃ last, program.check {} = (.ok (), last) ∧ last.symbols = symbols) ∧ after.names = state.names := by
  obtain ⟨_, _, given, rest⟩ := Pass.bind_eq_ok.mp done
  cases given
  obtain ⟨_, _, checked, rest⟩ := Pass.bind_eq_ok.mp rest
  cases rest
  obtain ⟨fine, same⟩ := check_eq_ok.mp checked
  exact ⟨⟨_, Prod.ext fine rfl, rfl⟩, same ▸ rfl⟩

/-- What validation has accepted was renamed and labelled, and its table is the one of the checker. -/
theorem validate_eq_ok {tree : Program} (done : validate config tree state = (.ok (program, symbols), after)) :
    (∃ before last resolved, tree.resolve before = (.ok resolved, last) ∧
      resolved.label last.names = (.ok program, after.names)) ∧
    ∃ last, program.check {} = (.ok (), last) ∧ last.symbols = symbols := by
  obtain ⟨_, _, got, rest⟩ := Pass.bind_eq_ok.mp done
  cases got
  obtain ⟨_, _, announced, rest⟩ := Pass.bind_eq_ok.mp rest
  cases announced
  obtain ⟨resolved, second, first, rest⟩ := Pass.bind_eq_ok.mp rest
  obtain ⟨_, _, announced, rest⟩ := Pass.bind_eq_ok.mp rest
  cases announced
  obtain ⟨labelled, third, named, rest⟩ := Pass.bind_eq_ok.mp rest
  obtain ⟨_, _, announced, rest⟩ := Pass.bind_eq_ok.mp rest
  cases announced
  obtain ⟨table, fourth, checked, rest⟩ := Pass.bind_eq_ok.mp rest
  obtain ⟨_, _, got, rest⟩ := Pass.bind_eq_ok.mp rest
  cases got
  obtain ⟨last, fine, names⟩ := resolve_eq_ok first
  obtain ⟨table', same⟩ := checks_eq_ok checked
  have made := withNames_eq_ok named
  split at rest
  · cases rest
  · cases rest
    refine ⟨⟨_, last, resolved, fine, ?_⟩, table'⟩
    rw [same, ← names]
    exact made

theorem lower_eq_ok {code : Tac.Program} (done : lower program symbols state = (.ok code, after)) :
    program.lower symbols state.names = (.ok code, after.names) := by
  obtain ⟨_, _, announced, rest⟩ := Pass.bind_eq_ok.mp done
  cases announced
  have made := withNames_eq_ok rest
  exact made

end Compilation

/-- Behind the code that comes from a source stand all the passes. What is lowered is the program that validation makes of
the source, and the names go on from where validation stops. -/
theorem exists_checked {compiler : Compiler} {config : Config} {source : String} {file : Int} {code : Tac.Program}
    {symbols : SymbolTable} (made : (compiler.compile config source file .lower).1 = .ok (.code code symbols)) :
    ∃ tokens tree resolved program,
      (compiler.compile config source file .validate).1 = .ok (.checked program symbols) ∧
      program.lower symbols (compiler.compile config source file .validate).2.names =
        (.ok code, (compiler.compile config source file .lower).2.names) ∧
      Passes source file tokens tree resolved program symbols
        (compiler.compile config source file .validate).2.names code := by
  have whole : Compilation.run config source file .lower { compiler with } =
      (.ok (.code code symbols), (compiler.compile config source file .lower).2) := Prod.ext made rfl
  obtain ⟨⟨program, table⟩, middle, fine, accepted, rest⟩ := Compilation.exists_front (by decide) (by decide) whole
  obtain ⟨lowered, last, done, same⟩ := Pass.bind_eq_ok.mp rest
  cases same
  have checked : Compilation.run config source file .validate { compiler with } =
      (.ok (.checked program table), middle) := by
    rw [Compilation.run_eq (by decide) (by decide)]
    exact Pass.bind_eq_ok.mpr ⟨_, _, fine, rfl⟩
  have state : (compiler.compile config source file .validate).2 = middle := congrArg Prod.snd checked
  have lowers := Compilation.lower_eq_ok done
  obtain ⟨tokens, second, lexed, rest⟩ := Pass.bind_eq_ok.mp fine
  obtain ⟨tree, third, parsed, validated⟩ := Pass.bind_eq_ok.mp rest
  obtain ⟨⟨before, after, resolved, renamed, labelled⟩, table⟩ := Compilation.validate_eq_ok validated
  rw [state]
  exact ⟨tokens, tree, resolved, program, congrArg Prod.fst checked, lowers, Compilation.lex_eq_ok lexed,
    Compilation.parse_eq_ok parsed, ⟨before, after, renamed, labelled⟩, table, ⟨_, lowers⟩, accepted⟩

theorem exists_passes {compiler : Compiler} {config : Config} {source : String} {file : Int} {code : Tac.Program}
    {symbols : SymbolTable} (made : (compiler.compile config source file .lower).1 = .ok (.code code symbols)) :
    ∃ tokens tree resolved program names, Passes source file tokens tree resolved program symbols names code := by
  obtain ⟨tokens, tree, resolved, program, -, -, passes⟩ := exists_checked made
  exact ⟨tokens, tree, resolved, program, _, passes⟩

end IntC
