import IntC.Proofs.CompileNames
import IntC.Proofs.Machine.LowerShift
import IntC.Proofs.ScopeShift

namespace IntC

/-- The same compilation on a compiler that has given out more names and shown more warnings before. -/
def Compilation.ahead (more earlier : Nat) (state : Compilation) : Compilation :=
  { state with names := state.names.advance more, issued := state.issued + earlier }

namespace Compilation
section Steps
variable {more earlier : Nat} {state : Compilation}

theorem announce_follows (stage : String) :
    Pass.Follows (announce stage) (announce stage) state (ahead more earlier) id := Pass.follows_modify rfl

theorem check_self_follows {α : Type} (outcome : Except Error α) :
    Pass.Follows (Pass.check outcome) (Pass.check outcome) state (ahead more earlier) id :=
  Pass.follows_check (.refl (fun _ => rfl) Error.Like.refl)

theorem withNames_follows {α β : Type} {left : Pass NameSupply α} {right : Pass NameSupply β} {image : α → β}
    (follows : Pass.Follows left right state.names (NameSupply.advance · more) image) :
    Pass.Follows (withNames left) (withNames right) state (ahead more earlier) image := by
  refine follows.within rfl rfl fun moved => ?_
  change { state.ahead more earlier with names := (right (state.names.advance more)).2 } = _
  rw [moved]
  rfl

theorem warned_ahead (config : Config) (warnings : List Warning) (state : Compilation) :
    warned config warnings (state.ahead more earlier) = (warned config warnings state).ahead more earlier := by
  unfold warned ahead
  simp only [Nat.add_right_comm]

theorem lex_follows (source : String) (file : Int) :
    Pass.Follows (lex source file) (lex source file) state (ahead more earlier) id :=
  (announce_follows _).bind fun _ _ _ => check_self_follows _

theorem parse_follows (tokens : List Token) :
    Pass.Follows (parse tokens) (parse tokens) state (ahead more earlier) id :=
  (announce_follows _).bind fun _ _ _ => check_self_follows _

theorem resolve_follows (config : Config) {tree : Program} (written : unitWritten tree.items) :
    Pass.Follows (resolve config tree) (resolve config tree) state (ahead more earlier)
      (Program.rename (shift more) id) := by
  have follows := Program.resolve_shifts written more ⟨state.names, []⟩
  refine follows.within (by rw [resolve_eq]) (by rw [resolve_eq]; rfl) fun moved => ?_
  rw [resolve_eq, resolve_eq, ← warned_ahead]
  change warned config (tree.resolve (Resolution.ahead more ⟨state.names, []⟩)).2.warnings
    { state.ahead more earlier with names := (tree.resolve (Resolution.ahead more ⟨state.names, []⟩)).2.names } = _
  rw [moved]
  rfl

/-- The symbols that a program is found to declare. -/
def symbolsOf (program : Program) : Pass Checking SymbolTable := do
  program.check
  return (← get).symbols

theorem symbolsOf_eq (program : Program) :
    symbolsOf program {} = ((program.check {}).1.map fun _ => (program.check {}).2.symbols, (program.check {}).2) := by
  simp only [symbolsOf, Bind.bind, ExceptT.bind, ExceptT.mk, StateT.bind]
  generalize program.check {} = result
  obtain ⟨_ | _, _⟩ := result <;> rfl

theorem check_follows (config : Config) {bound : Nat} {program : Program} (fits : unitBound bound [] program.items) :
    Pass.Follows (check config program) (check config (program.rename (shift more) (shift more))) state
      (ahead more earlier) (SymbolTable.rename (shift more)) := by
  have follows : Pass.Follows (symbolsOf program) (symbolsOf (program.rename (shift more) (shift more))) {}
      (Checking.rename (shift more)) (SymbolTable.rename (shift more)) :=
    (Program.check_follows fits {}).bind fun _ _ _ => Pass.follows_get (Pass.follows_pure rfl)
  have empty : Checking.rename (shift more) {} = {} := rfl
  refine follows.within (by rw [check_eq, symbolsOf_eq]) (by rw [check_eq, empty, symbolsOf_eq]) fun moved => ?_
  rw [empty, symbolsOf_eq, symbolsOf_eq] at moved
  rw [check_eq, check_eq, ← warned_ahead, moved]
  rfl

theorem judge_follows (config : Config) (issued : Nat) {bound : Nat} {program : Program}
    (fits : unitBound bound [] program.items) :
    Pass.Follows (judge config issued program)
      (judge config (issued + earlier) (program.rename (shift more) (shift more))) state (ahead more earlier)
      (fun found => (found.1.rename (shift more) (shift more), found.2.rename (shift more))) := by
  unfold judge
  refine (announce_follows _).bind fun _ _ _ => (check_follows config fits).bind fun symbols after _ => ?_
  refine Pass.follows_get ?_
  -- Of the warnings only those count that were shown since validation began, and these are as many.
  have given : (after.ahead more earlier).issued - (issued + earlier) = after.issued - issued :=
    Nat.add_sub_add_right ..
  simp only [given]
  exact Pass.follows_guard Iff.rfl rfl fun _ => Pass.follows_pure rfl

theorem validate_follows (config : Config) {tree : Program} (written : unitWritten tree.items) :
    Pass.Follows (validate config tree) (validate config tree) state (ahead more earlier)
      (fun found => (found.1.rename (shift more) (shift more), found.2.rename (shift more))) := by
  rw [validate_eq]
  unfold settle
  refine Pass.follows_get ((announce_follows _).bind fun _ second _ => ?_)
  refine (resolve_follows config written).bind fun resolved third done => ?_
  have fits := (resolve_meets written config second).of_ok done
  refine (announce_follows _).bind fun _ fourth announced => ?_
  refine (withNames_follows (Program.label_shifts (fits _ le_rfl) _)).bind fun program fifth labelled => ?_
  have kept := ((withNames_meets (Program.label_meets _ resolved)).of_ok labelled).2.1
  exact judge_follows config _ (kept _ [] (fits _ le_rfl))

theorem lower_follows {bound : Nat} {program : Program} {symbols : SymbolTable}
    (accepted : Accepted bound program symbols) :
    Pass.Follows (lower program symbols)
      (lower (program.rename (shift more) (shift more)) (symbols.rename (shift more))) state (ahead more earlier)
      (Tac.Program.rename (shift more)) :=
  (announce_follows _).bind fun _ _ _ => withNames_follows (Program.lower_shifts accepted more _)

end Steps
end Compilation

theorem isComplete_rename (names : String → String) (instr : Tac.Instr) :
    (instr.rename names).isComplete = instr.isComplete := by
  have present : ∀ value : Tac.Value, (value.rename names).isPresent = value.isPresent := by
    intro value
    cases value <;> rfl
  have isVar : ∀ value : Tac.Value, (value.rename names).isVar = value.isVar := by
    intro value
    cases value <;> rfl
  cases instr <;>
    simp only [Tac.Instr.rename, Tac.Instr.isComplete, List.all_map, Function.comp_def, present, isVar]

theorem emit_alike (config : Config) {names : String → String} (distinct : Function.Injective names)
    {code : Tac.Program} (symbols : SymbolTable)
    (complete : ∀ func ∈ code.funcs, ∀ instr ∈ func.body, instr.isComplete = true) :
    Alike (emit config code symbols) (emit config (code.rename names) (symbols.rename names)) (fun _ _ => True)
      Error.Like := by
  have completeToo : ∀ func ∈ (code.rename names).funcs, ∀ instr ∈ func.body, instr.isComplete = true := by
    simp only [Tac.Program.rename, List.forall_mem_map]
    intro func member
    simp only [Tac.Func.rename, List.forall_mem_map, isComplete_rename]
    exact complete func member
  unfold emit
  cases config.backend with
  | x86 => exact (Machine.lower_alike distinct code symbols _).bind fun _ _ _ => trivial
  | qbe =>
    obtain ⟨text, written⟩ := Qbe.exists_program symbols config.wordSize complete
    obtain ⟨other, writtenToo⟩ := Qbe.exists_program (symbols.rename names) config.wordSize completeToo
    simp only [written, writtenToo]
    trivial
  | other name => exact ⟨rfl, rfl⟩

/-- What two compilations of one source end with, if the second has begun so many names later: the same tokens and the
same tree, and behind that the same program, table, code and machine program with every number larger by as much. A text
is what the backend makes of the code that the source is lowered to. -/
def Product.Shifted (config : Config) (lowered : Except Error Product) (more : Nat) : Product → Product → Prop
  | .tokens list, .tokens other => other = list
  | .tree program, .tree other => other = program
  | .checked program symbols, .checked other table =>
    other = program.rename (shift more) (shift more) ∧ table = symbols.rename (shift more)
  | .code made symbols, .code other table => other = made.rename (shift more) ∧ table = symbols.rename (shift more)
  | .machine made, .machine other => other = made.map (Machine.Program.rename (shift more))
  | .output text, .output other => ∃ code symbols, lowered = .ok (.code code symbols) ∧
    emit config code symbols = .ok text ∧ emit config (code.rename (shift more)) (symbols.rename (shift more)) = .ok other
  | _, _ => False

namespace Compilation

theorem finish_alike (config : Config) (stop : Stage) {more earlier : Nat} {state : Compilation} {code : Tac.Program}
    {symbols : SymbolTable} {lowered : Except Error Product} (made : lowered = .ok (.code code symbols))
    (complete : ∀ func ∈ code.funcs, ∀ instr ∈ func.body, instr.isComplete = true) :
    Pass.Alike (finish config stop code symbols)
      (finish config stop (code.rename (shift more)) (symbols.rename (shift more))) state (ahead more earlier state)
      (fun product after other beyond => product.Shifted config lowered more other ∧ beyond = ahead more earlier after)
      (fun e after f beyond => e.Like f ∧ beyond = ahead more earlier after) := by
  unfold finish
  split
  · exact ⟨⟨rfl, rfl⟩, rfl⟩
  split
  · split
    · exact ⟨rfl, rfl⟩
    · refine (announce_follows _).andThen fun _ _ _ => ?_
      have machine := Machine.lower_alike (shift_injective more) code symbols config.stackAlignment
      exact (Pass.follows_check machine).andThen fun _ _ _ => ⟨rfl, rfl⟩
  · refine (announce_follows _).andThen fun _ _ _ => ?_
    have alike := emit_alike config (shift_injective more) symbols complete
    cases text : emit config code symbols <;>
      cases other : emit config (code.rename (shift more)) (symbols.rename (shift more)) <;> rw [text, other] at alike
    · exact ⟨alike, rfl⟩
    · exact alike.elim
    · exact alike.elim
    · exact ⟨⟨code, symbols, made, text, other⟩, rfl⟩

/-- A compilation of a source, step by step beside one that has begun later. -/
theorem run_alike {config : Config} {source : String} {file : Int} (stop : Stage) (more earlier : Nat)
    {state : Compilation} {lowered : Except Error Product} (code : (run config source file .lower state).1 = lowered) :
    Pass.Alike (run config source file stop) (run config source file stop) state (ahead more earlier state)
      (fun product after other beyond =>
        product.Shifted config lowered more other ∧ beyond = ahead more earlier after)
      (fun e after f beyond => e.Like f ∧ beyond = ahead more earlier after) := by
  by_cases lex : stop = .lex
  · unfold run
    refine (lex_follows source file).andThen fun tokens second lexed => ?_
    rw [if_pos lex, if_pos lex]
    exact ⟨rfl, rfl⟩
  by_cases parse : stop = .parse
  · unfold run
    refine (lex_follows source file).andThen fun tokens second lexed => ?_
    rw [if_neg lex, if_neg lex]
    refine (parse_follows tokens).andThen fun tree third parsed => ?_
    rw [if_pos parse, if_pos parse]
    exact ⟨rfl, rfl⟩
  rw [run_eq lex parse]
  have front : Pass.Follows (front config source file) (front config source file) state (ahead more earlier)
      (fun found => (found.1.rename (shift more) (shift more), found.2.rename (shift more))) := by
    refine (lex_follows source file).bind fun tokens second lexed => ?_
    have plain := (lex_meets source file state).of_ok lexed
    refine (parse_follows tokens).bind fun tree third parsed => ?_
    exact validate_follows config ((parse_meets plain second).of_ok parsed)
  refine front.andThen ?_
  rintro ⟨program, symbols⟩ middle found
  have accepted := (front_meets config source file state).of_ok found
  by_cases validate : stop = .validate
  · unfold back
    rw [if_pos validate, if_pos validate]
    exact ⟨⟨rfl, rfl⟩, rfl⟩
  rw [back_eq validate, back_eq validate]
  refine (lower_follows accepted).andThen fun made after done => ?_
  have same : lowered = .ok (.code made symbols) := by
    rw [← code, run_eq (by decide) (by decide), Pass.bind_of_ok found, back_eq (by decide), Pass.bind_of_ok done]
    rfl
  -- Text is written of complete code only, and lowering leaves no instruction without its operands.
  have complete := (lower_meets (accepted.lower_sound _ le_rfl)).of_ok done
  exact finish_alike config stop same fun func member => (complete func member).2

end Compilation

/-- A new compiler after some calls. -/
def Compiler.behind (calls : List Call) : Compiler := calls.foldl (fun compiler call => call.after compiler) {}

/-- A compilation does not depend on what was compiled before. With whatever calls behind it, a compiler makes of a source
what a new one makes, with one number added to the number of every name given out, or it fails with the same kind of error
at the same place; and it shows the same warnings. So a source that passes on a new compiler passes, also where warnings
count as errors. -/
theorem compile_forgets (earlier : List Call) (config : Config) (source : String) (file : Int) (stop : Stage) :
    let compiler := Compiler.behind earlier
    let first := Compiler.compile {} config source file stop
    let later := compiler.compile config source file stop
    Alike first.1 later.1
      (Product.Shifted config (Compiler.compile {} config source file .lower).1 compiler.names.next) Error.Like ∧
    later.2.shown = first.2.shown ∧ later.2.progress = first.2.progress := by
  intro compiler first later
  have start : Compilation.ahead compiler.names.next compiler.issued {} = { compiler with } := by
    unfold Compilation.ahead NameSupply.advance
    simp only [Nat.zero_add]
  have lowered : (Compilation.run config source file .lower {}).1 = (Compiler.compile {} config source file .lower).1 := rfl
  have alike := Compilation.run_alike stop compiler.names.next compiler.issued lowered
  unfold Pass.Alike at alike
  rw [start] at alike
  change Alike first.1 later.1 (fun product other => _ ∧ later.2 = Compilation.ahead _ _ first.2)
    (fun error other => _ ∧ later.2 = Compilation.ahead _ _ first.2) at alike
  clear_value first later
  obtain ⟨_ | product, after⟩ := first <;> obtain ⟨_ | other, beyond⟩ := later
  · exact ⟨alike.1, by rw [alike.2]; exact ⟨rfl, rfl⟩⟩
  · exact alike.elim
  · exact alike.elim
  · exact ⟨alike.1, by rw [alike.2]; exact ⟨rfl, rfl⟩⟩

end IntC
