import IntC.Compile
import IntC.Proofs.Loop
import IntC.Proofs.Machine.LegalRun
import IntC.Proofs.Scope
import IntC.Proofs.Symbol.Check
import IntC.Proofs.Tac.Lowering
import IntC.Proofs.Token.Lexer
import IntC.Proofs.Tree.Parser

namespace IntC

namespace Machine

/-- Besides the operands it is given, an encodable form uses scratch registers only. -/
theorem mem_operands_encodable (instr : Instr) :
    ∀ part ∈ instr.encodable, ∀ op ∈ part.operands, op ∈ instr.operands ∨ op.isScratch = true := by
  fun_cases Instr.encodable instr
  case case11 =>
    intro part same op inside
    rw [List.mem_singleton.mp same] at inside
    exact .inl inside
  all_goals simp [Instr.operands]

/-- Complete code is lowered to the end, and then every operand has its home. -/
theorem exists_lower {code : Tac.Program} (symbols : SymbolTable) (align : Int)
    (complete : ∀ func ∈ code.funcs, ∀ instr ∈ func.body, instr.isComplete = true) :
    ∃ machine, lower code symbols align = .ok machine ∧
      ∀ func ∈ machine.funcs, ∀ instr ∈ func.instrs, ∀ op ∈ instr.operands, op.isSettled = true := by
  obtain ⟨selected, made⟩ := exists_select complete
  have settled := select_assignStorage_isSettled symbols made fun func member instr inside =>
    Tac.Instr.dest_isVar (complete func member instr inside)
  have each : ∀ func ∈ (selected.assignStorage symbols).funcs, func.legalize align =
      .ok { func with instrs := .allocate (roundUp func.stackSize align) :: legalized func.instrs } :=
    fun func member => Func.legalize_eq_ok (settled func member)
  have done := mapM_ok_map each
  refine ⟨_, (bind_eq_ok.mpr ⟨selected, made, bind_eq_ok.mpr ⟨_, done, rfl⟩⟩), ?_⟩
  simp only [List.forall_mem_map, List.forall_mem_cons]
  refine fun func member => ⟨List.forall_mem_nil _, fun part among op inside => ?_⟩
  obtain ⟨instr, here, encoded⟩ := List.mem_flatMap.mp among
  rcases mem_operands_encodable instr part encoded op inside with old | scratch
  · exact (isSettled_iff.mp (settled func member instr here)).2 op old
  · cases op with
    | pseudo name => cases scratch
    | _ => rfl

end Machine

namespace Qbe

variable {table : SymbolTable}

theorem body_isSome {code : Tac.Instr} (state : Writing) (complete : code.isComplete = true) :
    (body table code state).1.isSome = true := by
  cases code with
  | unknown | lacking => cases complete
  | _ => rfl

theorem instr_meets {code : Tac.Instr} (state : Writing) (complete : code.isComplete = true) :
    Pass.Meets (instr table code) state (fun _ _ => True) fun _ => False := by
  unfold instr
  extract_lets finish
  have finished : ∀ opening after, Pass.Meets (finish opening) after (fun _ _ => True) fun _ => False := by
    intro opening after
    unfold finish
    rw [Pass.meets_bind, Pass.meets_lift]
    obtain ⟨lines, same⟩ := Option.isSome_iff_exists.mp (body_isSome after complete)
    rw [same]
    trivial
  split
  · rw [Pass.meets_bind, Pass.meets_lift]
    exact finished _ _
  · exact finished _ _
  · rw [Pass.meets_bind, Pass.meets_lift]
    exact finished _ _

theorem func_meets {code : Tac.Func} (state : Writing) (complete : ∀ instr ∈ code.body, instr.isComplete = true) :
    Pass.Meets (func table code) state (fun _ _ => True) fun _ => False := by
  unfold func
  rw [Pass.meets_bind, Pass.meets_lift]
  refine (Pass.meets_mapM (fun instr member after => ?_) _).bind fun _ _ _ => trivial
  exact instr_meets after (complete instr member)

theorem exists_program {code : Tac.Program} (table : SymbolTable) (wordSize : Int)
    (complete : ∀ func ∈ code.funcs, ∀ instr ∈ func.body, instr.isComplete = true) :
    ∃ text, program table wordSize code = .ok text := by
  have written : Pass.Meets (code.funcs.mapM (func table)) {} (fun _ _ => True) fun _ => False :=
    Pass.meets_mapM (fun func member after => func_meets after (complete func member)) {}
  unfold program
  unfold Pass.Meets at written
  generalize code.funcs.mapM (func table) {} = result at written ⊢
  obtain ⟨error | texts, after⟩ := result
  · exact written.elim
  · exact ⟨_, rfl⟩

end Qbe

theorem exists_emit {config : Config} (supported : config.backend = .x86 ∨ config.backend = .qbe) {code : Tac.Program}
    (symbols : SymbolTable) (complete : ∀ func ∈ code.funcs, ∀ instr ∈ func.body, instr.isComplete = true) :
    ∃ text, emit config code symbols = .ok text := by
  unfold emit
  rcases supported with native | qbe
  · obtain ⟨machine, done, -⟩ := Machine.exists_lower symbols config.stackAlignment complete
    rw [native, done]
    exact ⟨_, rfl⟩
  · rw [qbe]
    exact Qbe.exists_program symbols config.wordSize complete

namespace Compilation

variable {program : Program} {state : Compilation}

theorem resolve_meets (written : unitWritten program.items) (config : Config) (state : Compilation) :
    Pass.Meets (resolve config program) state (fun found after =>
      ∀ bound, after.names.next ≤ bound → unitBound bound [] found.items) Error.IsUser := by
  have meets := Program.resolve_meets written ⟨state.names, []⟩
  unfold Pass.Meets at meets
  unfold resolve
  rw [Pass.meets_bind, Pass.meets_get]
  generalize program.resolve ⟨state.names, []⟩ = result at meets ⊢
  obtain ⟨outcome, after⟩ := result
  simp only [Pass.meets_bind, Pass.meets_modify, give, Pass.meets_check]
  exact meets.mono fun _ resolves => resolves.2

theorem withNames_meets {α : Type} {pass : Pass NameSupply α} {done : α → NameSupply → Prop} {failed : Error → Prop}
    (meets : Pass.Meets pass state.names done failed) :
    Pass.Meets (withNames pass) state (fun a after => done a after.names) failed := meets

theorem check_meets {bound : Nat} (fits : unitBound bound [] program.items) (config : Config) (state : Compilation) :
    Pass.Meets (check config program) state (fun symbols after => after.names = state.names ∧ symbols.Sound bound ∧
      ∀ decl, .func decl ∈ program.items → symbols.HasFunc decl.name) Error.IsUser := by
  have meets := Program.check_meets fits
  unfold Pass.Meets at meets
  unfold check
  generalize program.check {} = result at meets ⊢
  obtain ⟨outcome, after⟩ := result
  simp only [Pass.meets_bind, Pass.meets_modify, give, Pass.meets_check, Pass.meets_pure]
  exact meets.mono fun _ sound => ⟨trivial, sound⟩

theorem validate_meets (written : unitWritten program.items) (config : Config) (state : Compilation) :
    Pass.Meets (validate config program) state (fun found after => Accepted after.names.next found.1 found.2)
      Error.IsUser := by
  unfold validate
  simp only [announce, Pass.meets_bind, Pass.meets_get, Pass.meets_modify]
  refine (resolve_meets written config _).mono fun resolved second fits => ?_
  refine (withNames_meets (Program.label_meets _ resolved)).mono ?_
  rintro labelled third ⟨grown, kept, told⟩
  have fitting := kept third.names.next [] (fits _ grown)
  refine (check_meets fitting config _).mono ?_
  rintro symbols fourth ⟨same, sound, funcs⟩
  have accepted : Accepted fourth.names.next labelled symbols := by
    rw [same]
    exact ⟨fitting, told _ le_rfl, sound, funcs⟩
  split
  · rfl
  · exact accepted

/-- The stages that find out whether a source is a program. -/
def front (config : Config) (source : String) (file : Int) : Pass Compilation (Program × SymbolTable) := do
  let tokens ← lex source file
  let program ← parse tokens
  validate config program

def back (config : Config) (stop : Stage) (program : Program) (symbols : SymbolTable) : Pass Compilation Product := do
  if stop = .validate then return .checked program symbols
  let code ← lower program symbols
  if stop = .lower then return .code code symbols
  if stop = .codegen then
    if config.backend ≠ .x86 then return .machine none
    announce "Selecting instructions..."
    return .machine (some (← Pass.check (Machine.lower code symbols config.stackAlignment)))
  announce ("Generating code with '" ++ config.backend.name ++ "' backend...")
  return .output (← Pass.check (emit config code symbols))

theorem run_eq {config : Config} {source : String} {file : Int} {stop : Stage} (lexed : stop ≠ .lex)
    (parsed : stop ≠ .parse) : run config source file stop =
      front config source file >>= fun found => back config stop found.1 found.2 := by
  unfold run front back
  simp only [if_neg lexed, if_neg parsed, bind_assoc]

theorem lex_meets (source : String) (file : Int) (state : Compilation) :
    Pass.Meets (lex source file) state (fun tokens _ => ∀ token ∈ tokens, token.Plain) Error.IsUser := by
  unfold lex
  simp only [announce, Pass.meets_bind, Pass.meets_modify, Pass.meets_check]
  exact tokenize_meets source file

theorem parse_meets {tokens : List Token} (plain : ∀ token ∈ tokens, token.Plain) (state : Compilation) :
    Pass.Meets (parse tokens) state (fun program _ => unitWritten program.items) Error.IsUser := by
  unfold parse
  simp only [announce, Pass.meets_bind, Pass.meets_modify, Pass.meets_check]
  exact IntC.parse_meets plain

theorem front_meets (config : Config) (source : String) (file : Int) (state : Compilation) :
    Pass.Meets (front config source file) state (fun found after => Accepted after.names.next found.1 found.2)
      Error.IsUser := by
  unfold front
  refine (lex_meets source file state).bind fun tokens second plain => ?_
  refine (parse_meets plain second).bind fun program third written => ?_
  exact validate_meets written config third

theorem exists_front {config : Config} {source : String} {file : Int} {stop : Stage} {last : Compilation}
    {product : Product} (lexed : stop ≠ .lex) (parsed : stop ≠ .parse)
    (made : run config source file stop state = (.ok product, last)) :
    ∃ found middle, front config source file state = (.ok found, middle) ∧
      Accepted middle.names.next found.1 found.2 ∧ back config stop found.1 found.2 middle = (.ok product, last) := by
  rw [run_eq lexed parsed, Pass.bind_eq_ok] at made
  obtain ⟨found, middle, fine, rest⟩ := made
  exact ⟨found, middle, fine, (front_meets config source file state).of_ok fine, rest⟩

theorem lower_meets {symbols : SymbolTable} {done : Tac.Program → Prop} {failed : Error → Prop}
    (meets : Pass.Meets (program.lower symbols) state.names (fun code _ => done code) failed) :
    Pass.Meets (lower program symbols) state (fun code _ => done code) failed := by
  unfold lower
  simp only [announce, Pass.meets_bind, Pass.meets_modify]
  exact withNames_meets meets

end Compilation

/-- What the stage behind takes for granted: a tree has the shape the grammar gives it, a checked program
has its names resolved and its symbols in order, code is complete, and machine code has no operand left
without a home. -/
def Product.Sound : Product → Prop
  | .tokens list => ∀ token ∈ list, token.Plain
  | .tree program => unitWritten program.items
  | .checked program symbols => ∃ bound, Accepted bound program symbols
  | .code program _ => ∀ func ∈ program.funcs, func.Sound ∧ ∀ instr ∈ func.body, instr.isComplete = true
  | .machine program => ∀ made ∈ program, ∀ func ∈ made.funcs, ∀ instr ∈ func.instrs, ∀ op ∈ instr.operands,
    op.isSettled = true
  | .output _ => True

namespace Compilation

variable {config : Config}

/-- Behind validation no stage fails. -/
theorem back_meets (supported : config.backend = .x86 ∨ config.backend = .qbe) (stop : Stage) {program : Program}
    {symbols : SymbolTable} {state : Compilation} (accepted : Accepted state.names.next program symbols) :
    Pass.Meets (back config stop program symbols) state (fun product _ => product.Sound) fun _ => False := by
  unfold back
  split
  · exact ⟨_, accepted⟩
  refine (lower_meets (accepted.lower_sound _ le_rfl)).bind fun code after good => ?_
  have complete : ∀ func ∈ code.funcs, ∀ instr ∈ func.body, instr.isComplete = true := fun func member =>
    (good func member).2
  split
  · exact good
  split
  · split
    · exact fun _ member => nomatch member
    · obtain ⟨machine, done, settled⟩ := Machine.exists_lower symbols config.stackAlignment complete
      simp only [announce, Pass.meets_bind, Pass.meets_modify, Pass.meets_check, done]
      rintro _ ⟨⟩
      exact settled
  · obtain ⟨text, done⟩ := exists_emit supported symbols complete
    simp only [announce, Pass.meets_bind, Pass.meets_modify, Pass.meets_check, done]
    trivial

theorem run_meets (supported : config.backend = .x86 ∨ config.backend = .qbe) (source : String) (file : Int)
    (stop : Stage) (state : Compilation) :
    Pass.Meets (run config source file stop) state (fun product _ => product.Sound) Error.IsUser := by
  by_cases lexed : stop = .lex
  · unfold run
    exact (lex_meets source file state).bind fun tokens _ plain => by rw [if_pos lexed]; exact plain
  by_cases parsed : stop = .parse
  · unfold run
    refine (lex_meets source file state).bind fun tokens second plain => ?_
    rw [if_neg lexed]
    exact (parse_meets plain second).bind fun program _ written => by rw [if_pos parsed]; exact written
  rw [run_eq lexed parsed]
  refine (front_meets config source file state).bind fun found after accepted => ?_
  exact (back_meets supported stop accepted).relax

/-- A source that passes validation is compiled up to any stage. -/
theorem exists_run (supported : config.backend = .x86 ∨ config.backend = .qbe) {source : String} {file : Int}
    {state after : Compilation} {product : Product}
    (valid : run config source file .validate state = (.ok product, after)) (stop : Stage) :
    ∃ other last, run config source file stop state = (.ok other, last) := by
  obtain ⟨found, middle, fine, accepted, -⟩ := exists_front (by decide) (by decide) valid
  by_cases lexed : stop = .lex
  · obtain ⟨tokens, second, first, -⟩ := Pass.bind_eq_ok.mp fine
    refine ⟨.tokens tokens, second, Pass.bind_eq_ok.mpr ⟨tokens, second, first, ?_⟩⟩
    rw [if_pos lexed]
    rfl
  by_cases parsed : stop = .parse
  · obtain ⟨tokens, second, first, rest⟩ := Pass.bind_eq_ok.mp fine
    obtain ⟨program, third, next, -⟩ := Pass.bind_eq_ok.mp rest
    refine ⟨.tree program, third, Pass.bind_eq_ok.mpr ⟨tokens, second, first, ?_⟩⟩
    rw [if_neg lexed]
    refine Pass.bind_eq_ok.mpr ⟨program, third, next, ?_⟩
    rw [if_pos parsed]
    rfl
  obtain ⟨other, last, done, -⟩ := (back_meets supported stop accepted).exists_ok
  rw [run_eq lexed parsed]
  exact ⟨other, last, Pass.bind_eq_ok.mpr ⟨found, middle, fine, done⟩⟩

end Compilation

/-- No source breaks a promise between two stages: a compilation ends with a product that keeps what the
stage behind takes for granted, or with an error that is due to the source. And once the source has
passed validation, no stage fails. -/
theorem compile_keeps_promises (compiler : Compiler) (config : Config) (source : String) (file : Int)
    (supported : config.backend = .x86 ∨ config.backend = .qbe) :
    (∀ stop, match (compiler.compile config source file stop).1 with
      | .ok product => product.Sound
      | .error error => error.cause.kind? ≠ some .internal ∧ ∀ shown, error.cause ≠ .unsupportedInstruction shown) ∧
    ((∃ product, (compiler.compile config source file .validate).1 = .ok product) →
      ∀ stop, ∃ product, (compiler.compile config source file stop).1 = .ok product) := by
  refine ⟨fun stop => ?_, fun passed stop => ?_⟩
  · have meets := Compilation.run_meets supported source file stop { compiler with }
    unfold Pass.Meets at meets
    rw [Compiler.compile]
    generalize Compilation.run config source file stop { compiler with } = result at meets ⊢
    obtain ⟨error | product, after⟩ := result
    · exact Error.isUser_iff.mp meets
    · exact meets
  · obtain ⟨product, valid⟩ := passed
    have whole : Compilation.run config source file .validate { compiler with } =
        (.ok product, (compiler.compile config source file .validate).2) := Prod.ext valid rfl
    obtain ⟨other, last, done⟩ := Compilation.exists_run supported whole stop
    exact ⟨other, congrArg Prod.fst done⟩

/-- A source, with a test that passes on what it is compiled to. -/
structure Sample (stop : Stage) (test : Product → Bool) where
  source : String
  config : Config := {}
  passes : (Compiler.compile {} config source 0 stop).1.toOption.any test = true

theorem Sample.exists_product {stop : Stage} {test : Product → Bool} (sample : Sample stop test) :
    ∃ product, (Compiler.compile {} sample.config sample.source 0 stop).1 = .ok product ∧ test product = true := by
  obtain ⟨product, made, passes⟩ := (Option.any_eq_true ..).mp sample.passes
  exact ⟨product, eq_ok_of_toOption made, passes⟩

theorem Sample.exists_code {test : Product → Bool} (sample : Sample .lower test) :
    ∃ code symbols, (Compiler.compile {} sample.config sample.source 0 .lower).1 = .ok (.code code symbols) ∧
      test (.code code symbols) = true := by
  obtain ⟨product, made, passes⟩ := sample.exists_product
  obtain ⟨⟨program, symbols⟩, middle, -, -, rest⟩ :=
    Compilation.exists_front (by decide) (by decide) (Prod.ext made rfl)
  obtain ⟨code, last, -, same⟩ := Pass.bind_eq_ok.mp rest
  cases same
  exact ⟨code, symbols, made, passes⟩

/-- The source is accepted, also where warnings count as errors. -/
def looping : Sample .validate fun _ => true where
  source := "int n; int main(void) \x7b while (n < 9) n = n + 1; return n; \x7d"
  config := { warningsAsErrors := true }
  passes := by decide +kernel

theorem compile_keeps_promises_loop :
    ∃ product, (Compiler.compile {} { warningsAsErrors := true }
      "int n; int main(void) \x7b while (n < 9) n = n + 1; return n; \x7d" 0 .all).1 = .ok product := by
  obtain ⟨product, valid, -⟩ := looping.exists_product
  exact (compile_keeps_promises {} looping.config looping.source 0 (.inl rfl)).2 ⟨product, valid⟩ .all

end IntC
