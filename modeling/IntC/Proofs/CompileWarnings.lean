import IntC.Proofs.CompileNames

namespace IntC

/-- A step is the same if what stands behind its first part is, in the state that the first part leaves. -/
theorem Pass.bind_congr_at {σ α β : Type} {pass : Pass σ β} {f g : β → Pass σ α} {state : σ}
    (same : ∀ b after, pass state = (.ok b, after) → f b after = g b after) : (pass >>= f) state = (pass >>= g) state := by
  simp only [bind, ExceptT.bind, ExceptT.mk, StateT.bind]
  rcases outcome : pass state with ⟨_ | b, after⟩
  · rfl
  · exact same b after outcome

theorem Pass.bind_of_error {σ α β : Type} {pass : Pass σ β} {f : β → Pass σ α} {state after : σ} {error : Error}
    (outcome : pass state = (.error error, after)) : (pass >>= f) state = (.error error, after) := by
  simp only [bind, ExceptT.bind, ExceptT.mk, StateT.bind, outcome]
  rfl

/-- The configuration with other warnings enabled, where they do not count as errors. -/
def Config.lenient (config : Config) (enabled : EnabledWarnings) : Config :=
  { config with enabled, warningsAsErrors := false }

/-- The same, where they do. -/
def Config.strict (config : Config) (enabled : EnabledWarnings) : Config :=
  { config with enabled, warningsAsErrors := true }

def EnabledWarnings.among (enabled : EnabledWarnings) (warnings : List Warning) : List Warning :=
  warnings.filter fun w => enabled.get w.caution.kind

/-- A step that neither looks at warnings nor gives any. -/
def Pass.Wordless {α : Type} (pass : Pass Compilation α) : Prop :=
  ∀ names progress, ∃ outcome after later, ∀ issued shown,
    pass ⟨⟨names, issued⟩, shown, progress⟩ = (outcome, ⟨⟨after, issued⟩, shown, later⟩)

/-- A step that warnings do not sway. Its result or error, the names it takes, the stages it announces and the warnings it
gives depend neither on the warnings that are enabled nor on those that came before. It shows and counts those of its
warnings that are enabled. -/
def Pass.Unswayed {α : Type} (pass : EnabledWarnings → Pass Compilation α) : Prop :=
  ∀ names progress, ∃ outcome after later warnings, ∀ enabled issued shown,
    pass enabled ⟨⟨names, issued⟩, shown, progress⟩ =
      (outcome, ⟨⟨after, issued + (enabled.among warnings).length⟩, shown ++ enabled.among warnings, later⟩)

section
variable {α β : Type}

namespace Pass.Wordless

theorem bind {pass : Pass Compilation β} {f : β → Pass Compilation α} (first : pass.Wordless)
    (later : ∀ b, (f b).Wordless) : (pass >>= f).Wordless := by
  intro names progress
  obtain ⟨outcome, after, stages, runs⟩ := first names progress
  cases outcome with
  | error error => exact ⟨.error error, after, stages, fun issued shown => bind_of_error (runs issued shown)⟩
  | ok b =>
    obtain ⟨outcome, last, stages, goesOn⟩ := later b after stages
    exact ⟨outcome, last, stages, fun issued shown => (bind_of_ok (runs issued shown)).trans (goesOn issued shown)⟩

theorem pure (a : α) : Wordless (pure a) := fun names progress => ⟨.ok a, names, progress, fun _ _ => rfl⟩

theorem check (outcome : Except Error α) : Wordless (check outcome) :=
  fun names progress => ⟨outcome, names, progress, fun _ _ => by cases outcome <;> rfl⟩

theorem announce (stage : String) : Wordless (Compilation.announce stage) :=
  fun names progress => ⟨.ok (), names, progress ++ [stage], fun _ _ => rfl⟩

theorem withNames (pass : Pass NameSupply α) : Wordless (Compilation.withNames pass) :=
  fun names progress => ⟨(pass names).1, (pass names).2, progress, fun _ _ => rfl⟩

theorem keeps {pass : Pass Compilation α} (wordless : pass.Wordless) (state : Compilation) :
    (pass state).2.issued = state.issued ∧ (pass state).2.shown = state.shown := by
  obtain ⟨outcome, after, later, runs⟩ := wordless state.names state.progress
  have here := runs state.issued state.shown
  exact ⟨congrArg (·.2.issued) here, congrArg (·.2.shown) here⟩

theorem unswayed {pass : Pass Compilation α} (wordless : pass.Wordless) : Unswayed fun _ => pass := by
  intro names progress
  obtain ⟨outcome, after, later, runs⟩ := wordless names progress
  refine ⟨outcome, after, later, [], fun enabled issued shown => (runs issued shown).trans ?_⟩
  simp [EnabledWarnings.among]

end Pass.Wordless

theorem Pass.Unswayed.bind {first : EnabledWarnings → Pass Compilation β}
    {next : β → EnabledWarnings → Pass Compilation α} (unswayed : Unswayed first) (later : ∀ b, Unswayed (next b)) :
    Unswayed fun enabled => first enabled >>= fun b => next b enabled := by
  intro names progress
  obtain ⟨outcome, after, stages, warnings, runs⟩ := unswayed names progress
  cases outcome with
  | error error =>
    exact ⟨.error error, after, stages, warnings, fun enabled issued shown => bind_of_error (runs enabled issued shown)⟩
  | ok b =>
    obtain ⟨outcome, supply, last, more, goesOn⟩ := later b after stages
    refine ⟨outcome, supply, last, warnings ++ more, fun enabled issued shown => ?_⟩
    refine (bind_of_ok (runs enabled issued shown)).trans ((goesOn enabled _ _).trans ?_)
    simp [EnabledWarnings.among, Nat.add_assoc]

end

namespace Compilation

theorem lex_eq (source : String) (file : Int) (state : Compilation) : lex source file state =
    (tokenize source file, { state with progress := state.progress ++ ["Tokenizing source..."] }) := by
  unfold lex
  cases tokenize source file <;> rfl

theorem parse_eq (tokens : List Token) (state : Compilation) : parse tokens state =
    (IntC.parse tokens, { state with progress := state.progress ++ ["Parsing tokens into AST..."] }) := by
  unfold parse
  cases IntC.parse tokens <;> rfl

theorem lex_wordless (source : String) (file : Int) : (lex source file).Wordless :=
  (Pass.Wordless.announce _).bind fun _ => .check _

theorem parse_wordless (tokens : List Token) : (parse tokens).Wordless :=
  (Pass.Wordless.announce _).bind fun _ => .check _

theorem finish_wordless (config : Config) (stop : Stage) (code : Tac.Program) (symbols : SymbolTable) :
    (finish config stop code symbols).Wordless := by
  unfold finish
  split
  · exact .pure _
  split
  · split
    · exact .pure _
    · exact (Pass.Wordless.announce _).bind fun _ => (Pass.Wordless.check _).bind fun _ => .pure _
  · exact (Pass.Wordless.announce _).bind fun _ => (Pass.Wordless.check _).bind fun _ => .pure _

theorem back_wordless (config : Config) (stop : Stage) (program : Program) (symbols : SymbolTable) :
    (back config stop program symbols).Wordless := by
  by_cases early : stop = .validate
  · unfold back
    rw [if_pos early]
    exact .pure _
  · rw [back_eq early]
    refine Pass.Wordless.bind ?_ fun code => finish_wordless config stop code symbols
    exact (Pass.Wordless.announce _).bind fun _ => .withNames _

theorem resolve_unswayed (config : Config) (program : Program) :
    Pass.Unswayed fun enabled => resolve (config.lenient enabled) program :=
  fun names progress => ⟨(program.resolve ⟨names, []⟩).1, (program.resolve ⟨names, []⟩).2.names, progress,
    (program.resolve ⟨names, []⟩).2.warnings, fun _ _ _ => resolve_eq ..⟩

theorem check_unswayed (config : Config) (program : Program) :
    Pass.Unswayed fun enabled => check (config.lenient enabled) program :=
  fun names progress => ⟨_, names, progress, (program.check {}).2.warnings, fun _ _ _ => check_eq ..⟩

theorem validate_lenient (config : Config) (enabled : EnabledWarnings) (tree : Program) :
    validate (config.lenient enabled) tree = (do
      announce "Resolving identifiers..."
      let resolved ← resolve (config.lenient enabled) tree
      announce "Labeling loops..."
      let program ← withNames resolved.label
      announce "Type checking..."
      let symbols ← check (config.lenient enabled) program
      return (program, symbols)) := rfl

theorem validate_unswayed (config : Config) (tree : Program) :
    Pass.Unswayed fun enabled => validate (config.lenient enabled) tree := by
  simp only [validate_lenient]
  refine (Pass.Wordless.announce _).unswayed.bind fun _ => (resolve_unswayed config tree).bind fun resolved => ?_
  refine (Pass.Wordless.announce _).unswayed.bind fun _ => (Pass.Wordless.withNames _).unswayed.bind fun program => ?_
  refine (Pass.Wordless.announce _).unswayed.bind fun _ => (check_unswayed config program).bind fun symbols => ?_
  exact (Pass.Wordless.pure _).unswayed

/-- Nothing that is done to a source is swayed by warnings that do not count as errors. -/
theorem run_unswayed (config : Config) (source : String) (file : Int) (stop : Stage) :
    Pass.Unswayed fun enabled => run (config.lenient enabled) source file stop := by
  unfold run
  refine (lex_wordless source file).unswayed.bind fun tokens => ?_
  split
  · exact (Pass.Wordless.pure _).unswayed
  refine (parse_wordless tokens).unswayed.bind fun tree => ?_
  split
  · exact (Pass.Wordless.pure _).unswayed
  exact (validate_unswayed config tree).bind fun found => (back_wordless config stop found.1 found.2).unswayed

/-- The last step of a validation in which warnings count as errors: it fails if any were shown since there were so many. -/
def heed (issued : Nat) (found : Program × SymbolTable) : Pass Compilation (Program × SymbolTable) := do
  let given := (← get).issued - issued
  if given > 0 then Pass.fail (.warnings given) {}
  return found

theorem heed_eq (issued : Nat) (found : Program × SymbolTable) (state : Compilation) : heed issued found state =
    if state.issued - issued > 0 then (.error ⟨.warnings (state.issued - issued : Nat), {}⟩, state)
    else (.ok found, state) := by
  change (if state.issued - issued > 0 then _ else _ : Pass Compilation _) state = _
  split <;> rfl

section Strict
variable (config : Config) (enabled : EnabledWarnings)

theorem validate_strict (tree : Program) : validate (config.strict enabled) tree = (do
    let issued := (← get).issued
    validate (config.lenient enabled) tree >>= heed issued) := by
  have resolves : resolve (config.strict enabled) tree = resolve (config.lenient enabled) tree := rfl
  have checks : ∀ program, check (config.strict enabled) program = check (config.lenient enabled) program :=
    fun _ => rfl
  have counts : (config.strict enabled).warningsAsErrors = true := rfl
  rw [validate_lenient]
  unfold validate heed
  simp only [resolves, checks, counts, Bool.true_and, decide_eq_true_eq, bind_assoc, pure_bind]

/-- Where warnings count as errors, a source is validated as it is without that, and then the count is looked at. -/
theorem front_strict (source : String) (file : Int) : front (config.strict enabled) source file = (do
    let issued := (← get).issued
    front (config.lenient enabled) source file >>= heed issued) := by
  funext state
  unfold front
  simp only [bind_assoc, validate_strict]
  refine Pass.bind_congr_at fun tokens second lexed => Pass.bind_congr_at fun tree third parsed => ?_
  have first := ((lex_wordless source file).keeps state).1
  have next := ((parse_wordless tokens).keeps second).1
  rw [lexed] at first
  rw [parsed] at next
  rw [← first, ← next]
  rfl

theorem run_strict {source : String} {file : Int} {stop : Stage} (late : stop ≠ .lex) (later : stop ≠ .parse) :
    run (config.strict enabled) source file stop = (do
      let issued := (← get).issued
      let found ← front (config.lenient enabled) source file
      let found ← heed issued found
      back (config.lenient enabled) stop found.1 found.2) := by
  rw [run_eq late later, front_strict]
  simp only [bind_assoc]
  rfl

end Strict

end Compilation

/-- Every pass up to the check of types accepts a source, with names from the given supply. These are the warnings that
resolving and checking give, shown or not. -/
def Validated (names : NameSupply) (source : String) (file : Int) (warnings : List Warning) : Prop :=
  ∃ tokens tree resolved after program supply last, tokenize source file = .ok tokens ∧ parse tokens = .ok tree ∧
    tree.resolve ⟨names, []⟩ = (.ok resolved, after) ∧ resolved.label after.names = (.ok program, supply) ∧
    program.check {} = (.ok (), last) ∧ warnings = after.warnings ++ last.warnings

namespace Compilation
variable (config : Config) (enabled : EnabledWarnings) {source : String} {file : Int} {stop : Stage}

variable {names : NameSupply} {warnings : List Warning}

/-- The warnings shown for a source that is accepted are those of them that are enabled. -/
theorem exists_front_of_validated (validated : Validated names source file warnings) (issued : Nat)
    (shown : List Warning) (progress : List String) :
    ∃ found supply later, front (config.lenient enabled) source file ⟨⟨names, issued⟩, shown, progress⟩ =
      (.ok found, ⟨⟨supply, issued + (enabled.among warnings).length⟩, shown ++ enabled.among warnings, later⟩) := by
  obtain ⟨tokens, tree, resolved, after, program, supply, last, lexed, parsed, renamed, labelled, checked, rfl⟩ := validated
  have lexes : lex source file ⟨⟨names, issued⟩, shown, progress⟩ =
      (.ok tokens, ⟨⟨names, issued⟩, shown, progress ++ ["Tokenizing source..."]⟩) := by
    rw [lex_eq, lexed]
  have parses : ∀ stages, parse tokens ⟨⟨names, issued⟩, shown, stages⟩ =
      (.ok tree, ⟨⟨names, issued⟩, shown, stages ++ ["Parsing tokens into AST..."]⟩) := fun stages => by
    rw [parse_eq, parsed]
  have resolves : ∀ stages, resolve (config.lenient enabled) tree ⟨⟨names, issued⟩, shown, stages⟩ =
      (.ok resolved, ⟨⟨after.names, issued + (enabled.among after.warnings).length⟩,
        shown ++ enabled.among after.warnings, stages⟩) := fun stages => by
    rw [resolve_eq, renamed]
    rfl
  have labels : ∀ issued shown stages, withNames resolved.label ⟨⟨after.names, issued⟩, shown, stages⟩ =
      (.ok program, ⟨⟨supply, issued⟩, shown, stages⟩) := fun issued shown stages => by
    unfold withNames
    rw [labelled]
  have checks : ∀ issued shown stages, check (config.lenient enabled) program ⟨⟨supply, issued⟩, shown, stages⟩ =
      (.ok last.symbols, ⟨⟨supply, issued + (enabled.among last.warnings).length⟩,
        shown ++ enabled.among last.warnings, stages⟩) := fun issued shown stages => by
    rw [check_eq, checked]
    rfl
  have announces : ∀ stage names issued shown stages, announce stage ⟨⟨names, issued⟩, shown, stages⟩ =
      (.ok (), ⟨⟨names, issued⟩, shown, stages ++ [stage]⟩) := fun _ _ _ _ _ => rfl
  refine ⟨(program, last.symbols), supply, progress ++ ["Tokenizing source...", "Parsing tokens into AST...",
    "Resolving identifiers...", "Labeling loops...", "Type checking..."], ?_⟩
  rw [front, Pass.bind_of_ok lexes, Pass.bind_of_ok (parses _), validate_lenient, Pass.bind_of_ok (announces ..),
    Pass.bind_of_ok (resolves _), Pass.bind_of_ok (announces ..), Pass.bind_of_ok (labels ..),
    Pass.bind_of_ok (announces ..), Pass.bind_of_ok (checks ..)]
  change (Except.ok _, Compilation.mk _ _ _) = _
  simp [EnabledWarnings.among, Nat.add_assoc]

theorem exists_validated {config : Config} {enabled : EnabledWarnings} {state after : Compilation}
    {found : Program × SymbolTable} (done : front (config.lenient enabled) source file state = (.ok found, after)) :
    ∃ warnings, Validated state.names source file warnings := by
  obtain ⟨tokens, _, lexes, rest⟩ := Pass.bind_eq_ok.mp done
  obtain ⟨lexed, rfl⟩ := Prod.mk.inj ((lex_eq ..).symm.trans lexes)
  obtain ⟨tree, _, parses, rest⟩ := Pass.bind_eq_ok.mp rest
  obtain ⟨parsed, rfl⟩ := Prod.mk.inj ((parse_eq ..).symm.trans parses)
  rw [validate_lenient] at rest
  obtain ⟨_, _, announced, rest⟩ := Pass.bind_eq_ok.mp rest
  cases announced
  obtain ⟨resolved, fourth, resolves, rest⟩ := Pass.bind_eq_ok.mp rest
  obtain ⟨_, _, announced, rest⟩ := Pass.bind_eq_ok.mp rest
  cases announced
  obtain ⟨program, fifth, labels, rest⟩ := Pass.bind_eq_ok.mp rest
  obtain ⟨_, _, announced, rest⟩ := Pass.bind_eq_ok.mp rest
  cases announced
  obtain ⟨symbols, _, checks, -⟩ := Pass.bind_eq_ok.mp rest
  obtain ⟨resolution, renamed, names⟩ := resolve_eq_ok resolves
  have labelled := withNames_eq_ok labels
  obtain ⟨⟨last, checked, -⟩, -⟩ := checks_eq_ok checks
  change resolved.label fourth.names = _ at labelled
  rw [names] at labelled
  exact ⟨_, tokens, tree, resolved, resolution, program, fifth.names, last, lexed, parsed, renamed, labelled, checked, rfl⟩

/-- A source that is accepted with warnings fails where they count as errors. -/
theorem run_strict_of_shown (late : stop ≠ .lex) (later : stop ≠ .parse)
    (validated : Validated names source file warnings) (given : enabled.among warnings ≠ []) (issued : Nat) :
    ∃ supply stages, run (config.strict enabled) source file stop ⟨⟨names, issued⟩, [], []⟩ =
      (.error ⟨.warnings (enabled.among warnings).length, {}⟩,
        ⟨⟨supply, issued + (enabled.among warnings).length⟩, enabled.among warnings, stages⟩) := by
  obtain ⟨found, supply, stages, accepts⟩ := exists_front_of_validated config enabled validated issued [] []
  have heeds := heed_eq issued found ⟨⟨supply, issued + (enabled.among warnings).length⟩, enabled.among warnings, stages⟩
  have counted : issued + (enabled.among warnings).length - issued = (enabled.among warnings).length :=
    Nat.add_sub_cancel_left ..
  rw [if_pos (by simpa [counted, List.length_pos_iff] using given), counted] at heeds
  refine ⟨supply, stages, ?_⟩
  rw [run_strict config enabled late later]
  exact (Pass.bind_of_ok accepts).trans (Pass.bind_of_error heeds)

/-- Any other source ends as it does where they do not. -/
theorem run_strict_of_silent (issued : Nat) (silent : stop ≠ .lex → stop ≠ .parse →
      ∀ warnings, Validated names source file warnings → enabled.among warnings = []) :
    run (config.strict enabled) source file stop ⟨⟨names, issued⟩, [], []⟩ =
      run (config.lenient enabled) source file stop ⟨⟨names, issued⟩, [], []⟩ := by
  by_cases lex : stop = .lex
  · unfold run
    simp only [if_pos lex]
  by_cases parse : stop = .parse
  · unfold run
    simp only [if_pos parse]
  rw [run_strict config enabled lex parse, run_eq lex parse]
  change (front (config.lenient enabled) source file >>= _) _ = _
  refine Pass.bind_congr_at fun found after accepts => ?_
  obtain ⟨warnings, validated⟩ := exists_validated accepts
  obtain ⟨_, supply, stages, shows⟩ := exists_front_of_validated config enabled validated issued [] []
  have heeds := heed_eq issued found after
  rw [silent lex parse warnings validated] at shows
  obtain ⟨-, rfl⟩ := Prod.mk.inj (accepts.symm.trans shows)
  rw [if_neg (by simp)] at heeds
  exact Pass.bind_of_ok heeds

/-- What is shown for a source that is accepted, however far it is taken behind that. -/
theorem shown_of_validated (late : stop ≠ .lex) (later : stop ≠ .parse)
    (validated : Validated names source file warnings) (issued : Nat) :
    (run (config.lenient enabled) source file stop ⟨⟨names, issued⟩, [], []⟩).2.shown = enabled.among warnings := by
  obtain ⟨found, supply, stages, accepts⟩ := exists_front_of_validated config enabled validated issued [] []
  rw [run_eq late later, Pass.bind_of_ok accepts]
  exact ((back_wordless _ stop found.1 found.2).keeps _).2

end Compilation

/-- A source fails for its warnings: they count as errors, some were shown, and nothing else is wrong with it. -/
def Refused (names : NameSupply) (source : String) (file : Int) (stop : Stage) (shown : List Warning) : Prop :=
  stop ≠ .lex ∧ stop ≠ .parse ∧ (∃ warnings, Validated names source file warnings) ∧ shown ≠ []

/-- Where warnings count as errors, the same ones are shown, and what comes of a source changes in one case only. -/
theorem compile_strict (names : NameSupply) (issued : Nat) (config : Config) (enabled : EnabledWarnings)
    (source : String) (file : Int) (stop : Stage) :
    let lenient := Compiler.compile ⟨names, issued⟩ (config.lenient enabled) source file stop
    let strict := Compiler.compile ⟨names, issued⟩ (config.strict enabled) source file stop
    strict.2.shown = lenient.2.shown ∧
    (Refused names source file stop strict.2.shown → strict.2.issued = issued + strict.2.shown.length ∧
      strict.1 = .error ⟨.warnings strict.2.shown.length, {}⟩) ∧
    (¬Refused names source file stop strict.2.shown → strict = lenient) := by
  intro lenient strict
  by_cases refused : stop ≠ .lex ∧ stop ≠ .parse ∧
      ∃ warnings, Validated names source file warnings ∧ enabled.among warnings ≠ []
  · obtain ⟨late, later, warnings, validated, given⟩ := refused
    obtain ⟨supply, stages, fails⟩ := Compilation.run_strict_of_shown config enabled late later validated given issued
    have shown : strict.2.shown = enabled.among warnings := congrArg (·.2.shown) fails
    have count : strict.2.issued = issued + (enabled.among warnings).length := congrArg (·.2.issued) fails
    have error : strict.1 = .error ⟨.warnings (enabled.among warnings).length, {}⟩ := congrArg Prod.fst fails
    rw [shown]
    refine ⟨(Compilation.shown_of_validated config enabled late later validated issued).symm, fun _ => ⟨count, error⟩, ?_⟩
    exact fun other => absurd ⟨late, later, ⟨warnings, validated⟩, given⟩ other
  · have silent : stop ≠ .lex → stop ≠ .parse →
        ∀ warnings, Validated names source file warnings → enabled.among warnings = [] :=
      fun late later warnings validated => by_contra fun given => refused ⟨late, later, warnings, validated, given⟩
    have same : strict = lenient := Compilation.run_strict_of_silent config enabled issued silent
    rw [same]
    refine ⟨rfl, fun other => ?_, fun _ => rfl⟩
    obtain ⟨late, later, ⟨warnings, validated⟩, given⟩ := other
    have shown : lenient.2.shown = enabled.among warnings :=
      Compilation.shown_of_validated config enabled late later validated issued
    exact absurd (shown.trans (silent late later warnings validated)) given

/-- Warnings have no say in what is made of a source. With the same names to give out, compilers that have shown different
numbers of warnings, under configurations that enable different ones, have the same result or the same error. Where warnings
count as errors that is what they have again, except that a source fails if every pass up to the check of types accepts it
and warnings were shown for it: the enabled ones of those that the passes give. The error is of a kind of its own and has
the number of the warnings shown in this compilation. -/
theorem compile_ignores_warnings (names : NameSupply) (issued issued' : Nat) (config : Config)
    (enabled enabled' : EnabledWarnings) (source : String) (file : Int) (stop : Stage) :
    let left := Compiler.compile ⟨names, issued⟩ (config.lenient enabled) source file stop
    let right := Compiler.compile ⟨names, issued'⟩ (config.lenient enabled') source file stop
    let strict := Compiler.compile ⟨names, issued'⟩ (config.strict enabled') source file stop
    let given := strict.2.shown
    (right.1 = left.1 ∧ right.2.names = left.2.names ∧ right.2.progress = left.2.progress) ∧
    (strict.2.issued = issued' + given.length ∧ ∀ warnings, stop ≠ .lex → stop ≠ .parse →
      Validated names source file warnings → given = enabled'.among warnings) ∧
    (Refused names source file stop given → ∃ error, strict.1 = .error error ∧
      error.cause = .warnings given.length ∧ error.cause.kind? = some .warningAsError) ∧
    (¬Refused names source file stop given → strict.1 = left.1) := by
  intro left right strict given
  obtain ⟨outcome, after, later, warnings, runs⟩ := Compilation.run_unswayed config source file stop names []
  have first : left = _ := runs enabled issued []
  have second : right = _ := runs enabled' issued' []
  have same : right.1 = left.1 := by rw [first, second]
  obtain ⟨shown, refuses, passes⟩ := compile_strict names issued' config enabled' source file stop
  refine ⟨⟨same, by rw [first, second], by rw [first, second]⟩, ⟨?_, ?_⟩, ?_, ?_⟩
  · by_cases refused : Refused names source file stop given
    · exact (refuses refused).1
    · have agrees : strict = right := passes refused
      change strict.2.issued = issued' + strict.2.shown.length
      rw [agrees, second]
      rfl
  · intro warnings late later validated
    exact shown.trans (Compilation.shown_of_validated config enabled' late later validated issued')
  · intro refused
    exact ⟨_, (refuses refused).2, rfl, rfl⟩
  · intro accepted
    exact (congrArg Prod.fst (passes accepted)).trans same

/-- A source whose inner variable hides the outer one. -/
def shadowingSource : String := "int main(void) \x7b int a = 1; \x7b int a = 2; \x7d return a; \x7d"

def shadowing : Sample .lower fun _ => true where
  source := shadowingSource
  config := Config.lenient {} {}
  passes := by decide +kernel

/-- A compiler with seven warnings behind it fails for the one it shows here, if it is to heed it. -/
theorem compile_ignores_warnings_shadowing :
    let shown := (Compiler.compile ⟨{}, 7⟩ (Config.strict {} ⟨true, true, true⟩) shadowingSource 0 .lower).2.shown
    shown.length = 1 ∧ Refused {} shadowingSource 0 .lower shown ∧
    (Compiler.compile {} (Config.lenient {} {}) shadowingSource 0 .lower).1.isOk = true ∧
    ∃ error, (Compiler.compile ⟨{}, 7⟩ (Config.strict {} ⟨true, true, true⟩) shadowingSource 0 .lower).1 = .error error ∧
      error.cause = .warnings shown.length ∧ error.cause.kind? = some .warningAsError := by
  intro shown
  have one : shown.length = 1 := by decide +kernel
  obtain ⟨product, made, -⟩ := shadowing.exists_product
  have refused : Refused {} shadowingSource 0 .lower shown := by
    refine ⟨by decide, by decide, ?_, List.ne_nil_of_length_pos (by omega)⟩
    obtain ⟨found, after, accepts, -⟩ := Compilation.exists_front (by decide) (by decide) (Prod.ext made rfl)
    exact Compilation.exists_validated accepts
  obtain ⟨-, -, refuses, -⟩ :=
    compile_ignores_warnings {} 0 7 {} {} ⟨true, true, true⟩ shadowingSource 0 .lower
  exact ⟨one, refused, congrArg Except.isOk made, refuses refused⟩

end IntC
