import IntC.Proofs.Loop
import IntC.Proofs.LoopNames
import IntC.Proofs.Scope
import IntC.Proofs.ScopeNames
import IntC.Proofs.Symbol.Check
import IntC.Proofs.Symbol.CheckWeight
import IntC.Proofs.Symbol.Steps
import IntC.Proofs.Token.Lexer
import IntC.Proofs.Tree.Parser
import Mathlib.Data.List.Induction

namespace IntC

variable {bound : Nat} {known : List String}

/-- How much is known about an initial value. -/
def Initial.rank : Initial → Nat
  | .none => 0
  | .tentative => 1
  | .value _ => 2

/-- No less is known than before, and a value stays what it is. -/
def Initial.Sharpens (old new : Initial) : Prop :=
  old.rank ≤ new.rank ∧ ∀ value, old = .value value → new = .value value

/-- The class of the attributes stays, and so does the linkage. A function that is defined stays defined. -/
def SymbolAttr.Sharpens : SymbolAttr → SymbolAttr → Prop
  | .func defined global, .func defined' global' => global' = global ∧ (defined = true → defined' = true)
  | .static init global, .static init' global' => global' = global ∧ init.Sharpens init'
  | .automatic, .automatic => True
  | _, _ => False

def Symbol.Sharpens (old new : Symbol) : Prop := new.type = old.type ∧ old.attr.Sharpens new.attr

/-- Functions, and only they, have the type of functions; what has no initial value at all is from elsewhere. -/
def Symbol.Coherent (symbol : Symbol) : Prop :=
  ((∃ params, symbol.type = .func params) ↔ ∃ defined global, symbol.attr = .func defined global) ∧
    ∀ global, symbol.attr = .static .none global → global = true

theorem Initial.Sharpens.refl (init : Initial) : init.Sharpens init := ⟨le_rfl, fun _ same => same⟩

theorem Initial.sharpens_merge (old new : Initial) : old.Sharpens (old.merge new) := by
  cases old with
  | none => exact ⟨Nat.zero_le _, nofun⟩
  | tentative => cases new <;> exact ⟨by simp [Initial.merge, Initial.rank], nofun⟩
  | value value => exact .refl _

theorem Initial.eq_none_of_merge {old new : Initial} (merged : old.merge new = .none) : old = .none := by
  cases old with
  | none => rfl
  | tentative => cases new <;> cases merged
  | value => cases merged

theorem Symbol.Sharpens.refl (symbol : Symbol) : symbol.Sharpens symbol := by
  obtain ⟨type, attr⟩ := symbol
  cases attr with
  | func => exact ⟨rfl, rfl, id⟩
  | static init => exact ⟨rfl, rfl, .refl init⟩
  | automatic => exact ⟨rfl, trivial⟩

theorem Symbol.coherent_func (params : Int) (defined global : Bool) :
    Symbol.Coherent ⟨.func params, .func defined global⟩ :=
  ⟨⟨fun _ => ⟨defined, global, rfl⟩, fun _ => ⟨params, rfl⟩⟩, nofun⟩

theorem Symbol.coherent_static {init : Initial} {global : Bool} (linked : init = .none → global = true) :
    Symbol.Coherent ⟨.int, .static init global⟩ := by
  refine ⟨⟨?_, ?_⟩, ?_⟩
  · rintro ⟨_, ⟨⟩⟩
  · rintro ⟨_, _, ⟨⟩⟩
  · rintro _ ⟨⟩
    exact linked rfl

theorem Symbol.coherent_automatic : Symbol.Coherent ⟨.int, .automatic⟩ := by
  refine ⟨⟨?_, ?_⟩, nofun⟩
  · rintro ⟨_, ⟨⟩⟩
  · rintro ⟨_, _, ⟨⟩⟩

namespace SymbolTable

def Coherent (table : SymbolTable) : Prop := ∀ name symbol, table.get? name = some symbol → symbol.Coherent

/-- Every name that was there stays at its place and is no less precise than before. -/
structure Sharpens (before after : SymbolTable) : Prop where
  places : before.names <+: after.names
  symbols : ∀ name old, before.get? name = some old → ∃ new, after.get? name = some new ∧ old.Sharpens new

theorem Sharpens.refl (table : SymbolTable) : table.Sharpens table :=
  ⟨List.prefix_refl _, fun _ old found => ⟨old, found, .refl old⟩⟩

theorem names_prefix_set (table : SymbolTable) (name : String) (symbol : Symbol) :
    table.names <+: (table.set name symbol).names := by
  unfold SymbolTable.names SymbolTable.set
  rw [names_put]
  split
  · exact List.prefix_refl _
  · exact List.prefix_append _ _

theorem Sharpens.set {table : SymbolTable} {name : String} {symbol : Symbol}
    (sharper : ∀ old, table.get? name = some old → old.Sharpens symbol) : table.Sharpens (table.set name symbol) := by
  refine ⟨names_prefix_set table name symbol, fun other old found => ?_⟩
  rw [get?_set]
  split
  · rename_i same
    subst same
    exact ⟨symbol, rfl, sharper old found⟩
  · exact ⟨old, found, .refl old⟩

theorem Coherent.set {table : SymbolTable} (coherent : table.Coherent) {name : String} {symbol : Symbol}
    (fine : symbol.Coherent) : (table.set name symbol).Coherent := by
  intro other found
  rw [get?_set]
  split
  · rintro ⟨⟩
    exact fine
  · exact coherent other found

end SymbolTable

def CheckStep.name? (step : CheckStep) : Option String := step.own?.or step.linked?

/-- What a step does to the table. It leaves the table as it is, or it records one symbol under its name, which is no
less precise than what was there; a name of its own it records unless it fails. -/
def CheckStep.Updates (step : CheckStep) (before : SymbolTable) (outcome : Except Error Unit) (after : SymbolTable) :
    Prop :=
  (after = before ∧ (outcome = .ok () → step.own? = none)) ∨
    ∃ name symbol, step.name? = some name ∧ after = before.set name symbol ∧ symbol.Coherent ∧
      ∀ old, before.get? name = some old → old.Sharpens symbol

theorem checkUse_state (value : Expr) (state : Checking) : (checkUse value state).2 = state := by
  change (Pass.check (value.check state.symbols) state).2 = state
  cases value.check state.symbols <;> rfl

theorem checkOptionalUse_state (value : Option Expr) (state : Checking) :
    (checkOptionalUse value state).2 = state := by
  cases value with
  | none => rfl
  | some value => exact checkUse_state value state

/-- How a step turns out, with the state that it leaves behind when it fails as well. -/
def Pass.Ends {σ α : Type} (pass : Pass σ α) (state : σ) (good : Except Error α → σ → Prop) : Prop :=
  good (pass state).1 (pass state).2

namespace Pass
variable {σ α : Type} {state : σ} {good : Except Error α → σ → Prop}

theorem ends_get {f : σ → Pass σ α} : Ends (get >>= f) state good ↔ Ends (f state) state good := Iff.rfl

/-- What comes behind a test is come to only if the test does not fail. -/
theorem ends_guard {cond : Prop} [Decidable cond] {cause : Cause} {span : Span} {rest : PUnit → Pass σ α}
    (failed : good (.error ⟨cause, span⟩) state) (later : ¬cond → Ends (rest ()) state good) :
    Ends (if cond then fail cause span >>= rest else rest ()) state good := by
  split
  · exact failed
  · exact later ‹_›

end Pass

namespace CheckStep

variable {step : CheckStep}

/-- What is run in a state does to the table what the step may do. -/
abbrev Permits (step : CheckStep) (pass : Pass Checking Unit) (state : Checking) : Prop :=
  pass.Ends state fun outcome after => step.Updates state.symbols outcome after.symbols

variable {state : Checking}

theorem updates_of_failure {before : SymbolTable} {error : Error} :
    step.Updates before (.error error) before := .inl ⟨rfl, nofun⟩

theorem updates_of_absent {name : String} {symbol : Symbol} {before : SymbolTable} {outcome : Except Error Unit}
    (named : step.name? = some name) (absent : before.get? name = none) (coherent : symbol.Coherent) :
    step.Updates before outcome (before.set name symbol) := by
  refine .inr ⟨name, symbol, named, rfl, coherent, fun old found => ?_⟩
  rw [absent] at found
  cases found

theorem permits_func (decl : FuncDecl) : (func decl).Permits decl.checkDeclaration state := by
  unfold FuncDecl.checkDeclaration
  refine Pass.ends_get.mpr ?_
  split
  · rename_i absent
    exact updates_of_absent rfl absent (Symbol.coherent_func _ _ _)
  · rename_i old known
    refine Pass.ends_guard updates_of_failure fun sameType => ?_
    split
    · rename_i defined global attr
      refine Pass.ends_guard updates_of_failure fun _ => Pass.ends_guard updates_of_failure fun _ => ?_
      refine .inr ⟨decl.name, _, rfl, rfl, Symbol.coherent_func _ _ _, fun other found => ?_⟩
      cases known.symm.trans found
      refine ⟨(Decidable.not_not.mp sameType).symm, ?_⟩
      rw [attr]
      exact ⟨rfl, fun was => by rw [was, Bool.or_true]⟩
    · exact updates_of_failure

theorem permits_global (decl : VarDecl) (coherent : state.symbols.Coherent) :
    (global decl).Permits decl.checkAtFileScope state := by
  unfold VarDecl.checkAtFileScope
  extract_lets external merged
  have each : ∀ init : Initial, (init = .none → external = true) → (global decl).Permits (merged init) state := by
    intro init linked
    refine Pass.ends_get.mpr ?_
    split
    · rename_i absent
      exact updates_of_absent rfl absent (Symbol.coherent_static linked)
    · exact updates_of_failure
    · rename_i old was known
      refine Pass.ends_guard updates_of_failure fun _ => ?_
      split
      · exact updates_of_failure
      -- Only a declaration from elsewhere leaves a variable without any initial value, and its linkage stays.
      · refine .inr ⟨decl.name, _, rfl, rfl, Symbol.coherent_static fun unknown => ?_, fun other found => ?_⟩
        · have before := Initial.eq_none_of_merge unknown
          subst before
          exact (coherent _ _ known).2 was rfl
        · cases known.symm.trans found
          exact ⟨rfl, rfl, Initial.sharpens_merge old init⟩
    · exact updates_of_failure
  cases decl.init with
  | none =>
    refine each _ fun unknown => ?_
    by_cases elsewhere : decl.storage = .external
    · simp [external, elsewhere]
    · rw [if_neg elsewhere] at unknown
      cases unknown
  | some init =>
    rcases constantInit_cases decl.span init with ⟨value, constant⟩ | constant
    · simp only [constant, map_pure, pure_bind]
      exact each _ nofun
    · simp only [constant]
      exact updates_of_failure

theorem permits_external {decl : VarDecl} (named : step.name? = some decl.name) (free : step.own? = none)
    (storage : decl.storage = .external) : step.Permits decl.checkLocal state := by
  unfold VarDecl.checkLocal
  rw [storage]
  refine Pass.ends_guard updates_of_failure fun _ => Pass.ends_get.mpr ?_
  split
  · exact updates_of_failure
  · exact .inl ⟨rfl, fun _ => free⟩
  · rename_i absent
    exact updates_of_absent named absent (Symbol.coherent_static fun _ => rfl)

theorem permits_unlinked {decl : VarDecl} (named : step.name? = some decl.name)
    (absent : state.symbols.get? decl.name = none) (storage : decl.storage ≠ .external) :
    step.Permits decl.checkLocal state := by
  unfold VarDecl.checkLocal
  split
  · contradiction
  · cases decl.init with
    | none => exact updates_of_absent named absent (Symbol.coherent_static nofun)
    | some init =>
      rcases constantInit_cases decl.span init with ⟨value, constant⟩ | constant
      · simp only [constant, pure_bind]
        exact updates_of_absent named absent (Symbol.coherent_static nofun)
      · simp only [constant]
        exact updates_of_failure
  · have kept := checkOptionalUse_state decl.init { state with symbols := state.symbols.set decl.name ⟨.int, .automatic⟩ }
    change step.Updates state.symbols (checkOptionalUse decl.init _).1 (checkOptionalUse decl.init _).2.symbols
    rw [kept]
    exact updates_of_absent named absent Symbol.coherent_automatic

theorem permits_run (step : CheckStep) (coherent : state.symbols.Coherent)
    (absent : ∀ name ∈ step.own?, state.symbols.get? name = none) : step.Permits step.run state := by
  cases step with
  | use value =>
    refine .inl ⟨?_, fun _ => rfl⟩
    exact congrArg Checking.symbols (checkUse_state value state)
  | func decl => exact permits_func decl
  | param decl => exact updates_of_absent rfl (absent decl.name rfl) Symbol.coherent_automatic
  | localVar decl =>
    by_cases storage : decl.storage = .external
    · exact permits_external (by simp [name?, own?, linked?, storage]) (by simp [own?, storage]) storage
    · exact permits_unlinked (by simp [name?, own?, storage]) (absent _ (by simp [own?, storage])) storage
  | headerVar decl =>
    unfold run
    refine Pass.ends_guard updates_of_failure fun plain => ?_
    have automatic := Decidable.not_not.mp plain
    refine permits_unlinked (by simp [name?, own?, automatic]) (absent _ (by simp [own?, automatic])) ?_
    rw [automatic]
    nofun
  | global decl => exact permits_global decl coherent
  | fallsOff span name => exact .inl ⟨rfl, fun _ => rfl⟩
  | misplaced kind => exact updates_of_failure

end CheckStep

/-- Steps that record, besides names that can be spelled, only names that are declared, each once. -/
structure Named (steps : List CheckStep) (declared : List String) : Prop where
  own : (steps.filterMap CheckStep.own?).Sublist declared
  linked : ∀ step ∈ steps, ∀ name ∈ step.linked?, Spelled name

namespace Named
variable {steps more : List CheckStep} {declared others : List String}

theorem nil : Named [] declared := ⟨List.nil_sublist _, fun _ member => nomatch member⟩

theorem append (named : Named steps declared) (later : Named more others) :
    Named (steps ++ more) (declared ++ others) := by
  refine ⟨?_, List.forall_mem_append.mpr ⟨named.linked, later.linked⟩⟩
  rw [List.filterMap_append]
  exact named.own.append later.own

theorem use (value : Expr) (named : Named steps declared) : Named (.use value :: steps) declared :=
  ⟨named.own, List.forall_mem_cons.mpr ⟨nofun, named.linked⟩⟩

theorem func {decl : FuncDecl} (spelled : Spelled decl.name) (named : Named steps declared) :
    Named (.func decl :: steps) declared := by
  refine ⟨named.own, List.forall_mem_cons.mpr ⟨?_, named.linked⟩⟩
  rintro _ ⟨⟩
  exact spelled

theorem optional (value : Option Expr) : Named (optionalSteps value) [] := by
  cases value with
  | none => exact nil
  | some value => exact nil.use value

theorem params (list : List Param) : Named (list.map CheckStep.param) (list.map Param.name) := by
  induction list with
  | nil => exact nil
  | cons param rest ih =>
    refine ⟨ih.own.cons_cons param.name, List.forall_mem_cons.mpr ⟨nofun, ih.linked⟩⟩

end Named

theorem VarDecl.named {decl : VarDecl} (fits : decl.Bound bound known) : Named [.localVar decl] decl.declared := by
  by_cases external : decl.storage = .external
  · have linked := (VarDecl.bound_of_external external).mp fits
    refine ⟨?_, List.forall_mem_singleton.mpr fun name found => ?_⟩
    · simp [CheckStep.own?, external]
    · rw [CheckStep.linked?, if_pos external] at found
      cases found
      exact linked
  · refine ⟨?_, List.forall_mem_singleton.mpr fun name found => ?_⟩
    · simp [CheckStep.own?, VarDecl.declared, external]
    · rw [CheckStep.linked?, if_neg external] at found
      cases found

theorem ForInit.named (init : ForInit) : Named init.checkSteps init.declared := by
  cases init with
  | none => exact .nil
  | expr value => exact Named.nil.use value
  | var decl =>
    refine ⟨?_, List.forall_mem_singleton.mpr nofun⟩
    by_cases automatic : decl.storage = .automatic
    · simp [ForInit.checkSteps, ForInit.declared, CheckStep.own?, VarDecl.declared, automatic]
    · simp [ForInit.checkSteps, CheckStep.own?, automatic]

mutual

theorem Stmt.named {bound : Nat} {known : List String} :
    ∀ stmt : Stmt, stmt.Bound bound known → Named stmt.checkSteps stmt.declared
  | .ret _ value, _ | .expr _ value, _ => Named.nil.use value
  | .branch _ cond yes none, fits => (Stmt.named yes fits.2).use cond
  | .branch _ cond yes (some no), fits => ((Stmt.named yes fits.2.1).append (Stmt.named no fits.2.2)).use cond
  | .block body, fits => Block.named body fits
  | .whileLoop _ cond body _, fits => (Stmt.named body fits.2).use cond
  | .doLoop _ body cond _, fits => by
    have whole := (Stmt.named body fits.1).append (Named.nil.use cond : Named _ [])
    rwa [List.append_nil] at whole
  | .forLoop _ init cond post body _, fits =>
    (ForInit.named init).append ((Named.optional cond).append ((Named.optional post).append (Stmt.named body fits.2.2.2)))
  | .breakLoop .., _ | .continueLoop .., _ | .empty _, _ | .misplaced _, _ => .nil

theorem Block.named {bound : Nat} {known : List String} :
    ∀ block : Block, block.Bound bound known → Named block.checkSteps block.declared
  | ⟨_, items⟩, fits => itemsNamed items fits

theorem itemsNamed {bound : Nat} {known : List String} :
    ∀ items : List Item, itemsBound bound known items → Named (itemsSteps items) (itemsDeclared items)
  | [], _ => .nil
  | .func decl :: rest, fits => by
    obtain ⟨span, name, params, body, storage⟩ := decl
    obtain ⟨⟨spelled, prototype⟩, later⟩ := fits
    cases prototype
    exact (Named.nil.func spelled).append (itemsNamed rest later)
  | .var decl :: rest, fits => (VarDecl.named fits.1).append (itemsNamed rest fits.2)
  | .stmt stmt :: rest, fits => (Stmt.named stmt fits.1).append (itemsNamed rest fits.2)

end

theorem FuncDecl.named {decl : FuncDecl} (fits : decl.Bound bound known) : Named decl.checkSteps decl.declared := by
  obtain ⟨span, name, params, body, storage⟩ := decl
  obtain ⟨spelled, -, inside⟩ := fits
  cases body with
  | none => exact Named.nil.func spelled
  | some body =>
    have ends : Named (if name ≠ "main" && !body.endsInReturn then [.fallsOff span name] else []) [] := by
      split
      · exact ⟨List.Sublist.refl _, List.forall_mem_singleton.mpr nofun⟩
      · exact .nil
    have whole := ((Named.params params).append ((Block.named body (inside body rfl)).append ends)).func spelled
    rwa [List.append_nil] at whole

theorem unitNamed {items : List Item} (fits : unitBound bound known items) :
    Named (items.flatMap Item.checkSteps) (unitDeclared items) := by
  induction items generalizing known with
  | nil => exact .nil
  | cons item rest ih =>
    cases item with
    | func decl => exact (FuncDecl.named fits.1).append (ih fits.2)
    | var decl =>
      obtain ⟨spelled, later⟩ := fits
      refine ⟨(ih later).own, List.forall_mem_cons.mpr ⟨?_, (ih later).linked⟩⟩
      rintro _ ⟨⟩
      exact spelled
    | stmt other => exact fits.elim

namespace CheckStep

variable {done rest : List CheckStep} {state : Checking}

/-- No step records the name that another one has for itself. -/
def Separate (steps : List CheckStep) : Prop :=
  ∀ done step rest, steps = done ++ step :: rest → ∀ name, step.own? = some name →
    ∀ other ∈ done ++ rest, other.name? ≠ some name

/-- What can be relied on after some steps: every symbol makes sense, and one of the steps has recorded it. -/
structure Reached (done : List CheckStep) (state : Checking) : Prop where
  coherent : state.symbols.Coherent
  recorded : ∀ name symbol, state.symbols.get? name = some symbol → ∃ step ∈ done, step.name? = some name

theorem Reached.absent {step : CheckStep} (reached : Reached done state) (separate : Separate (done ++ step :: rest))
    {name : String} (own : step.own? = some name) : state.symbols.get? name = none := by
  rw [Option.eq_none_iff_forall_not_mem]
  intro symbol found
  obtain ⟨other, member, named⟩ := reached.recorded name symbol found
  exact separate done step rest rfl name own other (List.mem_append_left _ member) named

theorem Reached.step {step : CheckStep} (reached : Reached done state) (separate : Separate (done ++ step :: rest)) :
    Reached (done ++ [step]) (step.run state).2 := by
  have grown : ∀ name symbol, state.symbols.get? name = some symbol → ∃ other ∈ done ++ [step], other.name? = some name := by
    intro name symbol found
    obtain ⟨other, member, named⟩ := reached.recorded name symbol found
    exact ⟨other, List.mem_append_left _ member, named⟩
  rcases permits_run step reached.coherent fun _ => reached.absent separate with
    ⟨same, -⟩ | ⟨name, symbol, named, after, coherent, -⟩
  · exact ⟨same ▸ reached.coherent, same ▸ grown⟩
  · refine ⟨after ▸ reached.coherent.set coherent, fun other found => ?_⟩
    rw [after, SymbolTable.get?_set]
    split
    · rename_i known
      rw [known]
      exact fun _ => ⟨step, by simp, named⟩
    · exact grown other found

theorem reached_runAll (separate : Separate (done ++ rest)) (ran : runAll done {} = (.ok (), state)) :
    Reached done state := by
  induction done using List.reverseRecOn generalizing rest state with
  | nil =>
    cases ran
    exact ⟨nofun, nofun⟩
  | append_singleton done step ih =>
    rw [runAll_append, runAll_singleton] at ran
    obtain ⟨_, middle, before, last⟩ := Pass.bind_eq_ok.mp ran
    rw [List.append_assoc, List.singleton_append] at separate
    have next := (ih separate before).step separate
    rwa [last] at next

end CheckStep

theorem Named.separate {steps : List CheckStep} {declared : List String} (named : Named steps declared)
    (distinct : declared.Nodup) (unspelled : ∀ name ∈ declared, ¬Spelled name) : CheckStep.Separate steps := by
  rintro done step rest rfl name own other member found
  -- Another step that has the name for itself would have it twice in the list; one that links it would spell it.
  have once := distinct.sublist named.own
  have among : name ∈ declared := named.own.subset (List.mem_filterMap.mpr ⟨step, by simp, own⟩)
  rw [List.filterMap_append, List.filterMap_cons_some own] at once
  have apart := List.nodup_middle.mp once
  rw [← List.filterMap_append, List.nodup_cons] at apart
  rcases Option.or_eq_some_iff.mp found with owned | ⟨-, linked⟩
  · exact apart.1 (List.mem_filterMap.mpr ⟨other, member, owned⟩)
  · refine unspelled name among (named.linked other ?_ name linked)
    rcases List.mem_append.mp member with before | after
    · exact List.mem_append_left _ before
    · exact List.mem_append_right _ (List.mem_cons_of_mem _ after)

/-- Every step of checking has its own names to itself, once names are resolved and loops are labelled. -/
theorem separate_of_labelled {tree resolved program : Program} {before last : Resolution} {names : NameSupply}
    (written : unitWritten tree.items) (renamed : tree.resolve before = (.ok resolved, last))
    (labelled : resolved.label last.names = (.ok program, names)) : CheckStep.Separate program.checkSteps := by
  obtain ⟨-, declared, -⟩ := (Program.resolve_draws written before).of_ok renamed
  obtain ⟨-, -, unlabelled⟩ := (Program.label_draws last.names resolved).of_ok labelled
  have fresh := before.names.fresh_give (unitDeclared tree.items)
  rw [← declared, ← (stems_of_unlabelled unlabelled).1] at fresh
  have bound := ((Program.resolve_meets written before).of_ok renamed).2
  have fits := ((Program.label_meets last.names resolved).of_ok labelled).2.1 _ _ (bound _ le_rfl)
  exact (unitNamed fits).separate fresh.distinct fun name member => (fresh.minted name member).not_spelled

/-- The table of symbols only ever gets more precise. Checking a program that was parsed, resolved and labelled is taking
its steps one after the other. Each step, whether it fails or not, records one symbol at most, under its own name, and what
was there before keeps its place and loses nothing; every symbol makes sense. A parameter and a local variable without
linkage are recorded by their own step, and by no other. -/
theorem check_sharpens {source : String} {file : Int} {tokens : List Token} {tree resolved program : Program}
    {before last : Resolution} {names : NameSupply} (lexed : tokenize source file = .ok tokens)
    (parsed : parse tokens = .ok tree) (renamed : tree.resolve before = (.ok resolved, last))
    (labelled : resolved.label last.names = (.ok program, names)) :
    program.check = CheckStep.runAll program.checkSteps ∧
    ∀ done step rest state, program.checkSteps = done ++ step :: rest →
      CheckStep.runAll done {} = (.ok (), state) →
      ∀ outcome after, step.run state = (outcome, after) →
        (after.symbols = state.symbols ∨
          ∃ name symbol, step.name? = some name ∧ after.symbols = state.symbols.set name symbol) ∧
        state.symbols.Sharpens after.symbols ∧ after.symbols.Coherent ∧
        ∀ name, step.own? = some name →
          state.symbols.get? name = none ∧ (outcome = .ok () → ∃ symbol, after.symbols.get? name = some symbol) ∧
          ∀ other ∈ done ++ rest, other.name? ≠ some name := by
  have separate := separate_of_labelled (written_of_parse lexed parsed) renamed labelled
  refine ⟨Program.check_eq program, ?_⟩
  intro done step rest state split ran outcome after stepped
  rw [split] at separate
  have reached := CheckStep.reached_runAll separate ran
  have updates := CheckStep.permits_run step reached.coherent fun _ => reached.absent separate
  have coherent := (reached.step separate).coherent
  unfold CheckStep.Permits Pass.Ends at updates
  rw [stepped] at updates coherent
  have others : ∀ name, step.own? = some name → ∀ other ∈ done ++ rest, other.name? ≠ some name :=
    fun name own => separate done step rest rfl name own
  rcases updates with ⟨same, silent⟩ | ⟨name, symbol, named, set, -, sharper⟩
  · refine ⟨.inl same, same ▸ .refl _, coherent, fun name own => ⟨reached.absent separate own, fun fine => ?_, others name own⟩⟩
    rw [silent fine] at own
    cases own
  · refine ⟨.inr ⟨name, symbol, named, set⟩, set ▸ .set sharper, coherent, fun mine own => ?_⟩
    have same : mine = name := by
      rw [CheckStep.name?, own] at named
      exact Option.some.inj named
    refine ⟨reached.absent separate own, fun _ => ⟨symbol, ?_⟩, others mine own⟩
    rw [set, SymbolTable.get?_set, if_pos same]

/-- The program that a source has become when it is checked. -/
def labelledProgram? (source : String) : Option Program := do
  let tokens ← (tokenize source 0).toOption
  let tree ← (parse tokens).toOption
  let resolved ← (tree.resolve ⟨{}, []⟩).1.toOption
  (resolved.label (tree.resolve ⟨{}, []⟩).2.names).1.toOption

/-- The source declares a function and a variable several times, and has local variables of every kind. -/
def redeclaringSource : String :=
  "int f(int a); extern int n; int n; int f(int a) \x7b static int k = 3; extern int n; " ++
  "for (int i = 0; i < a; i = i + n) k = k + i; return k; \x7d int n = 5;"

theorem check_sharpens_redeclaring : ∃ program, labelledProgram? redeclaringSource = some program ∧
    program.checkSteps.filterMap CheckStep.name? = ["f", "n", "n", "f", "a.1", "k.2", "n", "i.3", "n"] ∧
    ∀ done step rest state, program.checkSteps = done ++ step :: rest → CheckStep.runAll done {} = (.ok (), state) →
      state.symbols.Sharpens (step.run state).2.symbols := by
  have names : (labelledProgram? redeclaringSource).map (·.checkSteps.filterMap CheckStep.name?) =
      some ["f", "n", "n", "f", "a.1", "k.2", "n", "i.3", "n"] := by decide +kernel
  obtain ⟨program, labelled, steps⟩ := Option.map_eq_some_iff.mp names
  refine ⟨program, labelled, steps, fun done step rest state split ran => ?_⟩
  simp only [labelledProgram?, Option.bind_eq_bind, Option.bind_eq_some_iff] at labelled
  obtain ⟨tokens, lexed, tree, parsed, resolved, renamed, labelled⟩ := labelled
  have sharpens := check_sharpens (eq_ok_of_toOption lexed) (eq_ok_of_toOption parsed)
    (Prod.ext (eq_ok_of_toOption renamed) rfl) (Prod.ext (eq_ok_of_toOption labelled) rfl)
  exact (sharpens.2 done step rest state split ran _ _ rfl).2.1

end IntC
