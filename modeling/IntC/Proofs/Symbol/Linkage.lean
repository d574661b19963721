import IntC.Proofs.Symbol.CheckShift
import IntC.Proofs.Symbol.Kinds

namespace IntC

/-- The name and the storage class of the function that a step declares. -/
def CheckStep.head? : CheckStep → Option (String × Storage)
  | .func decl => some (decl.name, decl.storage)
  | _ => none

/-- The names that a program declares, once for each declaration, in their order. -/
def Program.declares (program : Program) : List String := program.checkSteps.filterMap CheckStep.name?

/-- The names of the functions that a program declares, with the storage class of each declaration, in their order. -/
def Program.heads (program : Program) : List (String × Storage) := program.checkSteps.filterMap CheckStep.head?

namespace SymbolTable

theorem mem_names {table : SymbolTable} {name : String} :
    name ∈ table.names ↔ ∃ symbol, table.get? name = some symbol := by
  obtain ⟨entries⟩ := table
  unfold SymbolTable.names SymbolTable.get?
  induction entries with
  | nil => simp
  | cons entry rest ih =>
    obtain ⟨key, symbol⟩ := entry
    rw [lookup_cons_eq, List.map_cons, List.mem_cons, ih]
    by_cases same : name = key
    · simp [same]
    · simp [same]

theorem names_set (table : SymbolTable) (name : String) (symbol : Symbol) :
    (table.set name symbol).names = if name ∈ table.names then table.names else table.names ++ [name] :=
  names_put name symbol table.entries

end SymbolTable

section Steps
variable {state : Checking}

/-- What the declaration of a variable does: at most it records a variable, and then there is one under its name. -/
def CheckStep.RecordsVariable (step : CheckStep) (before after : SymbolTable) : Prop :=
  (after = before ∨ ∃ name attr, after = before.set name ⟨.int, attr⟩) ∧ ∀ name ∈ step.name?, after.IsVariable name

theorem VarDecl.checkLocal_sets (decl : VarDecl) :
    Pass.Meets decl.checkLocal state (fun _ after => after.symbols = state.symbols ∨
      ∃ name attr, after.symbols = state.symbols.set name ⟨.int, attr⟩) fun _ => True := by
  unfold VarDecl.checkLocal
  split
  · split
    · trivial
    · simp only [Pass.meets_bind, Pass.meets_get]
      split
      · trivial
      · exact .inl rfl
      · exact .inr ⟨_, _, rfl⟩
  · cases decl.init with
    | none => exact .inr ⟨_, _, rfl⟩
    | some init =>
      rcases constantInit_cases decl.span init with ⟨value, constant⟩ | constant
      · simp only [constant, pure_bind]
        exact .inr ⟨_, _, rfl⟩
      · simp only [constant]
        trivial
  · simp only [Checking.record, Pass.meets_bind, Pass.meets_modify]
    refine (checkOptionalUse_kinded decl.init).mono fun _ after kept => ?_
    rw [kept.1]
    exact .inr ⟨_, _, rfl⟩

theorem VarDecl.checkAtFileScope_sets (decl : VarDecl) :
    Pass.Meets decl.checkAtFileScope state (fun _ after =>
      ∃ attr, after.symbols = state.symbols.set decl.name ⟨.int, attr⟩) fun _ => True := by
  unfold VarDecl.checkAtFileScope
  extract_lets external merged
  have each : ∀ init, Pass.Meets (merged init) state (fun _ after =>
      ∃ attr, after.symbols = state.symbols.set decl.name ⟨.int, attr⟩) fun _ => True := by
    intro init
    simp only [merged, Pass.meets_bind, Pass.meets_get]
    split
    · exact ⟨_, rfl⟩
    · trivial
    · split
      · trivial
      · split
        · trivial
        · exact ⟨_, rfl⟩
    · trivial
  cases decl.init with
  | none => exact each _
  | some init =>
    rcases constantInit_cases decl.span init with ⟨value, constant⟩ | constant
    · simp only [constant, map_pure, pure_bind]
      exact each _
    · simp only [constant]
      trivial

/-- Besides the declarations of functions, no step records anything but variables. -/
theorem CheckStep.run_records {step : CheckStep} (plain : step.head? = none) :
    Pass.Meets step.run state (fun _ after => step.RecordsVariable state.symbols after.symbols) fun _ => True := by
  have known : ∀ {name : String} {attr : SymbolAttr}, (state.symbols.set name ⟨.int, attr⟩).IsVariable name :=
    fun {name attr} => ⟨attr, (SymbolTable.get?_set ..).trans (if_pos rfl)⟩
  cases step with
  | func decl => cases plain
  | use value =>
    refine (checkUse_kinded value).mono fun _ after kept => ⟨.inl (by rw [kept.1]), by rintro _ ⟨⟩⟩
  | param decl =>
    refine ⟨.inr ⟨_, _, rfl⟩, ?_⟩
    rintro _ ⟨⟩
    exact known
  | localVar decl =>
    refine (decl.checkLocal_sets.and decl.checkLocal_kinded).mono fun _ after both => ⟨both.1, fun name named => ?_⟩
    have same : decl.name = name := by
      by_cases external : decl.storage = .external <;> simpa [name?, own?, linked?, external] using named
    exact same ▸ both.2.name
  | headerVar decl =>
    rw [run]
    dsimp only
    split
    · trivial
    · refine (decl.checkLocal_sets.and decl.checkLocal_kinded).mono fun _ after both => ⟨both.1, fun name named => ?_⟩
      have same : decl.name = name := by
        by_cases automatic : decl.storage = .automatic <;> simp [name?, own?, linked?, automatic] at named
        exact named
      exact same ▸ both.2.name
  | global decl =>
    refine decl.checkAtFileScope_sets.mono ?_
    rintro _ after ⟨attr, same⟩
    refine ⟨.inr ⟨_, _, same⟩, ?_⟩
    rintro _ ⟨⟩
    rw [same]
    exact known
  | fallsOff span name => exact ⟨.inl rfl, by rintro _ ⟨⟩⟩
  | misplaced kind => trivial

/-- The declaration of a function that is not known yet settles its linkage. Another one may only add the body. -/
theorem FuncDecl.checkDeclaration_sets (decl : FuncDecl) :
    Pass.Meets decl.checkDeclaration state (fun _ after => ∃ type defined global,
      after.symbols = state.symbols.set decl.name ⟨type, .func defined global⟩ ∧
      (state.symbols.get? decl.name = none ∧ (global = true ↔ decl.storage ≠ .static) ∧ defined = decl.body.isSome ∨
        ∃ type was, state.symbols.get? decl.name = some ⟨type, .func was global⟩ ∧
          defined = (decl.body.isSome || was))) fun _ => True := by
  unfold FuncDecl.checkDeclaration
  simp only [Pass.meets_bind, Pass.meets_get]
  split
  · rename_i absent
    exact ⟨_, _, _, rfl, .inl ⟨absent, decide_eq_true_iff, rfl⟩⟩
  · rename_i old found
    obtain ⟨type, attr⟩ := old
    split
    · trivial
    · cases attr with
      | func was global =>
        dsimp only
        split
        · trivial
        · split
          · trivial
          · exact ⟨_, _, _, rfl, .inr ⟨type, was, found, rfl⟩⟩
      | static | automatic => trivial

end Steps

namespace CheckStep

/-- What the table tells of functions after some steps: the linkage that the first declaration gives them, and a body
where one of the declarations has it. -/
structure Linked (done : List CheckStep) (table : SymbolTable) : Prop where
  known : ∀ decl, .func decl ∈ done → ∃ symbol, table.get? decl.name = some symbol
  storage : ∀ name type defined global, table.get? name = some ⟨type, .func defined global⟩ →
    ∃ storage, (done.filterMap head?).lookup name = some storage ∧ (global = true ↔ storage ≠ .static)
  body : ∀ name type global, table.get? name = some ⟨type, .func true global⟩ →
    ∃ decl, .func decl ∈ done ∧ decl.name = name ∧ decl.body.isSome = true

theorem Linked.variable {done : List CheckStep} {step : CheckStep} {before after : SymbolTable}
    (linked : Linked done before) (plain : step.head? = none) (sharpens : before.Sharpens after)
    (records : step.RecordsVariable before after) (coherent : after.Coherent) : Linked (done ++ [step]) after := by
  have heads : (done ++ [step]).filterMap head? = done.filterMap head? := by simp [plain]
  have same : ∀ decl, .func decl ∈ done ++ [step] → .func decl ∈ done := by
    intro decl member
    rcases List.mem_append.mp member with old | new
    · exact old
    · cases List.mem_singleton.mp new
      cases plain
  -- What is recorded is no function, so a function was there before.
  have there : ∀ name type defined global, after.get? name = some ⟨type, .func defined global⟩ →
      before.get? name = some ⟨type, .func defined global⟩ := by
    intro name type defined global found
    rcases records.1 with kept | ⟨other, attr, set⟩
    · rwa [kept] at found
    · rw [set, SymbolTable.get?_set] at found
      split at found
      · rename_i equal
        have int : (after.get? name) = some ⟨.int, attr⟩ := by rw [set, SymbolTable.get?_set, if_pos equal]
        cases found
        obtain ⟨params, type⟩ := (coherent _ _ int).1.mpr ⟨_, _, rfl⟩
        cases type
      · exact found
  refine ⟨fun decl member => ?_, fun name type defined global found => ?_, fun name type global found => ?_⟩
  · obtain ⟨symbol, found⟩ := linked.known decl (same decl member)
    obtain ⟨new, later, -⟩ := sharpens.symbols _ _ found
    exact ⟨new, later⟩
  · rw [heads]
    exact linked.storage name type defined global (there _ _ _ _ found)
  · obtain ⟨decl, member, named⟩ := linked.body name type global (there _ _ _ _ found)
    exact ⟨decl, List.mem_append_left _ member, named⟩

theorem Linked.lookup_eq_none {done : List CheckStep} {table : SymbolTable} (linked : Linked done table) {name : String}
    (absent : table.get? name = none) : (done.filterMap head?).lookup name = none := by
  refine List.lookup_eq_none_iff.mpr fun head member => bne_iff_ne.mpr ?_
  rintro rfl
  obtain ⟨step, among, found⟩ := List.mem_filterMap.mp member
  cases step with
  | func decl =>
    cases found
    obtain ⟨symbol, present⟩ := linked.known decl among
    cases absent.symm.trans present
  | _ => cases found

theorem Linked.func {done : List CheckStep} {decl : FuncDecl} {state after : Checking}
    (linked : Linked done state.symbols) (ran : decl.checkDeclaration state = (.ok (), after)) :
    Linked (done ++ [.func decl]) after.symbols := by
  obtain ⟨type, defined, global, set, history⟩ := decl.checkDeclaration_sets.of_ok ran
  have found : ∀ name, after.symbols.get? name =
      if name = decl.name then some ⟨type, .func defined global⟩ else state.symbols.get? name :=
    fun name => set ▸ SymbolTable.get?_set ..
  have heads : (done ++ [CheckStep.func decl]).filterMap head? = done.filterMap head? ++ [(decl.name, decl.storage)] := by
    simp [head?]
  refine ⟨fun other member => ?_, fun name kind was linkage there => ?_, fun name kind linkage there => ?_⟩
  · rw [found]
    by_cases same : other.name = decl.name
    · exact ⟨_, if_pos same⟩
    · rw [if_neg same]
      refine linked.known other ((List.mem_append.mp member).resolve_right fun new => same ?_)
      cases List.mem_singleton.mp new
      rfl
  · rw [heads, List.lookup_append]
    rw [found] at there
    by_cases same : name = decl.name
    · rw [if_pos same] at there
      cases there
      rcases history with ⟨absent, first, -⟩ | ⟨older, was, known, -⟩
      · refine ⟨decl.storage, ?_, first⟩
        rw [linked.lookup_eq_none (same ▸ absent), Option.none_or, same, List.lookup_cons_self]
      · obtain ⟨storage, first, agrees⟩ := linked.storage _ _ _ _ known
        exact ⟨storage, by rw [same, first, Option.some_or], agrees⟩
    · rw [if_neg same] at there
      obtain ⟨storage, first, agrees⟩ := linked.storage _ _ _ _ there
      exact ⟨storage, by rw [first, Option.some_or], agrees⟩
  · rw [found] at there
    have earlier : ∀ kind linkage, state.symbols.get? name = some ⟨kind, .func true linkage⟩ →
        ∃ other, .func other ∈ done ++ [.func decl] ∧ other.name = name ∧ other.body.isSome = true := by
      intro kind linkage old
      obtain ⟨other, member, named⟩ := linked.body name kind linkage old
      exact ⟨other, List.mem_append_left _ member, named⟩
    by_cases same : name = decl.name
    · rw [if_pos same] at there
      cases there
      cases body : decl.body.isSome with
      | true => exact ⟨decl, List.mem_append_right _ (List.mem_singleton_self _), same.symm, body⟩
      | false =>
        rcases history with ⟨-, -, given⟩ | ⟨older, was, known, given⟩
        · rw [body] at given
          cases given
        · rw [body, Bool.false_or] at given
          subst given
          exact earlier older global (same ▸ known)
    · rw [if_neg same] at there
      exact earlier kind linkage there

/-- A step that has not failed leaves its name in the table, at the end if it is a new one. -/
theorem Updates.names {step : CheckStep} {before after : SymbolTable} {outcome : Except Error Unit}
    (updates : step.Updates before outcome after) (declared : ∀ name ∈ step.name?, name ∈ after.names) :
    after.names = before.names ++ step.name?.toList.filter (· ∉ before.names) := by
  rcases updates with ⟨rfl, -⟩ | ⟨name, symbol, named, rfl, -⟩
  · cases named : step.name? with
    | none => simp
    | some name =>
      have present := declared name named
      simp [present]
  · rw [SymbolTable.names_set, named]
    by_cases present : name ∈ before.names
    · simp [present]
    · simp [present]

theorem eraseDups_filterMap_concat (done : List CheckStep) (step : CheckStep) :
    ((done ++ [step]).filterMap name?).eraseDups =
      (done.filterMap name?).eraseDups ++ step.name?.toList.filter (· ∉ (done.filterMap name?).eraseDups) := by
  rw [List.filterMap_append, List.eraseDups_append]
  generalize done.filterMap name? = names
  cases named : step.name? with
  | none => simp [named]
  | some name =>
    by_cases present : name ∈ names
    · simp [named, List.removeAll, present]
    · simp [named, List.removeAll, List.eraseDups_cons, present]

/-- What is known of the table after some steps that have not failed. -/
theorem linked_runAll {done rest : List CheckStep} {state : Checking} (separate : Separate (done ++ rest))
    (ran : runAll done {} = (.ok (), state)) :
    Linked done state.symbols ∧ state.symbols.names = (done.filterMap name?).eraseDups := by
  induction done using List.reverseRecOn generalizing rest state with
  | nil =>
    cases ran
    exact ⟨⟨nofun, nofun, nofun⟩, rfl⟩
  | append_singleton done step ih =>
    rw [runAll_append, runAll_singleton] at ran
    obtain ⟨_, middle, before, last⟩ := Pass.bind_eq_ok.mp ran
    rw [List.append_assoc, List.singleton_append] at separate
    obtain ⟨linked, names⟩ := ih separate before
    have reached := reached_runAll separate before
    have next := reached.step separate
    have updates := permits_run step reached.coherent fun _ => reached.absent separate
    unfold Permits Pass.Ends at updates
    rw [last] at updates next
    have declared : ∀ name ∈ step.name?, name ∈ state.symbols.names := by
      intro name named
      cases plain : step.head? with
      | none =>
        obtain ⟨attr, found⟩ := ((run_records plain).of_ok last).2 name named
        exact SymbolTable.mem_names.mpr ⟨_, found⟩
      | some head =>
        cases step with
        | func decl =>
          cases named
          obtain ⟨attr, found⟩ := decl.checkDeclaration_takes.of_ok last
          exact SymbolTable.mem_names.mpr ⟨_, found⟩
        | _ => cases plain
    constructor
    · cases plain : step.head? with
      | none =>
        have records := (run_records plain).of_ok last
        exact linked.variable plain updates.sharpens records next.coherent
      | some head =>
        cases step with
        | func decl => exact linked.func last
        | _ => cases plain
    · exact (updates.names declared).trans (by rw [names, eraseDups_filterMap_concat])

end CheckStep

section Rename
variable {names loops : String → String}

theorem CheckStep.name?_rename (step : CheckStep) : (step.rename names loops).name? = step.name?.map names := by
  cases step with
  | func decl => simp [rename, name?, own?, linked?, FuncDecl.rename_eq]
  | localVar decl =>
    by_cases external : decl.storage = .external <;> simp [rename, name?, own?, linked?, VarDecl.rename, external]
  | headerVar decl =>
    by_cases automatic : decl.storage = .automatic <;> simp [rename, name?, own?, linked?, VarDecl.rename, automatic]
  | use | param | global | fallsOff | misplaced => rfl

theorem CheckStep.head?_rename (step : CheckStep) :
    (step.rename names loops).head? = step.head?.map fun head => (names head.1, head.2) := by
  cases step with
  | func decl => simp [rename, head?, FuncDecl.rename_eq]
  | _ => rfl

theorem filterMap_rename {α : Type} {f : CheckStep → Option α} {g : α → α} (steps : List CheckStep)
    (each : ∀ step, f (step.rename names loops) = (f step).map g) :
    (steps.map (CheckStep.rename names loops)).filterMap f = (steps.filterMap f).map g := by
  rw [List.filterMap_map, List.map_filterMap]
  exact congrArg (fun f => steps.filterMap f) (funext each)

end Rename

/-- A tree declares what the program does that it is resolved and labelled to, up to the numbers behind local names. -/
theorem declares_of_labelled {tree resolved program : Program} {before last : Resolution} {names : NameSupply}
    (written : unitWritten tree.items) (renamed : tree.resolve before = (.ok resolved, last))
    (labelled : resolved.label last.names = (.ok program, names)) :
    tree.declares = program.declares.map stemOf ∧ tree.heads = program.heads := by
  obtain ⟨-, -, same⟩ := (Program.resolve_draws written before).of_ok renamed
  obtain ⟨-, -, unlabelled⟩ := (Program.label_draws last.names resolved).of_ok labelled
  have bound := ((Program.resolve_meets written before).of_ok renamed).2
  have fits := bound _ le_rfl
  have still := ((Program.label_meets last.names resolved).of_ok labelled).2.1 _ _ fits
  have spelled : ∀ name, Spelled name → stemOf name = name := fun _ => Spelled.stemOf
  have source : tree.checkSteps = resolved.checkSteps.map (CheckStep.rename stemOf id) := by
    rw [← same]
    exact unitSteps_rename spelled fits
  have steps := congrArg (fun items : List Item => items.flatMap Item.checkSteps) unlabelled
  have unmoved : ∀ name, Spelled name → id name = name := fun _ _ => rfl
  rw [unitSteps_rename unmoved still, unitSteps_rename unmoved fits] at steps
  have names := congrArg (List.filterMap CheckStep.name?) steps
  have heads := congrArg (List.filterMap CheckStep.head?) steps
  rw [filterMap_rename _ CheckStep.name?_rename, filterMap_rename _ CheckStep.name?_rename] at names
  rw [filterMap_rename _ CheckStep.head?_rename, filterMap_rename _ CheckStep.head?_rename] at heads
  have plain : program.declares = resolved.declares ∧ program.heads = resolved.heads := by
    refine ⟨?_, ?_⟩
    · simpa [Program.declares, Program.checkSteps] using names
    · simpa [Program.heads, Program.checkSteps] using heads
  rw [plain.1, plain.2]
  constructor
  · rw [Program.declares, source, filterMap_rename _ CheckStep.name?_rename]
    rfl
  · rw [Program.heads, source, filterMap_rename _ CheckStep.head?_rename]
    refine (List.map_congr_left fun head member => ?_).trans (List.map_id _)
    obtain ⟨step, among, found⟩ := List.mem_filterMap.mp member
    cases step with
    | func decl =>
      cases found
      exact congrArg (·, decl.storage) (spelled _ ((unitNamed fits).linked _ among _ rfl))
    | _ => cases found

mutual

/-- Inside a block functions are declared, and not defined. -/
theorem Stmt.declares_prototypes {bound : Nat} {known : List String} {decl : FuncDecl} :
    ∀ stmt : Stmt, stmt.Bound bound known → .func decl ∈ stmt.checkSteps → decl.body = none
  | .branch _ cond yes none, fits, member => by
    rcases List.mem_cons.mp member with same | inside
    · cases same
    · exact Stmt.declares_prototypes yes fits.2 inside
  | .branch _ cond yes (some no), fits, member => by
    rcases List.mem_cons.mp member with same | inside
    · cases same
    · rcases List.mem_append.mp inside with first | second
      · exact Stmt.declares_prototypes yes fits.2.1 first
      · exact Stmt.declares_prototypes no fits.2.2 second
  | .block body, fits, member => Block.declares_prototypes body fits member
  | .whileLoop _ cond body _, fits, member => by
    rcases List.mem_cons.mp member with same | inside
    · cases same
    · exact Stmt.declares_prototypes body fits.2 inside
  | .doLoop _ body cond _, fits, member => by
    rcases List.mem_append.mp member with inside | same
    · exact Stmt.declares_prototypes body fits.1 inside
    · cases List.mem_singleton.mp same
  | .forLoop _ init cond post body _, fits, member => by
    have header : .func decl ∉ init.checkSteps ++ (optionalSteps cond ++ optionalSteps post) := by
      cases init <;> cases cond <;> cases post <;> simp [ForInit.checkSteps, optionalSteps]
    simp only [Stmt.checkSteps, List.mem_append] at member header
    exact Stmt.declares_prototypes body fits.2.2.2 (by tauto)
  | .ret .., _, member | .expr .., _, member => by cases List.mem_singleton.mp member
  | .breakLoop .., _, member => nomatch member
  | .continueLoop .., _, member | .empty _, _, member | .misplaced _, _, member => nomatch member

theorem Block.declares_prototypes {bound : Nat} {known : List String} {decl : FuncDecl} :
    ∀ block : Block, block.Bound bound known → .func decl ∈ block.checkSteps → decl.body = none
  | ⟨_, items⟩, fits, member => itemsDeclare_prototypes items fits member

theorem itemsDeclare_prototypes {bound : Nat} {known : List String} {decl : FuncDecl} :
    ∀ items : List Item, itemsBound bound known items → .func decl ∈ itemsSteps items → decl.body = none
  | [], _, member => nomatch member
  | .func other :: rest, fits, member => by
    obtain ⟨span, name, params, body, storage⟩ := other
    obtain ⟨⟨-, prototype⟩, later⟩ := fits
    cases prototype
    rcases List.mem_cons.mp member with same | inside
    · cases same
      rfl
    · exact itemsDeclare_prototypes rest later inside
  | .var other :: rest, fits, member => by
    rcases List.mem_cons.mp member with same | inside
    · cases same
    · exact itemsDeclare_prototypes rest fits.2 inside
  | .stmt stmt :: rest, fits, member => by
    rcases List.mem_append.mp member with first | second
    · exact Stmt.declares_prototypes stmt fits.1 first
    · exact itemsDeclare_prototypes rest fits.2 second

end

/-- A function that is declared with its body stands at file scope. -/
theorem mem_of_checkSteps {bound : Nat} {known : List String} {items : List Item} {decl : FuncDecl} {body : Block}
    (fits : unitBound bound known items) (member : .func decl ∈ items.flatMap Item.checkSteps)
    (defined : decl.body = some body) : .func decl ∈ items := by
  induction items generalizing known with
  | nil => cases member
  | cons item rest ih =>
    rw [List.flatMap_cons, List.mem_append] at member
    cases item with
    | stmt other => exact fits.elim
    | var other =>
      rcases member with here | later
      · cases List.mem_singleton.mp here
      · exact List.mem_cons_of_mem _ (ih fits.2 later)
    | func other =>
      rcases member with here | later
      · obtain ⟨span, name, params, inside, storage⟩ := other
        obtain ⟨⟨-, -, block⟩, -⟩ := fits
        cases inside with
        | none =>
          cases List.mem_singleton.mp here
          exact List.mem_cons_self
        | some inner =>
          simp only [Item.checkSteps, FuncDecl.checkSteps, List.mem_cons, List.mem_append, List.mem_map] at here
          rcases here with same | ⟨_, -, other⟩ | nested | warned
          · cases same
            exact List.mem_cons_self
          · cases other
          · cases defined.symm.trans (inner.declares_prototypes (block inner rfl) nested)
          · split at warned
            · cases List.mem_singleton.mp warned
            · cases warned
      · exact List.mem_cons_of_mem _ (ih fits.2 later)

end IntC
