import IntC.Proofs.CompileMachine
import IntC.Proofs.Machine.Labels
import IntC.Proofs.Symbol.CheckWeight

namespace IntC

namespace SymbolTable

theorem mem_statics {table : SymbolTable} {var : Tac.StaticVar} (member : var ∈ table.statics) :
    ∃ symbol, (var.name, symbol) ∈ table.entries ∧ ∃ init global, symbol.attr = .static init global := by
  obtain ⟨⟨name, symbol⟩, inside, found⟩ := List.mem_filterMap.mp member
  dsimp only at found
  split at found <;> cases found
  · exact ⟨symbol, inside, _, _, ‹_›⟩
  · exact ⟨symbol, inside, _, _, ‹_›⟩

theorem statics_sublist (table : SymbolTable) : (table.statics.map Tac.StaticVar.name).Sublist table.names := by
  unfold SymbolTable.names SymbolTable.statics
  induction table.entries with
  | nil => exact .slnil
  | cons entry rest ih =>
    obtain ⟨name, symbol⟩ := entry
    rw [List.filterMap_cons]
    dsimp only
    split
    · exact ih.cons _
    · rename_i var found
      split at found <;> cases found
      · exact ih.cons_cons _
      · exact ih.cons_cons _

/-- Where every name has one place, what stands there is found. -/
theorem get?_of_mem {table : SymbolTable} {name : String} {symbol : Symbol} (distinct : table.names.Nodup)
    (member : (name, symbol) ∈ table.entries) : table.get? name = some symbol := by
  obtain ⟨entries⟩ := table
  unfold SymbolTable.names at distinct
  unfold SymbolTable.get?
  dsimp only at *
  induction entries with
  | nil => cases member
  | cons entry rest ih =>
    obtain ⟨key, first⟩ := entry
    rw [List.map_cons, List.nodup_cons] at distinct
    rw [lookup_cons_eq]
    rcases List.mem_cons.mp member with same | later
    · cases same
      exact if_pos rfl
    · have other : name ≠ key := by
        rintro rfl
        exact distinct.1 (List.mem_map.mpr ⟨_, later, rfl⟩)
      rw [if_neg other]
      exact ih distinct.2 later

end SymbolTable

section Names
variable {source : String} {file : Int} {tokens : List Token} {tree resolved program : Program}
  {symbols : SymbolTable} {names : NameSupply} {code : Tac.Program}
  (passes : Passes source file tokens tree resolved program symbols names code)
include passes

theorem Passes.table_tidy : symbols.names.Nodup ∧ ∀ name ∈ symbols.names, isTidy name = true := by
  obtain ⟨after, checked, rfl⟩ := passes.checked
  have light := passes.tree_weight Weights.covering_untidy.toFair
  rw [passes.tokens_untidy] at light
  have recorded := (@Program.check_records .untidy program {} ⟨List.nodup_nil, List.forall_mem_nil _⟩).of_ok checked
  refine ⟨recorded.distinct, fun name member => Weights.isTidy_of_untidy ?_⟩
  obtain ⟨entry, inside, rfl⟩ := List.mem_map.mp member
  have bound := (recorded.entries entry inside).1
  omega

/-- Every name of the code is tidy. -/
theorem Passes.func_tidy {func : Tac.Func} (member : func ∈ code.funcs) :
    isTidy func.name = true ∧ (∀ name ∈ Machine.names func, isTidy name = true) ∧
      ∀ instr ∈ func.body, ∀ name ∈ instr.symbols, isTidy name = true := by
  have light := passes.func_weight Weights.covering_untidy member
  rw [passes.tokens_untidy, Tac.Func.weight] at light
  have instrs : ∀ instr ∈ func.body, instr.weight .untidy ≤ Tac.codeWeight .untidy func.body :=
    fun instr inside => Tac.Instr.weight_le_codeWeight inside
  refine ⟨Weights.isTidy_of_untidy (by omega),
    List.forall_mem_append.mpr ⟨fun name inside => ?_, fun name inside => ?_⟩, ?_⟩
  · have below := List.le_sum_of_mem (List.mem_map_of_mem (f := Weights.untidy.name) inside)
    exact Weights.isTidy_of_untidy (by omega)
  · obtain ⟨instr, body, found⟩ := List.mem_flatMap.mp inside
    obtain ⟨value, listed, named⟩ := List.mem_filterMap.mp found
    have below := Tac.Value.weight_le (w := .untidy) listed
    have within := instrs instr body
    cases value with
    | var other =>
      cases named
      rw [Tac.Value.weight_var] at below
      exact Weights.isTidy_of_untidy (by omega)
    | const | absent => cases named
  · intro instr inside name listed
    have below := Tac.Instr.symbol_le (w := .untidy) listed
    have within := instrs instr inside
    exact Weights.isTidy_of_untidy (by omega)

theorem Passes.statics_eq : code.statics = symbols.statics := by
  obtain ⟨last, lowered⟩ := passes.lowered
  obtain ⟨funcs, after, made, same⟩ := Pass.bind_eq_ok.mp lowered
  cases same
  rfl

/-- The functions of the code are those of the tree, under their names, and each ends in a return. -/
theorem Passes.funcs_end :
    List.Forall₂ (fun made func => func.name = made.1.name ∧ ∃ front, func.body = front ++ [.ret (.const 0)])
      (definitions program.items) code.funcs :=
  passes.forall₂ fun _ member _ _ _ le lowered => (passes.accepted.emitted member lowered le).2

theorem Passes.emitted :
    ∃ last, Tac.Emitted names.next last (unitLoops program.items) [] (code.funcs.flatMap Tac.Func.body) := by
  obtain ⟨last, lowered⟩ := passes.unit_lowered
  exact ⟨last, lowered.emitted passes.accepted (fun _ member => member) le_rfl⟩

theorem Passes.nodup_labels : (code.funcs.flatMap fun func => Tac.labels func.body).Nodup := by
  obtain ⟨before, after, -, labelled⟩ := passes.renamed
  have loops := (Program.label_fresh after.names resolved).of_ok labelled
  obtain ⟨last, emitted⟩ := passes.emitted
  -- The loops have their numbers from an earlier pass, and lowering goes on counting where that has stopped.
  have distinct := emitted.nodup_labels loops.distinct
    (fun id member => (loops.minted id member).mono (Nat.zero_le _) le_rfl) le_rfl
  rwa [Tac.labels, List.filterMap_flatMap] at distinct

theorem Passes.labels_unspelled {func : Tac.Func} (member : func ∈ code.funcs) {label : String}
    (inside : label ∈ Tac.labels func.body) : ¬Spelled label := by
  obtain ⟨last, emitted⟩ := passes.emitted
  obtain ⟨own, fresh, perm⟩ := emitted.labels
  have among : label ∈ Tac.labels (code.funcs.flatMap Tac.Func.body) :=
    Tac.mem_labels.mpr (List.mem_flatMap.mpr ⟨func, member, Tac.mem_labels.mp inside⟩)
  rcases List.mem_append.mp (perm.mem_iff.mp among) with new | loop
  · exact (fresh.minted label new).not_spelled
  · obtain ⟨id, -, named⟩ := List.mem_flatMap.mp loop
    intro spelled
    simp only [List.mem_cons, List.not_mem_nil, or_false] at named
    rcases named with rfl | rfl <;> simp [Spelled, continueTarget, breakTarget, String.toList_append] at spelled

/-- No function and no variable with static storage has the name of another. -/
theorem Passes.nodup_symbols : (code.statics.map Tac.StaticVar.name ++ code.funcs.map Tac.Func.name).Nodup := by
  have statics := passes.statics_eq
  obtain ⟨distinct, -⟩ := passes.table_tidy
  have funcs : code.funcs.map Tac.Func.name = (definitions program.items).map fun made => made.1.name := by
    have ends := passes.funcs_end
    generalize definitions program.items = defined at ends
    generalize code.funcs = funcs at ends ⊢
    induction ends with
    | nil => rfl
    | cons here _ ih => rw [List.map_cons, List.map_cons, here.1, ih]
  obtain ⟨after, checked, rfl⟩ := passes.checked
  have once := ((Program.check_unit passes.accepted.fits).of_ok checked).2.2.distinct
  rw [statics, funcs, List.nodup_append]
  refine ⟨distinct.sublist (SymbolTable.statics_sublist _), once, fun name static other defined same => ?_⟩
  subst same
  -- A name has one entry in the table, and that is for a variable or for a function.
  obtain ⟨var, member, rfl⟩ := List.mem_map.mp static
  obtain ⟨⟨decl, body⟩, among, named⟩ := List.mem_map.mp defined
  obtain ⟨symbol, inside, init, global, attr⟩ := SymbolTable.mem_statics member
  have found := SymbolTable.get?_of_mem distinct inside
  obtain ⟨params, given, linked, func⟩ :=
    passes.accepted.sound.func (passes.accepted.funcs decl (mem_definitions.mp among).1)
  rw [named, found] at func
  cases func
  cases attr

theorem Passes.statics_tidy : ∀ var ∈ code.statics, isTidy var.name = true := by
  rw [passes.statics_eq]
  intro var member
  obtain ⟨symbol, inside, -⟩ := SymbolTable.mem_statics member
  exact passes.table_tidy.2 _ (List.mem_map_of_mem inside)

end Names

theorem isQuiet_of_isTidy {name : String} (tidy : isTidy name = true) : Machine.isQuiet name = true := by
  have each := List.all_eq_true.mp (isTame_of_isTidy tidy)
  refine List.all_eq_true.mpr fun c member => ?_
  have char := each c member
  rw [Bool.and_eq_true, decide_eq_true_iff, decide_eq_true_iff]
  constructor <;> rintro rfl <;> exact absurd char (by decide)

theorem Config.namingFor_quiet (os : String) : Machine.isQuiet (namingFor os).symbolPrefix = true ∧
    Machine.isQuiet (namingFor os).labelPrefix = true := by
  unfold namingFor
  split <;> decide

/-- No symbol is spelled like a label: one begins with an underscore and the other with a letter, or the one
with a letter and the other with a dot. -/
theorem Config.namingFor_apart (os : String) {symbol : String} (tidy : isTidy symbol = true) (name : String) :
    (namingFor os).symbolPrefix ++ symbol ≠ (namingFor os).labelPrefix ++ name := by
  intro same
  have chars := congrArg (fun text => text.toList.head?) same
  unfold namingFor at chars
  split at chars
  · simp [String.toList_append] at chars
  · have start := (Bool.and_eq_true_iff.mp tidy).1
    simp only [String.toList_append] at chars
    have first : symbol.toList.head? = some '.' := chars
    rw [first] at start
    exact absurd start (by decide)

/-- The labels that code asks for: those of its variables and functions, and those inside each function. -/
def Tac.Program.labels (naming : Machine.Naming) (code : Tac.Program) : List String :=
  code.statics.map (fun var => naming.symbolPrefix ++ var.name) ++ code.funcs.flatMap fun func =>
    (naming.symbolPrefix ++ func.name) :: (Tac.labels func.body).map fun name => naming.labelPrefix ++ name

section Lowered
variable {compiler : Compiler} {config : Config} {source : String} {file : Int} {code : Tac.Program}
  {symbols : SymbolTable}

/-- Whatever is read off the names and labels of functions is the same before and after. -/
theorem flatMap_finished {funcs : List Tac.Func} {selected : List Machine.Func} (symbols : SymbolTable) (align : Int)
    (each : List.Forall₂ (fun func machine => Machine.selectFunc func = .ok machine) funcs selected)
    (view : String → List String → List String) :
    (selected.map (Machine.Func.finished symbols align)).flatMap
        (fun func => view func.name (Machine.labels func.instrs)) =
      funcs.flatMap fun func => view func.name (Tac.labels func.body) := by
  induction each with
  | nil => rfl
  | cons here _ ih =>
    obtain ⟨name, labels⟩ := Machine.finished_labels symbols align here
    rw [List.map_cons, List.flatMap_cons, List.flatMap_cons, name, labels, ih]

/-- The code of a source is lowered to the variables and functions it has, with the labels it has, and all names
stay tidy. -/
theorem exists_lower_tidy (made : (compiler.compile config source file .lower).1 = .ok (.code code symbols))
    (align : Int) :
    ∃ machine, Machine.lower code symbols align = .ok machine ∧
      machine.statics.map Machine.StaticVar.name = code.statics.map Tac.StaticVar.name ∧
      (∀ view : String → List String → List String,
        machine.funcs.flatMap (fun func => view func.name (Machine.labels func.instrs)) =
          code.funcs.flatMap fun func => view func.name (Tac.labels func.body)) ∧
      ∀ func ∈ machine.funcs, isTidy func.name = true ∧
        ∀ instr ∈ func.instrs, instr.Named fun name => isTidy name = true := by
  obtain ⟨tokens, tree, resolved, program, names, passes⟩ := exists_passes made
  obtain ⟨selected, each, lowered⟩ := Machine.exists_lower_eq symbols align fun func member =>
    (sound_of_compile made func member).2
  refine ⟨_, lowered, ?_, flatMap_finished symbols align each, fun func member => ?_⟩
  · rw [List.map_map]
    rfl
  · obtain ⟨machine, among, rfl⟩ := List.mem_map.mp member
    obtain ⟨origin, inside, done⟩ := exists_of_mem_right each among
    obtain ⟨name, known, named⟩ := passes.func_tidy inside
    refine ⟨?_, Machine.finished_named symbols align done known named⟩
    rw [(Machine.finished_labels symbols align done).1]
    exact name

/-- The text of what the code of a source is lowered to defines the labels of the code, and each of them once. -/
theorem exists_lower_labels (made : (compiler.compile config source file .lower).1 = .ok (.code code symbols))
    (os : String) (align : Int) :
    ∃ machine, Machine.lower code symbols align = .ok machine ∧
      Machine.labelsIn (machine.text (Config.namingFor os)) = code.labels (Config.namingFor os) ∧
      (code.labels (Config.namingFor os)).Nodup := by
  obtain ⟨tokens, tree, resolved, program, names, passes⟩ := exists_passes made
  obtain ⟨machine, lowered, statics, view, tidy⟩ := exists_lower_tidy made align
  obtain ⟨symbolsQuiet, labelsQuiet⟩ := Config.namingFor_quiet os
  have funcs : machine.funcs.map Machine.Func.name = code.funcs.map Tac.Func.name := by
    simpa only [List.map_eq_flatMap] using view fun name _ => [name]
  have inner : (machine.funcs.flatMap fun func => Machine.labels func.instrs) =
      code.funcs.flatMap fun func => Tac.labels func.body := view fun _ labels => labels
  have all : machine.labels (Config.namingFor os) = code.labels (Config.namingFor os) := by
    refine congrArg₂ (· ++ ·) ?_ (view fun name labels => ((Config.namingFor os).symbolPrefix ++ name) ::
      labels.map fun name => (Config.namingFor os).labelPrefix ++ name)
    simpa only [List.map_map, Function.comp_def] using
      congrArg (List.map fun name => (Config.namingFor os).symbolPrefix ++ name) statics
  have staticsTidy : ∀ name ∈ machine.statics.map Machine.StaticVar.name, isTidy name = true := by
    rw [statics]
    exact List.forall_mem_map.mpr passes.statics_tidy
  refine ⟨machine, lowered, ?_, ?_⟩
  · rw [Machine.Program.labelsIn_text symbolsQuiet labelsQuiet, all]
    · exact fun var member => isQuiet_of_isTidy (List.forall_mem_map.mp staticsTidy var member)
    · refine fun func member => ⟨isQuiet_of_isTidy (tidy func member).1, fun instr inside => ?_⟩
      obtain ⟨data, symbol⟩ := (tidy func member).2 instr inside
      exact ⟨fun name listed => isQuiet_of_isTidy (data name listed),
        fun name found => isQuiet_of_isTidy (symbol name found)⟩
  · rw [← all]
    refine Machine.Program.nodup_labels ?_ ?_ fun symbol member name => Config.namingFor_apart os ?_ name
    · rw [statics, funcs]
      exact passes.nodup_symbols
    · rw [inner]
      exact passes.nodup_labels
    · rcases List.mem_append.mp member with static | defined
      · exact staticsTidy symbol static
      · obtain ⟨func, inside, rfl⟩ := List.mem_map.mp defined
        exact (tidy func inside).1

/-- Control in the code of a source never gets lost. Every jump has one label to go to, a run stays in its body
until it returns, short of an operation that has no result, and no two labels of the text are the same. -/
theorem lower_closes_control (made : (compiler.compile config source file .lower).1 = .ok (.code code symbols)) :
    (∀ func ∈ code.funcs,
      (∀ instr ∈ func.body, ∀ target ∈ instr.target?, func.body.count (.label target) = 1) ∧
      (∃ value, func.body.getLast? = some (.ret value)) ∧
      ∀ world start point, Tac.Steps world func.body ⟨func.body, start⟩ point →
        point.rest ≠ [] ∧ point.rest <:+ func.body ∧
        ((∃ next, Tac.Step world func.body point next) ∨ (∃ value, point.returned? = some value) ∨
          point.Undefined)) ∧
    ∀ os align, ∃ machine, Machine.lower code symbols align = .ok machine ∧
      Machine.labelsIn (machine.text (Config.namingFor os)) = code.labels (Config.namingFor os) ∧
      (code.labels (Config.namingFor os)).Nodup := by
  obtain ⟨tokens, tree, resolved, program, names, passes⟩ := exists_passes made
  refine ⟨fun func member => ?_, exists_lower_labels made⟩
  obtain ⟨sound, complete⟩ := sound_of_compile made func member
  obtain ⟨-, -, -, front, whole⟩ := exists_of_mem_right passes.funcs_end member
  have ends : func.body.getLast? = some (.ret (.const 0)) := by rw [whole, List.getLast?_concat]
  refine ⟨fun instr inside target found => ?_, ⟨_, ends⟩, fun world start point reached => ?_⟩
  · rw [← Tac.count_labels]
    exact List.count_eq_one_of_mem sound.distinct (sound.closed instr inside target found)
  · exact Tac.Steps.progress complete sound.closed ends reached

theorem lower_closes_control_calling : ∃ code symbols machine,
    (Compiler.compile {} {} callingSource 0 .lower).1 = .ok (.code code symbols) ∧
    Machine.lower code symbols 16 = .ok machine ∧ machine.funcs.map Machine.Func.name = ["sum", "main"] ∧
    (∀ func ∈ code.funcs, ∀ instr ∈ func.body, ∀ target ∈ instr.target?, func.body.count (.label target) = 1) ∧
    ∀ os ∈ ["linux", "darwin"], (Machine.labelsIn (machine.text (Config.namingFor os))).Nodup := by
  obtain ⟨code, symbols, machine, made, lowered, names⟩ := exists_calling
  obtain ⟨closed, texts⟩ := lower_closes_control made
  refine ⟨code, symbols, machine, made, lowered, names, fun func member => (closed func member).1, fun os _ => ?_⟩
  obtain ⟨other, same, defined, distinct⟩ := texts os 16
  cases lowered.symm.trans same
  exact defined ▸ distinct

end Lowered

end IntC
