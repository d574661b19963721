import IntC.Proofs.CompileLabels
import IntC.Proofs.Symbol.Linkage

namespace IntC

namespace Machine

/-- Data that an instruction of a finished function uses has static storage. -/
theorem finished_data {func : Tac.Func} {selected : Func} {symbols : SymbolTable} {align : Int}
    (made : selectFunc func = .ok selected) :
    ∀ instr ∈ (selected.finished symbols align).instrs, ∀ name, .data name ∈ instr.operands →
      symbols.isStatic name = true := by
  intro part member name inside
  rcases finished_source made member inside with scratch | ⟨before, source, frame, same⟩
  · cases scratch
  · rcases place_data same.symm with ⟨-, static⟩ | rfl
    · exact static
    · cases source

end Machine

namespace SymbolTable

theorem exists_of_isStatic {table : SymbolTable} {name : String} (static : table.isStatic name = true) :
    ∃ type init global, table.get? name = some ⟨type, .static init global⟩ := by
  unfold isStatic at static
  split at static
  · exact ⟨_, _, _, ‹_›⟩
  · cases static

theorem Coherent.type_int {table : SymbolTable} (coherent : table.Coherent) {name : String} {type : SymbolType}
    {init : Initial} {global : Bool} (found : table.get? name = some ⟨type, .static init global⟩) : type = .int := by
  cases type with
  | int => rfl
  | func params =>
    obtain ⟨_, _, same⟩ := (coherent _ _ found).1.mp ⟨params, rfl⟩
    cases same

/-- The variables that a unit defines are those with static storage whose initial value is known or zero by default. -/
theorem mem_statics_iff {table : SymbolTable} (distinct : table.names.Nodup) (coherent : table.Coherent)
    {var : Tac.StaticVar} : var ∈ table.statics ↔
      table.get? var.name = some ⟨.int, .static .tentative var.global⟩ ∧ var.init = 0 ∨
      table.get? var.name = some ⟨.int, .static (.value var.init) var.global⟩ := by
  constructor
  · intro member
    obtain ⟨⟨name, type, attr⟩, inside, found⟩ := List.mem_filterMap.mp member
    have known := get?_of_mem distinct inside
    dsimp only at found
    split at found <;> cases found
    · cases coherent.type_int known
      exact .inl ⟨known, rfl⟩
    · cases coherent.type_int known
      exact .inr known
  · obtain ⟨name, global, init⟩ := var
    rintro (⟨known, rfl⟩ | known)
    · exact List.mem_filterMap.mpr ⟨_, mem_entries known, rfl⟩
    · exact List.mem_filterMap.mpr ⟨_, mem_entries known, rfl⟩

end SymbolTable

section Linkage
variable {source : String} {file : Int} {tokens : List Token} {tree resolved program : Program}
  {symbols : SymbolTable} {names : NameSupply} {code : Tac.Program}
  (passes : Passes source file tokens tree resolved program symbols names code)
include passes

/-- What the checker leaves behind: a table that makes sense, with the names in the order of their declarations. -/
theorem Passes.linked :
    symbols.Coherent ∧ CheckStep.Linked program.checkSteps symbols ∧ symbols.names = program.declares.eraseDups := by
  obtain ⟨before, after, renamed, labelled⟩ := passes.renamed
  obtain ⟨last, checked, rfl⟩ := passes.checked
  have separate := separate_of_labelled (written_of_parse passes.lexed passes.parsed) renamed labelled
  rw [Program.check_eq] at checked
  rw [← List.append_nil program.checkSteps] at separate
  exact ⟨(CheckStep.reached_runAll separate checked).coherent, CheckStep.linked_runAll separate checked⟩

/-- A function has the linkage that the table gives to its name. -/
theorem Passes.linkage : List.Forall₂ (fun made func => func.name = made.1.name ∧
      ∃ type defined, symbols.get? func.name = some ⟨type, .func defined func.global⟩)
    (definitions program.items) code.funcs := by
  refine passes.forall₂ fun made member func first last le lowered => ?_
  cases lowered with
  | made found _ => exact ⟨rfl, _, _, found⟩

theorem Passes.func_linkage :
    ∀ func ∈ code.funcs, ∃ type, symbols.get? func.name = some ⟨type, .func true func.global⟩ := by
  intro func member
  obtain ⟨⟨decl, body⟩, among, named, type, defined, found⟩ := exists_of_mem_right passes.linkage member
  obtain ⟨after, checked, rfl⟩ := passes.checked
  have once := ((Program.check_unit passes.accepted.fits).of_ok checked).2.2
  obtain ⟨-, symbol, known, body⟩ := once.defined decl.name (List.mem_map.mpr ⟨_, among, rfl⟩)
  rw [← named, found] at known
  cases known
  rw [Symbol.isDefined_func] at body
  exact ⟨type, body ▸ found⟩

theorem Passes.exists_func {name : String} {type : SymbolType} {global : Bool}
    (found : symbols.get? name = some ⟨type, .func true global⟩) :
    ∃ func ∈ code.funcs, func.name = name ∧ func.global = global := by
  obtain ⟨decl, member, named, body⟩ := passes.linked.2.1.body name type global found
  obtain ⟨block, defined⟩ := Option.isSome_iff_exists.mp body
  have inside := mem_of_checkSteps passes.accepted.fits member defined
  obtain ⟨func, among, same, -⟩ := exists_of_mem_right passes.funcs_end.flip (mem_definitions.mpr ⟨inside, defined⟩)
  refine ⟨func, among, same.trans named, ?_⟩
  obtain ⟨_, entry⟩ := passes.func_linkage func among
  rw [same, named, found] at entry
  cases entry
  rfl

end Linkage

/-- Storage and linkage of the code are those of the table. No function and no variable that the code defines has the name
of another. The variables are the ones with static storage that the table gives an initial value, in the order in which the
source first declares them, and whatever data the machine code uses is one of them or comes from elsewhere. The functions
are the ones that the table marks as defined, and a function is global unless its first declaration is static. -/
theorem lower_closes_linkage {compiler : Compiler} {config : Config} {source : String} {file : Int} {code : Tac.Program}
    {symbols : SymbolTable} (made : (compiler.compile config source file .lower).1 = .ok (.code code symbols)) :
    ∃ tree program, (tokenize source file >>= parse) = .ok tree ∧
      (compiler.compile config source file .validate).1 = .ok (.checked program symbols) ∧
      (code.statics.map Tac.StaticVar.name ++ code.funcs.map Tac.Func.name).Nodup ∧
      (∀ var, var ∈ code.statics ↔
        symbols.get? var.name = some ⟨.int, .static .tentative var.global⟩ ∧ var.init = 0 ∨
        symbols.get? var.name = some ⟨.int, .static (.value var.init) var.global⟩) ∧
      ((code.statics.map Tac.StaticVar.name).Sublist program.declares.eraseDups ∧
        tree.declares = program.declares.map stemOf) ∧
      (∀ align, ∃ machine, Machine.lower code symbols align = .ok machine ∧
        ∀ func ∈ machine.funcs, ∀ instr ∈ func.instrs, ∀ name, .data name ∈ instr.operands →
          (∃ var ∈ code.statics, var.name = name) ∨ symbols.get? name = some ⟨.int, .static .none true⟩) ∧
      (∀ name global, (∃ func ∈ code.funcs, func.name = name ∧ func.global = global) ↔
        ∃ type, symbols.get? name = some ⟨type, .func true global⟩) ∧
      ∀ func ∈ code.funcs, ∃ storage, tree.heads.lookup func.name = some storage ∧
        (func.global = true ↔ storage ≠ .static) := by
  obtain ⟨tokens, tree, resolved, program, checked, -, passes⟩ := exists_checked made
  obtain ⟨coherent, linked, order⟩ := passes.linked
  obtain ⟨distinct, -⟩ := passes.table_tidy
  have statics := passes.statics_eq
  obtain ⟨before, after, renamed, labelled⟩ := passes.renamed
  obtain ⟨declares, heads⟩ := declares_of_labelled (written_of_parse passes.lexed passes.parsed) renamed labelled
  have known := @SymbolTable.mem_statics_iff symbols distinct coherent
  refine ⟨tree, program, ?_, checked, passes.nodup_symbols, fun var => statics ▸ known, ⟨?_, declares⟩, fun align => ?_,
    fun name global => ?_, fun func member => ?_⟩
  · rw [passes.lexed]
    exact passes.parsed
  · rw [statics, ← order]
    exact symbols.statics_sublist
  · obtain ⟨machine, lowered, origins⟩ := exists_lower_of_compile made align
    refine ⟨machine, lowered, fun func member instr among name data => ?_⟩
    obtain ⟨origin, -, selected, done, rfl⟩ := origins func member
    obtain ⟨type, init, global, found⟩ := SymbolTable.exists_of_isStatic (Machine.finished_data done instr among name data)
    cases coherent.type_int found
    rw [statics]
    cases init with
    | none =>
      cases (coherent _ _ found).2 global rfl
      exact .inr found
    | tentative => exact .inl ⟨⟨name, global, 0⟩, known.mpr (.inl ⟨found, rfl⟩), rfl⟩
    | value value => exact .inl ⟨⟨name, global, value⟩, known.mpr (.inr found), rfl⟩
  · constructor
    · rintro ⟨func, member, rfl, rfl⟩
      exact passes.func_linkage func member
    · rintro ⟨type, found⟩
      exact passes.exists_func found
  · obtain ⟨type, found⟩ := passes.func_linkage func member
    rw [heads]
    exact linked.storage _ _ _ _ found

/-- The source declares names several times, with and without initial values, and a function as static first. -/
def linkingSource : String :=
  "static int f(int a); extern int n; int k; int n; " ++
  "int g(void) \x7b extern int e; static int k = 3; k = k + e; return f(k); \x7d " ++
  "int f(int a) \x7b return a + n + k; \x7d int n = 5;"

def Product.isLinking : Product → Bool
  | .code made _ => made.statics = [⟨"n", true, 5⟩, ⟨"k", true, 0⟩, ⟨"k.1", false, 3⟩] ∧
    made.funcs.map (fun func => (func.name, func.global)) = [("g", true), ("f", false)]
  | _ => false

def linking : Sample .lower Product.isLinking where
  source := linkingSource
  passes := by decide +kernel

theorem lower_closes_linkage_linking : ∃ code symbols tree,
    (Compiler.compile {} {} linkingSource 0 .lower).1 = .ok (.code code symbols) ∧
    (tokenize linkingSource 0 >>= parse) = .ok tree ∧
    code.statics = [⟨"n", true, 5⟩, ⟨"k", true, 0⟩, ⟨"k.1", false, 3⟩] ∧
    code.funcs.map (fun func => (func.name, func.global)) = [("g", true), ("f", false)] ∧
    symbols.get? "n" = some ⟨.int, .static (.value 5) true⟩ ∧ tree.heads.lookup "f" = some .static := by
  obtain ⟨code, symbols, made, shape⟩ := linking.exists_code
  obtain ⟨statics, funcs⟩ : code.statics = [⟨"n", true, 5⟩, ⟨"k", true, 0⟩, ⟨"k.1", false, 3⟩] ∧
    code.funcs.map (fun func => (func.name, func.global)) = [("g", true), ("f", false)] := of_decide_eq_true shape
  obtain ⟨tree, program, parsed, -, -, values, -, -, -, linkage⟩ := lower_closes_linkage made
  refine ⟨code, symbols, tree, made, parsed, statics, funcs, ?_, ?_⟩
  · have member : (⟨"n", true, 5⟩ : Tac.StaticVar) ∈ code.statics := by simp [statics]
    rcases (values ⟨"n", true, 5⟩).mp member with ⟨-, zero⟩ | found
    · cases zero
    · exact found
  · have listed : ("f", false) ∈ code.funcs.map (fun func => (func.name, func.global)) := by simp [funcs]
    obtain ⟨func, member, same⟩ := List.mem_map.mp listed
    obtain ⟨named, hidden⟩ := Prod.mk.inj same
    obtain ⟨storage, first, agrees⟩ := linkage func member
    rw [named] at first
    have static : storage = .static := by
      by_contra other
      have global := agrees.mpr other
      rw [hidden] at global
      cases global
    exact static ▸ first

end IntC
