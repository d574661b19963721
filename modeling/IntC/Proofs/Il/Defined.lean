import IntC.Proofs.Il.Lawful
import IntC.Proofs.Il.Run
import IntC.Proofs.Tac.Assigned
import Mathlib.Data.Set.Insert

namespace IntC

namespace Il

variable {body passed : List Instr}

/-- The temporaries among the operands of a result. -/
def Result.reads : Result → List String
  | .copy source | .neg source => source.names
  | .binary _ left right => left.names ++ right.names
  | .load _ => []
  | .call _ args => args.flatMap Operand.names

def Instr.reads : Instr → List String
  | .assign _ result => result.reads
  | .store source _ => source.names
  | .branch cond _ _ => cond.names
  | .ret value => value.names
  | .block _ | .jump _ => []

/-- The temporary that an instruction gives a value. -/
def Instr.sets? : Instr → Option String
  | .assign dest _ => some dest
  | _ => none

/-- A path through a body from its first block, wherever the data may lead it: the instructions it has passed, and those
from its next one on. -/
inductive Path (body : List Instr) : List Instr → List Instr → Prop
  | start : Path body [] body
  | on {passed instr rest} : Path body passed (instr :: rest) → instr.ends = false → Path body (passed ++ [instr]) rest
  | jump {passed instr rest target next} : Path body passed (instr :: rest) → target ∈ instr.targets →
      seek target body = some next → Path body (passed ++ [instr]) next

theorem Path.subset {point : List Instr} (path : Path body passed point) :
    point <:+ body ∧ ∀ instr ∈ passed, instr ∈ body := by
  induction path with
  | start => exact ⟨List.suffix_rfl, nofun⟩
  | @on passed instr rest _ _ ih =>
    have inside : instr ∈ body := ih.1.subset List.mem_cons_self
    exact ⟨(List.suffix_cons ..).trans ih.1, List.forall_mem_append.mpr ⟨ih.2, by simpa using inside⟩⟩
  | @jump passed instr rest target next _ _ found ih =>
    have inside : instr ∈ body := ih.1.subset List.mem_cons_self
    exact ⟨seek_suffix found, List.forall_mem_append.mpr ⟨ih.2, by simpa using inside⟩⟩

/-- On a path that has passed some instructions, a temporary has been given a value: by the caller, or by one of them. -/
def Defined (params : List String) (passed : List Instr) (name : String) : Prop :=
  name ∈ params ∨ ∃ earlier ∈ passed, earlier.sets? = some name

theorem Defined.snoc {params : List String} {name : String} (defined : Defined params passed name) (instr : Instr) :
    Defined params (passed ++ [instr]) name := by
  refine defined.imp_right fun found => ?_
  obtain ⟨earlier, member, sets⟩ := found
  exact ⟨earlier, List.mem_append_left _ member, sets⟩

/-- The temporaries that have a value behind an instruction. Where control never comes to, any has one. -/
def Instr.leaves (known : Set String) (instr : Instr) : Set String :=
  {name | instr.ends = false → name ∈ known ∨ instr.sets? = some name}

/-- Going through the code line by line, every temporary that is read has a value, apart from those that need none. A
table tells which temporaries have a value at the beginning of a block: no fewer have one wherever control comes to it. -/
inductive Assured (table : String → Set String) (loose : Set String) : Set String → List Instr → Prop
  | nil {known} : Assured table loose known []
  | step {known instr rest} : instr.block? = none → (∀ name ∈ instr.reads, name ∈ known ∨ name ∈ loose) →
      (∀ target ∈ instr.targets, table target ⊆ known) → Assured table loose (instr.leaves known) rest →
      Assured table loose known (instr :: rest)
  | block {known name rest} : table name ⊆ known → Assured table loose (table name) rest →
      Assured table loose known (.block name :: rest)

section Assured
variable {table : String → Set String} {loose known : Set String} {code rest : List Instr}

theorem Assured.behind_block {name : String} {next : List Instr} (assured : Assured table loose known code)
    (place : .block name :: next <:+ code) : Assured table loose (table name) next := by
  induction assured with
  | nil => simp at place
  | step plain _ _ _ ih =>
    rcases List.suffix_cons_iff.mp place with same | later
    · cases same
      cases plain
    · exact ih later
  | block _ assured ih =>
    rcases List.suffix_cons_iff.mp place with same | later
    · cases same
      exact assured
    · exact ih later

theorem Assured.reads {instr : Instr} (assured : Assured table loose known (instr :: rest)) :
    ∀ name ∈ instr.reads, name ∈ known ∨ name ∈ loose := by
  cases assured with
  | step _ reads => exact reads
  | block => nofun

/-- Along a path, whatever is known to have a value was given it on the way. -/
theorem Assured.path {params : List String} {point : List Instr}
    (assured : Assured table loose {name | name ∈ params} body) (path : Path body passed point) :
    ∃ known, (∀ name ∈ known, Defined params passed name) ∧ Assured table loose known point := by
  induction path with
  | start => exact ⟨_, fun name member => Or.inl member, assured⟩
  | @on passed instr rest _ goesOn ih =>
    obtain ⟨known, defined, here⟩ := ih
    cases here with
    | step _ _ _ later =>
      refine ⟨_, fun name member => ?_, later⟩
      rcases member goesOn with old | new
      · exact (defined name old).snoc instr
      · exact Or.inr ⟨instr, List.mem_append_right _ (List.mem_singleton_self _), new⟩
    | block below later => exact ⟨_, fun name member => (defined name (below member)).snoc _, later⟩
  | @jump passed instr rest target next _ jumps found ih =>
    obtain ⟨known, defined, here⟩ := ih
    have below : table target ⊆ known := by
      cases here with
      | step _ _ targets _ => exact targets target jumps
      | block => cases jumps
    exact ⟨table target, fun name member => (defined name (below member)).snoc instr,
      assured.behind_block (block_suffix_of_seek found)⟩

end Assured

end Il

namespace Tac

/-- A variable that a function reads and that nothing gives a value: it is no parameter and the result of no
instruction. -/
def Func.Lacks (func : Func) (name : String) : Prop :=
  (∃ instr ∈ func.body, .var name ∈ instr.reads) ∧ name ∉ func.params ∧
    ∀ instr ∈ func.body, instr.dest? ≠ some (.var name)

theorem Instr.mem_values_of_reads {instr : Instr} {value : Value} (reads : value ∈ instr.reads) : value ∈ instr.values := by
  cases instr with
  | ret | jumpIfZero | jumpIfNotZero => exact reads
  | copy | unary | binary | call => exact List.mem_append_left [_] reads
  | _ => cases reads

end Tac

namespace Qbe

open Tac (Value)

variable {operand : Il.Operand} {instr : Tac.Instr} {dest : String} {result : Il.Result} {after state : Writing}

/-- The temporaries that have a value from the end of the first block's zeros on. -/
def settled (table : SymbolTable) (func : Tac.Func) : Set String :=
  {name | name ∈ func.params ∨ name ∈ written table func}

/-- Wherever control comes to the first block, the parameters have values, and at other blocks all that is zeroed, too. -/
def atBlock (table : SymbolTable) (func : Tac.Func) (name : String) : Set String :=
  if name = "start" then {name | name ∈ func.params} else settled table func

section Code
variable {table : SymbolTable} {func : Tac.Func} {count last : Nat} {code rest : List Il.Instr} {known : Set String}

theorem atBlock_subset (name : String) : atBlock table func name ⊆ settled table func := by
  unfold atBlock
  split
  · exact fun name param => Or.inl param
  · exact fun _ member => member

abbrev Fine (table : SymbolTable) (func : Tac.Func) (known : Set String) (code : List Il.Instr) : Prop :=
  Il.Assured (atBlock table func) {name | func.Lacks name} known code

/-- An operand whose temporary has a value, if it needs one. -/
def Ready (func : Tac.Func) (known : Set String) (operand : Il.Operand) : Prop :=
  ∀ name ∈ operand.names, name ∈ known ∨ func.Lacks name

/-- What goes on as soon as all that is settled has a value. -/
def Covered (table : SymbolTable) (func : Tac.Func) (rest : List Il.Instr) : Prop :=
  ∀ known, settled table func ⊆ known → Fine table func known rest

theorem Ready.mono {wider : Set String} (ready : Ready func known operand) (wide : known ⊆ wider) :
    Ready func wider operand := fun name member => (ready name member).imp_left (@wide name)

theorem settled_or_lacks {name : String} (inside : instr ∈ func.body) (reads : .var name ∈ instr.reads)
    (notStatic : table.isStatic name = false) : name ∈ settled table func ∨ func.Lacks name := by
  by_cases param : name ∈ func.params
  · exact Or.inl (Or.inl param)
  by_cases result : ∃ instr ∈ func.body, instr.dest? = some (.var name)
  · exact Or.inl (Or.inr (mem_written.mpr ⟨param, notStatic, result⟩))
  · exact Or.inr ⟨⟨instr, inside, reads⟩, param, fun other among same => result ⟨other, among, same⟩⟩

theorem subset_leaves {instr : Il.Instr} : known ⊆ instr.leaves known := fun _ member _ => Or.inl member

theorem mem_leaves_assign : dest ∈ Il.Instr.leaves known (.assign dest result) :=
  fun _ => Or.inr rfl

theorem Loads.fine {value : Value} (loads : Loads table count value code operand last)
    (held : ∀ name, value = .var name → table.isStatic name = false → name ∈ known ∨ func.Lacks name)
    (later : ∀ wider, known ⊆ wider → Ready func wider operand → Fine table func wider rest) :
    Fine table func known (code ++ rest) := by
  cases loads with
  | const => exact later known subset_rfl nofun
  | plain notStatic =>
    refine later known subset_rfl fun name member => ?_
    cases List.mem_singleton.mp member
    exact held _ rfl notStatic
  | static =>
    refine .step rfl nofun nofun (later _ subset_leaves fun name member => ?_)
    cases List.mem_singleton.mp member
    exact Or.inl mem_leaves_assign

theorem LoadsAll.fine {values : List Value} {operands : List Il.Operand}
    (loads : LoadsAll table count values code operands last)
    (held : ∀ name, .var name ∈ values → table.isStatic name = false → name ∈ known ∨ func.Lacks name)
    (later : ∀ wider, known ⊆ wider → (∀ operand ∈ operands, Ready func wider operand) → Fine table func wider rest) :
    Fine table func known (code ++ rest) := by
  induction loads generalizing known with
  | nil => exact later known subset_rfl nofun
  | @cons _ _ _ _ values _ _ _ _ first _ ih =>
    rw [List.append_assoc]
    refine first.fine (fun name same => held name (same ▸ List.mem_cons_self)) fun wider wide ready => ?_
    have others : ∀ name, .var name ∈ values → table.isStatic name = false → name ∈ wider ∨ func.Lacks name :=
      fun name member notStatic => (held name (List.mem_cons_of_mem _ member) notStatic).imp_left (@wide name)
    refine ih others fun widest widen all => ?_
    exact later widest (wide.trans widen) (List.forall_mem_cons.mpr ⟨ready.mono widen, all⟩)

/-- A result reads what has a value. -/
theorem Results.fine (results : Results table count instr code result dest last)
    (held : ∀ name, .var name ∈ instr.reads → table.isStatic name = false → name ∈ known ∨ func.Lacks name)
    (later : ∀ wider, known ⊆ wider → (∀ name ∈ result.reads, name ∈ wider ∨ func.Lacks name) →
      Fine table func wider rest) : Fine table func known (code ++ rest) := by
  cases results with
  | copy dest loads =>
    exact loads.fine (fun name same => held name (by simp [Tac.Instr.reads, same])) later
  | unary op dest loads =>
    refine loads.fine (fun name same => held name (by simp [Tac.Instr.reads, same])) fun wider wide ready => ?_
    refine later wider wide fun name member => ready name ?_
    cases op <;> simpa [unaryOperation, Il.Result.reads, Il.Operand.names] using member
  | binary op dest first second =>
    rw [List.append_assoc]
    refine first.fine (fun name same => held name (by simp [Tac.Instr.reads, same])) fun wider wide ready => ?_
    refine second.fine (fun name same notStatic => ?_) fun widest widen readyToo => ?_
    · exact (held name (by simp [Tac.Instr.reads, same]) notStatic).imp_left (@wide name)
    · exact later widest (wide.trans widen) (List.forall_mem_append.mpr ⟨ready.mono widen, readyToo⟩)
  | call callee dest loads =>
    refine loads.fine held fun wider wide ready => later wider wide fun name member => ?_
    obtain ⟨operand, among, inside⟩ := List.mem_flatMap.mp member
    exact ready operand among name inside

theorem Stores.fine (stores : Stores table count dest result code last)
    (reads : ∀ name ∈ result.reads, name ∈ known ∨ func.Lacks name)
    (later : ∀ wider, known ⊆ wider → Fine table func wider rest) : Fine table func known (code ++ rest) := by
  cases stores with
  | plain => exact .step rfl reads nofun (later _ subset_leaves)
  | static =>
    refine .step rfl reads nofun (.step rfl (fun name member => ?_) nofun (later _ ?_))
    · cases List.mem_singleton.mp member
      exact Or.inl mem_leaves_assign
    · exact subset_leaves.trans subset_leaves

/-- Behind a jump on a value comes a block, where all that is settled has a value. -/
theorem Loads.fine_branch {cond : Value} {next yes no : String} (loads : Loads table count cond code operand last)
    (held : ∀ name, cond = .var name → table.isStatic name = false → name ∈ known ∨ func.Lacks name)
    (wide : settled table func ⊆ known) (fresh : next ≠ "start") (covered : Covered table func rest) :
    Fine table func known (code ++ [.branch operand yes no, .block next] ++ rest) := by
  rw [List.append_assoc]
  refine loads.fine held fun wider widen ready => ?_
  have below : ∀ target, atBlock table func target ⊆ wider := fun target => (atBlock_subset target).trans (wide.trans widen)
  refine .step rfl ready (fun target _ => below target) (.block ((below next).trans subset_leaves) (covered _ ?_))
  rw [atBlock, if_neg fresh]

theorem blockName_ne_start (number : Nat) : blockName number ≠ "start" := by
  intro same
  have dotted := isDotted_blockName number
  rw [same] at dotted
  exact absurd dotted (by decide)

theorem Continues.fine (continues : Continues table count instr code after) (inside : instr ∈ func.body)
    (covered : Covered table func rest) : Covered table func (code ++ rest) := by
  intro known wide
  have held : ∀ name, .var name ∈ instr.reads → table.isStatic name = false → name ∈ known ∨ func.Lacks name :=
    fun name reads notStatic => (settled_or_lacks inside reads notStatic).imp_left (@wide name)
  cases continues with
  | ret loads =>
    rw [List.append_assoc]
    refine loads.fine (fun name same => held name (by simp [Tac.Instr.reads, same])) fun wider widen ready => ?_
    exact .step rfl ready nofun (covered _ (fun _ _ ends => by cases ends))
  | jump target =>
    refine .step rfl nofun (fun other _ => (atBlock_subset other).trans wide) (covered _ ?_)
    exact fun _ _ ends => by cases ends
  | jumpIfZero target loads | jumpIfNotZero target loads =>
    exact loads.fine_branch (fun name same => held name (by simp [Tac.Instr.reads, same])) wide
      (blockName_ne_start _) covered
  | assign results stores =>
    rw [List.append_assoc]
    refine results.fine held fun wider widen reads => stores.fine reads fun widest more => ?_
    exact covered widest (wide.trans (widen.trans more))

theorem Becomes.fine (becomes : Becomes table state instr code after) (inside : instr ∈ func.body)
    (plain : ∀ name, instr = .label name → name ≠ "start") (covered : Covered table func rest) :
    Covered table func (code ++ rest) := by
  cases becomes with
  | label name =>
    refine fun known wide => .block ((atBlock_subset name).trans wide) (covered _ ?_)
    rw [atBlock, if_neg (plain name rfl)]
  | mention => exact covered
  | inside opens continues =>
    have behind := continues.fine inside covered
    rw [List.append_assoc]
    cases opens with
    | same => exact behind
    | fresh count =>
      refine fun known wide => .block ((atBlock_subset _).trans wide) (behind _ ?_)
      rw [atBlock, if_neg (blockName_ne_start _)]

theorem BecomesAll.fine {instrs : List Tac.Instr} (becomes : BecomesAll table state instrs code after)
    (inside : ∀ instr ∈ instrs, instr ∈ func.body) (plain : ∀ name ∈ Tac.labels instrs, name ≠ "start") :
    Covered table func code := by
  induction becomes with
  | nil => exact fun _ _ => .nil
  | cons first _ ih =>
    obtain ⟨here, later⟩ := List.forall_mem_cons.mp inside
    rw [Tac.labels_cons] at plain
    obtain ⟨label, labels⟩ := List.forall_mem_append.mp plain
    refine first.fine here ?_ (ih later labels)
    rintro name rfl
    exact label name (List.mem_singleton_self _)

theorem Loads.sets {value : Value} (loads : Loads table count value code operand last) :
    ∀ instr ∈ code, ∀ name, instr.sets? = some name → isDotted name = true := by
  cases loads with
  | const | plain => nofun
  | static =>
    intro instr member name sets
    cases List.mem_singleton.mp member
    cases sets
    exact isDotted_tempName _

theorem LoadsAll.sets {values : List Value} {operands : List Il.Operand}
    (loads : LoadsAll table count values code operands last) :
    ∀ instr ∈ code, ∀ name, instr.sets? = some name → isDotted name = true := by
  induction loads with
  | nil => nofun
  | cons first _ ih => exact List.forall_mem_append.mpr ⟨first.sets, ih⟩

theorem Results.sets (results : Results table count instr code result dest last) :
    instr.dest? = some (.var dest) ∧ ∀ il ∈ code, ∀ name, il.sets? = some name → isDotted name = true := by
  cases results with
  | copy _ loads | unary _ _ loads | call _ _ loads => exact ⟨rfl, loads.sets⟩
  | binary _ _ first second => exact ⟨rfl, List.forall_mem_append.mpr ⟨first.sets, second.sets⟩⟩

theorem Stores.sets (stores : Stores table count dest result code last) :
    ∀ instr ∈ code, ∀ name, instr.sets? = some name → isDotted name = true ∨ name = dest := by
  intro instr member name sets
  cases stores with
  | plain =>
    cases List.mem_singleton.mp member
    exact Or.inr (Option.some.inj sets).symm
  | static =>
    simp only [List.mem_cons, List.not_mem_nil, or_false] at member
    rcases member with rfl | rfl
    · cases sets
      exact Or.inl (isDotted_tempName _)
    · cases sets

/-- What an instruction becomes gives values to numbered temporaries and to the result of the instruction. -/
theorem Becomes.sets (becomes : Becomes table state instr code after) :
    ∀ il ∈ code, ∀ name, il.sets? = some name → isDotted name = true ∨ instr.dest? = some (.var name) := by
  cases becomes with
  | label | mention => simp [Il.Instr.sets?]
  | inside opens continues =>
    refine List.forall_mem_append.mpr ⟨?_, ?_⟩
    · cases opens <;> simp [Il.Instr.sets?]
    · cases continues with
      | ret loads | jumpIfZero _ loads | jumpIfNotZero _ loads =>
        refine List.forall_mem_append.mpr ⟨fun il member name sets => Or.inl (loads.sets il member name sets), ?_⟩
        simp [Il.Instr.sets?]
      | jump => simp [Il.Instr.sets?]
      | assign results stores =>
        obtain ⟨result, loads⟩ := results.sets
        refine List.forall_mem_append.mpr ⟨fun il member name sets => Or.inl (loads il member name sets), ?_⟩
        intro il member name sets
        refine (stores.sets il member name sets).imp_right fun same => ?_
        rw [same, result]

theorem BecomesAll.sets {instrs : List Tac.Instr} (becomes : BecomesAll table state instrs code after) :
    ∀ il ∈ code, ∀ name, il.sets? = some name →
      isDotted name = true ∨ ∃ instr ∈ instrs, instr.dest? = some (.var name) := by
  induction becomes with
  | nil => nofun
  | @cons _ _ _ instr _ _ _ first _ ih =>
    refine List.forall_mem_append.mpr ⟨fun il member name sets => ?_, fun il member name sets => ?_⟩
    · exact (first.sets il member name sets).imp_right fun result => ⟨instr, List.mem_cons_self, result⟩
    · refine (ih il member name sets).imp_right fun found => ?_
      obtain ⟨other, among, result⟩ := found
      exact ⟨other, List.mem_cons_of_mem _ among, result⟩

theorem zeros_fine {names : List String}
    (later : ∀ wider, known ⊆ wider → (∀ name ∈ names, name ∈ wider) → Fine table func wider rest) :
    Fine table func known (zeros names ++ rest) := by
  induction names generalizing known with
  | nil => exact later known subset_rfl nofun
  | cons name names ih =>
    refine .step rfl nofun nofun (ih fun wider wide all => ?_)
    exact later wider (subset_leaves.trans wide) (List.forall_mem_cons.mpr ⟨wide mem_leaves_assign, all⟩)

end Code

section Func
variable {table : SymbolTable} {func : Tac.Func} {il : Il.Func}

theorem FuncBecomes.fine (becomes : FuncBecomes table func il) (plain : ∀ name ∈ Tac.labels func.body, name ≠ "start") :
    Fine table func {name | name ∈ il.params} il.body := by
  obtain ⟨count, code, after, all, rfl⟩ := becomes
  have params : atBlock table func "start" = {name | name ∈ func.params} := if_pos rfl
  refine .block params.subset ?_
  rw [params]
  refine zeros_fine fun wider wide zeros => all.fine (fun _ member => member) plain wider ?_
  exact fun name settled => settled.elim (@wide name) (zeros name)

theorem FuncBecomes.sets (becomes : FuncBecomes table func il) :
    ∀ instr ∈ il.body, ∀ name, instr.sets? = some name →
      isDotted name = true ∨ ∃ instr ∈ func.body, instr.dest? = some (.var name) := by
  obtain ⟨count, code, after, all, rfl⟩ := becomes
  refine List.forall_mem_append.mpr ⟨fun instr member name sets => ?_, all.sets⟩
  rcases List.mem_cons.mp member with rfl | zero
  · cases sets
  · obtain ⟨other, among, rfl⟩ := List.mem_map.mp zero
    cases sets
    exact Or.inr (mem_written.mp among).2.2

/-- A temporary has a value on every path to an instruction that reads it, unless it stands for a variable that the
function never gives a value. And then it has none on any path. -/
theorem FuncBecomes.defined_iff (becomes : FuncBecomes table func il)
    (plain : ∀ name ∈ Tac.labels func.body, name ≠ "start")
    (undotted : ∀ instr ∈ func.body, ∀ name, .var name ∈ instr.values → isDotted name = false)
    {passed rest : List Il.Instr} {instr : Il.Instr} (path : Il.Path il.body passed (instr :: rest)) {name : String}
    (reads : name ∈ instr.reads) : Il.Defined il.params passed name ↔ ¬func.Lacks name := by
  obtain ⟨known, defined, here⟩ := (becomes.fine plain).path path
  constructor
  · rintro defined ⟨⟨other, inside, used⟩, notParam, unset⟩
    rcases defined with param | ⟨earlier, before, sets⟩
    · rw [becomes.head.2.2] at param
      exact notParam param
    · rcases becomes.sets earlier (path.subset.2 earlier before) name sets with dotted | ⟨writer, among, result⟩
      · rw [undotted other inside name (Tac.Instr.mem_values_of_reads used)] at dotted
        cases dotted
      · exact unset writer among result
  · exact fun set => (here.reads name reads).elim (defined name) fun lacks => absurd lacks set

end Func

end Qbe

end IntC
