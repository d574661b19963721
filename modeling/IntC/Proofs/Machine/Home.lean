import IntC.Proofs.Machine.Lower
import Mathlib.Data.List.Induction
import Mathlib.Data.List.Nodup

namespace IntC.Machine

/-- The variable that an operand without a home stands for. -/
def Operand.pseudo? : Operand → Option String
  | .pseudo name => some name
  | _ => none

/-- An operand in which a variable has got its home. -/
def Operand.settle (home : String → Operand) : Operand → Operand
  | .pseudo name => home name
  | op => op

theorem Operand.isSettled_of_isMemory {op : Operand} (memory : op.isMemory = true) : op.isSettled = true := by
  cases op with
  | pseudo name => cases memory
  | _ => rfl

/-- An instruction with other operands and nothing else changed. -/
def Instr.mapOperands (f : Operand → Operand) : Instr → Instr
  | .mov source dest => .mov (f source) (f dest)
  | .unary op dest => .unary op (f dest)
  | .binary op source dest => .binary op (f source) (f dest)
  | .cmp source dest => .cmp (f source) (f dest)
  | .idiv source => .idiv (f source)
  | .cdq => .cdq
  | .jmp target => .jmp target
  | .jmpCC cc target => .jmpCC cc target
  | .setCC cc dest => .setCC cc (f dest)
  | .label name => .label name
  | .allocate bytes => .allocate bytes
  | .deallocate bytes => .deallocate bytes
  | .push source => .push (f source)
  | .call name => .call name
  | .ret => .ret

@[simp] theorem Instr.operands_mapOperands (f : Operand → Operand) (instr : Instr) :
    (instr.mapOperands f).operands = instr.operands.map f := by
  cases instr <;> rfl

theorem Instr.mapOperands_congr {f g : Operand → Operand} {instr : Instr} (same : ∀ op ∈ instr.operands, f op = g op) :
    instr.mapOperands f = instr.mapOperands g := by
  cases instr with
  | mov source dest | binary _ source dest | cmp source dest =>
    obtain ⟨first, second, -⟩ := List.forall_mem_cons.mp same |>.imp_right List.forall_mem_cons.mp
    simp only [Instr.mapOperands, first, second]
  | unary _ op | setCC _ op | idiv op | push op => simp only [Instr.mapOperands, List.forall_mem_singleton.mp same]
  | _ => rfl

theorem eraseDups_concat (names : List String) (name : String) :
    (names ++ [name]).eraseDups = if name ∈ names then names.eraseDups else names.eraseDups ++ [name] := by
  rw [List.eraseDups_append]
  split
  · rename_i old
    simp [List.removeAll, old]
  · rename_i new
    simp [List.removeAll, new, List.eraseDups_cons]

namespace Frame

/-- The variables that operands ask slots for: those that are not static, in the order in which they first occur. -/
def ofOperands (table : SymbolTable) (ops : List Operand) : Frame :=
  ((ops.filterMap Operand.pseudo?).filter (!table.isStatic ·)).eraseDups

/-- The home of a variable: static variables are data, and the slots of the others lie one below the other. -/
def home (table : SymbolTable) (frame : Frame) (name : String) : Operand :=
  if table.isStatic name then .data name else .stack (offset (List.idxOf name frame))

variable {table : SymbolTable}

theorem ofOperands_append (table : SymbolTable) (ops more : List Operand) :
    ∃ new, ofOperands table (ops ++ more) = ofOperands table ops ++ new := by
  unfold ofOperands
  rw [List.filterMap_append, List.filter_append, List.eraseDups_append]
  exact ⟨_, rfl⟩

theorem mem_ofOperands {ops : List Operand} {name : String} :
    name ∈ ofOperands table ops ↔ .pseudo name ∈ ops ∧ table.isStatic name = false := by
  have named : ∀ op : Operand, op.pseudo? = some name ↔ op = .pseudo name := by
    intro op
    cases op <;> simp [Operand.pseudo?]
  simp [ofOperands, named]

theorem ofOperands_of_ne_pseudo {op : Operand} (settled : op.pseudo? = none) (ops : List Operand) :
    ofOperands table (ops ++ [op]) = ofOperands table ops := by
  simp [ofOperands, settled]

theorem ofOperands_of_static {name : String} (static : table.isStatic name = true) (ops : List Operand) :
    ofOperands table (ops ++ [.pseudo name]) = ofOperands table ops := by
  simp [ofOperands, Operand.pseudo?, static]

theorem ofOperands_of_dynamic {name : String} (dynamic : table.isStatic name = false) (ops : List Operand) :
    ofOperands table (ops ++ [.pseudo name]) =
      if name ∈ ofOperands table ops then ofOperands table ops else ofOperands table ops ++ [name] := by
  have last : ([.pseudo name].filterMap Operand.pseudo?).filter (!table.isStatic ·) = [name] := by
    simp [Operand.pseudo?, dynamic]
  simp only [ofOperands, List.filterMap_append, List.filter_append, last, eraseDups_concat, List.mem_eraseDups]

theorem nodup_ofOperands (table : SymbolTable) (ops : List Operand) : (ofOperands table ops).Nodup := by
  induction ops using List.reverseRecOn with
  | nil => exact List.nodup_nil
  | append_singleton ops op ih =>
    cases op with
    | pseudo name =>
      by_cases static : table.isStatic name = true
      · rwa [ofOperands_of_static static]
      · rw [ofOperands_of_dynamic (eq_false_of_ne_true static)]
        split
        · exact ih
        · rename_i new
          exact List.nodup_append.mpr ⟨ih, List.nodup_singleton _, by grind⟩
    | _ => rwa [ofOperands_of_ne_pseudo rfl]

theorem settle_append {op : Operand} {ops : List Operand} (member : op ∈ ops) (more : List Operand) :
    op.settle (home table (ofOperands table (ops ++ more))) = op.settle (home table (ofOperands table ops)) := by
  cases op with
  | pseudo name =>
    by_cases static : table.isStatic name = true
    · simp only [Operand.settle, home, static, if_true]
    · have placed : name ∈ ofOperands table ops := mem_ofOperands.mpr ⟨member, eq_false_of_ne_true static⟩
      obtain ⟨new, longer⟩ := ofOperands_append table ops more
      simp only [Operand.settle, home, longer, List.idxOf_append_of_mem placed]
  | _ => rfl

/-- Placing an operand in the frame of those before it gives the frame of all of them. -/
theorem place_ofOperands (table : SymbolTable) (ops : List Operand) (op : Operand) :
    place table op (ofOperands table ops) =
      (op.settle (home table (ofOperands table (ops ++ [op]))), ofOperands table (ops ++ [op])) := by
  cases op with
  | pseudo name =>
    rw [place_pseudo, Operand.settle, home]
    by_cases static : table.isStatic name = true
    · rw [if_pos static, if_pos static, ofOperands_of_static static]
    · rw [if_neg static, if_neg static, ofOperands_of_dynamic (eq_false_of_ne_true static)]
      split
      · rename_i index found
        have old : name ∈ ofOperands table ops := by
          by_contra new
          rw [List.idxOf?_eq_none_iff.mpr new] at found
          cases found
        rw [if_pos old, List.idxOf_eq_getD_idxOf?, found]
        rfl
      · rename_i absent
        have new := List.idxOf?_eq_none_iff.mp absent
        rw [if_neg new, List.idxOf_append_of_notMem new, List.idxOf_cons_self, Nat.add_zero]
  | _ => rw [ofOperands_of_ne_pseudo rfl]; rfl

theorem mapOperandsM_ofOperands (table : SymbolTable) (ops : List Operand) (instr : Instr) :
    instr.mapOperandsM (place table) (ofOperands table ops) =
      (instr.mapOperands (Operand.settle (home table (ofOperands table (ops ++ instr.operands)))),
        ofOperands table (ops ++ instr.operands)) := by
  cases instr with
  | mov source dest | binary _ source dest | cmp source dest =>
    have first := place_ofOperands table ops source
    have second := place_ofOperands table (ops ++ [source]) dest
    have kept := @settle_append table source (ops ++ [source]) (List.mem_append_right _ (List.mem_singleton_self _)) [dest]
    rw [List.append_assoc] at second kept
    simp only [Instr.mapOperandsM, Instr.mapOperands, Instr.operands, bind, StateT.bind, first, second]
    rw [← kept]
    rfl
  | unary _ op | setCC _ op | idiv op | push op =>
    simp only [Instr.mapOperandsM, Instr.mapOperands, Instr.operands, bind, StateT.bind, place_ofOperands]
    rfl
  | _ =>
    rw [Instr.operands, List.append_nil]
    rfl

theorem mapM_ofOperands (table : SymbolTable) (ops : List Operand) (code : List Instr) :
    code.mapM (Instr.mapOperandsM (place table)) (ofOperands table ops) =
      (code.map (Instr.mapOperands (Operand.settle (home table (ofOperands table (ops ++ code.flatMap Instr.operands))))),
        ofOperands table (ops ++ code.flatMap Instr.operands)) := by
  induction code generalizing ops with
  | nil =>
    rw [List.flatMap_nil, List.append_nil]
    rfl
  | cons instr rest ih =>
    have first := mapOperandsM_ofOperands table ops instr
    have later := ih (ops ++ instr.operands)
    have kept : instr.mapOperands (Operand.settle (home table (ofOperands table (ops ++ instr.operands)))) =
        instr.mapOperands (Operand.settle (home table
          (ofOperands table (ops ++ instr.operands ++ rest.flatMap Instr.operands)))) :=
      Instr.mapOperands_congr fun op member => (settle_append (List.mem_append_right _ member) _).symm
    rw [List.mapM_cons, List.flatMap_cons, ← List.append_assoc]
    simp only [bind, StateT.bind, first, later, kept]
    rfl

end Frame

namespace Func

/-- All operands, instruction by instruction and sources before destinations. -/
def operands (func : Func) : List Operand := func.instrs.flatMap Instr.operands

/-- The variables of a function that have slots in its frame. -/
def slots (table : SymbolTable) (func : Func) : Frame := Frame.ofOperands table func.operands

def home (table : SymbolTable) (func : Func) : String → Operand := Frame.home table (func.slots table)

/-- No operand lies where the frame will be. -/
def LeavesRoom (func : Func) : Prop := ∀ offset, .stack offset ∈ func.operands → 0 ≤ offset

/-- A function in which each variable has a home of its own. -/
structure Housed (table : SymbolTable) (func placed : Func) : Prop where
  /-- Every variable is replaced by its home, wherever it occurs, and nothing else changes. -/
  same : placed = { func with
    instrs := func.instrs.map (Instr.mapOperands (Operand.settle (func.home table)))
    stackSize := 4 * (func.slots table).length }
  static : ∀ name, func.home table name = .data name ↔ table.isStatic name = true
  asked : ∀ name, name ∈ func.slots table ↔ .pseudo name ∈ func.operands ∧ table.isStatic name = false
  slot : ∀ (index : Nat) name, (func.slots table)[index]? = some name → func.home table name = .stack (-4 * (index + 1))
  apart : ∀ name ∈ func.slots table, ∀ other ∈ func.slots table, name ≠ other →
    ∃ x y, func.home table name = .stack x ∧ func.home table other = .stack y ∧ (x + 4 ≤ y ∨ y + 4 ≤ x)
  within : ∀ name ∈ func.slots table, ∀ offset, func.home table name = .stack offset →
    -placed.stackSize ≤ offset ∧ offset + 4 ≤ 0
  /-- What the function finds on the stack, its parameters for one thing, lies above its slots. -/
  clear : ∀ name ∈ func.slots table, ∀ offset, func.home table name = .stack offset →
    ∀ other, .stack other ∈ func.operands → offset + 4 ≤ other
  settled : ∀ op ∈ placed.operands, op.isSettled = true

variable {table : SymbolTable} {func : Func}

theorem assignStorage_eq (table : SymbolTable) (func : Func) : func.assignStorage table = { func with
    instrs := func.instrs.map (Instr.mapOperands (Operand.settle (func.home table)))
    stackSize := 4 * (func.slots table).length } := by
  have start : Frame.ofOperands table [] = [] := rfl
  have placed := Frame.mapM_ofOperands table [] func.instrs
  rw [start, List.nil_append] at placed
  unfold assignStorage
  rw [placed]
  rfl

theorem home_of_static {name : String} (static : table.isStatic name = true) : func.home table name = .data name :=
  if_pos static

theorem home_of_dynamic {name : String} (dynamic : table.isStatic name = false) :
    func.home table name = .stack (Frame.offset (List.idxOf name (func.slots table))) :=
  if_neg (ne_true_of_eq_false dynamic)

theorem home_isMemory (name : String) : (func.home table name).isMemory = true := by
  unfold home Frame.home
  split <;> rfl

theorem dynamic_of_mem {name : String} (member : name ∈ func.slots table) : table.isStatic name = false :=
  (Frame.mem_ofOperands.mp member).2

theorem exists_slot {name : String} (member : name ∈ func.slots table) : ∃ index : Nat,
    index < (func.slots table).length ∧ (func.slots table)[index]? = some name ∧
      func.home table name = .stack (-4 * (index + 1)) := by
  have inside := List.idxOf_lt_length_of_mem member
  refine ⟨_, inside, ?_, home_of_dynamic (dynamic_of_mem member)⟩
  rw [List.getElem?_eq_getElem inside, List.getElem_idxOf]

theorem housed_assignStorage (room : func.LeavesRoom) : func.Housed table (func.assignStorage table) where
  same := assignStorage_eq table func
  static name := by
    refine ⟨fun data => ?_, home_of_static⟩
    by_contra other
    rw [home_of_dynamic (eq_false_of_ne_true other)] at data
    cases data
  asked name := Frame.mem_ofOperands
  slot index name found := by
    obtain ⟨inside, rfl⟩ := List.getElem?_eq_some_iff.mp found
    have index_eq := (Frame.nodup_ofOperands table func.operands).idxOf_getElem index inside
    rw [home_of_dynamic (dynamic_of_mem (List.getElem_mem inside))]
    exact congrArg (fun index => Operand.stack (Frame.offset index)) index_eq
  apart name member other memberToo differ := by
    obtain ⟨index, -, found, placed⟩ := exists_slot member
    obtain ⟨next, -, foundToo, placedToo⟩ := exists_slot memberToo
    have apart : index ≠ next := by
      rintro rfl
      exact differ (Option.some.inj (found.symm.trans foundToo))
    exact ⟨_, _, placed, placedToo, by omega⟩
  within name member offset placed := by
    obtain ⟨index, inside, -, there⟩ := exists_slot member
    cases placed.symm.trans there
    rw [assignStorage_eq]
    dsimp only
    omega
  clear name member offset placed other found := by
    obtain ⟨index, -, -, there⟩ := exists_slot member
    cases placed.symm.trans there
    have above := room other found
    omega
  settled := by
    rw [assignStorage_eq]
    intro op member
    obtain ⟨_, placed, inside⟩ := List.mem_flatMap.mp member
    obtain ⟨instr, -, rfl⟩ := List.mem_map.mp placed
    rw [Instr.operands_mapOperands] at inside
    obtain ⟨old, -, rfl⟩ := List.mem_map.mp inside
    cases old with
    | pseudo name => exact Operand.isSettled_of_isMemory (home_isMemory name)
    | _ => rfl

end Func

/-- Selected code finds nothing on the stack but parameters, which lie above the frame. -/
theorem selectFunc_leavesRoom {func : Tac.Func} {machine : Func} (selected : selectFunc func = .ok machine) :
    machine.LeavesRoom := by
  intro offset found
  obtain ⟨instr, member, inside⟩ := List.mem_flatMap.mp found
  cases (selectFunc_source selected instr member).1 _ inside with
  | incoming index => omega

/-- Laying out the frames of functions that leave room for them, as all selected functions do, gives every variable a home
of its own, in each function apart from the others. -/
theorem assignStorage_gives_homes (table : SymbolTable) :
    (∀ code program, select code = .ok program → ∀ func ∈ program.funcs, func.LeavesRoom) ∧
    ∀ program : Program, (∀ func ∈ program.funcs, func.LeavesRoom) →
      (program.assignStorage table).statics = program.statics ∧
      List.Forall₂ (Func.Housed table) program.funcs (program.assignStorage table).funcs := by
  refine ⟨fun code program selected func member => ?_, fun program room => ⟨rfl, ?_⟩⟩
  · obtain ⟨funcs, each, made⟩ := bind_eq_ok.mp selected
    cases made
    obtain ⟨source, -, done⟩ := exists_of_mem_mapM each member
    exact selectFunc_leavesRoom done
  · unfold Program.assignStorage
    rw [List.forall₂_map_right_iff, List.forall₂_same]
    exact fun func member => Func.housed_assignStorage (room func member)

/-- Two functions that use the same variable. The first takes a parameter from the stack and adds to a static variable. -/
def sharingName : Program where
  statics := [⟨"total", false, 0⟩]
  funcs := [
    { name := "f", global := true, instrs := [
        .mov (.stack 16) (.pseudo "a"), .mov (.pseudo "a") (.pseudo "b"), .binary .add (.pseudo "b") (.pseudo "total")] },
    { name := "g", global := false, instrs := [.mov (.imm 1) (.pseudo "b"), .push (.pseudo "b")] }]

/-- In each of them the variable has a slot of its own. -/
theorem assignStorage_gives_homes_sharingName :
    (∀ func ∈ sharingName.funcs, func.LeavesRoom) ∧
    List.Forall₂ (Func.Housed ⟨[("total", ⟨.int, .static (.value 0) false⟩)]⟩) sharingName.funcs [
      { name := "f", global := true, stackSize := 8, instrs := [
          .mov (.stack 16) (.stack (-4)), .mov (.stack (-4)) (.stack (-8)), .binary .add (.stack (-8)) (.data "total")] },
      { name := "g", global := false, stackSize := 4, instrs := [.mov (.imm 1) (.stack (-4)), .push (.stack (-4))] }] := by
  have room : ∀ func ∈ sharingName.funcs, func.LeavesRoom := by
    simp [sharingName, Func.LeavesRoom, Func.operands, Instr.operands]
  exact ⟨room, ((assignStorage_gives_homes _).2 sharingName room).2⟩

end IntC.Machine
