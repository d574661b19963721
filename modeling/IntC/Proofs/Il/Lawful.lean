import IntC.Proofs.Il.Writing
import Mathlib.Data.List.Nodup

namespace IntC

/-- Lowering gives out no name that begins with a dot. -/
def isDotted (name : String) : Bool := name.toList.head? = some '.'

namespace Il

variable {code : List Instr}

def Instr.isStraight : Instr → Bool
  | .assign .. | .store .. => true
  | _ => false

/-- Code without blocks of its own, that goes on to what stands behind it. -/
def Straight (code : List Instr) : Prop := ∀ instr ∈ code, instr.isStraight = true

theorem Straight.nil : Straight [] := fun _ member => nomatch member

theorem Straight.append {first second : List Instr} (here : Straight first) (later : Straight second) :
    Straight (first ++ second) := List.forall_mem_append.mpr ⟨here, later⟩

theorem Straight.blocks (straight : Straight code) : blocks code = [] := by
  refine List.filterMap_eq_nil_iff.mpr fun instr member => ?_
  have here := straight instr member
  cases instr with
  | assign | store => rfl
  | _ => cases here

theorem Straight.not_target (straight : Straight code) {instr : Instr} (member : instr ∈ code) {target : String} :
    target ∉ instr.targets := by
  intro inside
  have here := straight instr member
  cases instr with
  | assign | store => cases inside
  | _ => cases here

theorem Straight.follows (straight : Straight code) : code.foldlM Instr.follows false = some false := by
  induction code with
  | nil => rfl
  | cons instr rest ih =>
    obtain ⟨here, later⟩ := List.forall_mem_cons.mp straight
    cases instr with
    | assign | store => exact ih later
    | _ => cases here

@[simp] theorem blocks_append (first second : List Instr) : blocks (first ++ second) = blocks first ++ blocks second :=
  List.filterMap_append ..

theorem mem_blocks_last (code : List Instr) (instr : Instr) (name : String) :
    name ∈ blocks (code ++ [instr, .block name]) :=
  List.mem_filterMap.mpr ⟨.block name, by simp, rfl⟩

end Il

namespace Qbe

open Tac (Value)

variable {first last : Nat} {labels : List String} {name dest target : String} {value : Value} {instr : Tac.Instr}
  {result : Il.Result} {instrs : List Tac.Instr} {il : Il.Instr}

theorem isDotted_tempName (number : Nat) : isDotted (tempName number) = true := by
  simp [isDotted, tempName, String.toList_append]

theorem isDotted_blockName (number : Nat) : isDotted (blockName number) = true := by
  simp [isDotted, blockName, String.toList_append]

theorem blockName_inj {second : Nat} (same : blockName first = blockName second) : first = second := by
  have lists := congrArg String.toList same
  simp only [blockName, String.toList_append, List.append_cancel_left_eq] at lists
  exact number_inj lists

theorem tempName_inj {second : Nat} (same : tempName first = tempName second) : first = second := by
  have lists := congrArg String.toList same
  simp only [tempName, String.toList_append, List.append_cancel_left_eq] at lists
  exact number_inj lists

theorem isName_tempName (number : Nat) : Il.isName (tempName number) = true := by
  rw [tempName, Il.isName_append, Il.isName_number, Bool.and_true]
  decide

theorem isName_blockName (number : Nat) : Il.isName (blockName number) = true := by
  rw [blockName, Il.isName_append, Il.isName_number, Bool.and_true]
  decide

/-- The names of blocks are those of labels, and others with numbers given out in between. -/
def Marks (first last : Nat) (labels names : List String) : Prop :=
  first ≤ last ∧ ∃ numbers : List Nat, numbers.Nodup ∧ (∀ number ∈ numbers, first < number ∧ number ≤ last) ∧
    names.Perm (labels ++ numbers.map blockName)

theorem Marks.skip (le : first ≤ last) : Marks first last [] [] :=
  ⟨le, [], List.nodup_nil, by simp, .nil⟩

theorem Marks.label (count : Nat) (name : String) : Marks count count [name] [name] :=
  ⟨le_rfl, [], List.nodup_nil, by simp, .refl _⟩

theorem Marks.next (le : first ≤ last) : Marks first (last + 1) [] [blockName (last + 1)] := by
  refine ⟨by omega, [last + 1], List.nodup_singleton _, ?_, .refl _⟩
  intro number member
  cases List.mem_singleton.mp member
  omega

theorem Marks.append {middle : Nat} {more names others : List String} (here : Marks first middle labels names)
    (later : Marks middle last more others) : Marks first last (labels ++ more) (names ++ others) := by
  obtain ⟨le, numbers, distinct, bounds, perm⟩ := here
  obtain ⟨leToo, numbersToo, distinctToo, boundsToo, permToo⟩ := later
  refine ⟨by omega, numbers ++ numbersToo, ?_, ?_, ?_⟩
  · refine List.nodup_append.mpr ⟨distinct, distinctToo, fun number old other new same => ?_⟩
    have below := bounds number old
    have above := boundsToo other new
    omega
  · intro number member
    rcases List.mem_append.mp member with old | new
    · have within := bounds number old
      omega
    · have within := boundsToo number new
      omega
  · calc
      (names ++ others).Perm ((labels ++ numbers.map blockName) ++ (more ++ numbersToo.map blockName)) :=
        perm.append permToo
      _ = labels ++ (numbers.map blockName ++ more) ++ numbersToo.map blockName := by simp only [List.append_assoc]
      List.Perm _ (labels ++ (more ++ numbers.map blockName) ++ numbersToo.map blockName) :=
        (List.perm_append_comm.append_left labels).append_right _
      _ = labels ++ more ++ (numbers ++ numbersToo).map blockName := by simp only [List.append_assoc, List.map_append]

theorem Marks.of_label {names : List String} (marks : Marks first last labels names) (member : name ∈ labels) :
    name ∈ names := by
  obtain ⟨-, numbers, -, -, perm⟩ := marks
  exact perm.mem_iff.mpr (List.mem_append_left _ member)

theorem Marks.label_or_dotted {names : List String} (marks : Marks first last labels names) (member : name ∈ names) :
    name ∈ labels ∨ isDotted name = true := by
  obtain ⟨-, numbers, -, -, perm⟩ := marks
  refine (List.mem_append.mp (perm.mem_iff.mp member)).imp_right fun numbered => ?_
  obtain ⟨number, -, rfl⟩ := List.mem_map.mp numbered
  exact isDotted_blockName number

theorem Marks.nodup {names : List String} (marks : Marks first last labels names) (distinct : labels.Nodup)
    (plain : ∀ name ∈ labels, isDotted name = false) : names.Nodup := by
  obtain ⟨-, numbers, once, -, perm⟩ := marks
  refine perm.nodup_iff.mpr (List.nodup_append.mpr ⟨distinct, once.map fun _ _ => blockName_inj, ?_⟩)
  rintro name label other numbered rfl
  obtain ⟨number, -, rfl⟩ := List.mem_map.mp numbered
  have dotted := isDotted_blockName number
  rw [plain _ label] at dotted
  cases dotted

section Code
variable {table : SymbolTable} {count last : Nat} {state after : Writing} {code : List Il.Instr}

theorem Loads.straight {operand : Il.Operand} (loads : Loads table count value code operand last) :
    Il.Straight code ∧ count ≤ last := by
  cases loads with
  | const | plain => exact ⟨.nil, le_rfl⟩
  | static => exact ⟨by simp [Il.Straight, Il.Instr.isStraight], Nat.le_succ _⟩

theorem LoadsAll.straight {values : List Value} {operands : List Il.Operand}
    (loads : LoadsAll table count values code operands last) : Il.Straight code ∧ count ≤ last := by
  induction loads with
  | nil => exact ⟨.nil, le_rfl⟩
  | cons first _ ih =>
    obtain ⟨here, le⟩ := first.straight
    exact ⟨here.append ih.1, Nat.le_trans le ih.2⟩

theorem Results.straight (results : Results table count instr code result dest last) :
    Il.Straight code ∧ count ≤ last := by
  cases results with
  | copy _ loads | unary _ _ loads | call _ _ loads => exact loads.straight
  | binary _ _ first second =>
    obtain ⟨here, le⟩ := first.straight
    obtain ⟨later, leToo⟩ := second.straight
    exact ⟨here.append later, Nat.le_trans le leToo⟩

theorem Stores.straight (stores : Stores table count dest result code last) : Il.Straight code ∧ count ≤ last := by
  cases stores with
  | plain => exact ⟨by simp [Il.Straight, Il.Instr.isStraight], le_rfl⟩
  | static => exact ⟨by simp [Il.Straight, Il.Instr.isStraight], Nat.le_succ _⟩

theorem Results.label? (results : Results table count instr code result dest last) : instr.label? = none := by
  cases results <;> rfl

theorem Opens.marks (opens : Opens state code count) :
    Marks state.count count [] (Il.blocks code) ∧ code.foldlM Il.Instr.follows state.closed = some false := by
  cases opens with
  | fresh count => exact ⟨.next le_rfl, rfl⟩
  | same count => exact ⟨.skip le_rfl, rfl⟩

theorem Continues.marks (continues : Continues table count instr code after) :
    Marks count after.count instr.label?.toList (Il.blocks code) ∧
      code.foldlM Il.Instr.follows false = some after.closed := by
  cases continues with
  | ret loads =>
    obtain ⟨straight, le⟩ := loads.straight
    rw [Il.blocks_append, straight.blocks, List.foldlM_append, straight.follows]
    exact ⟨.skip le, rfl⟩
  | jump target => exact ⟨.skip le_rfl, rfl⟩
  | jumpIfZero target loads | jumpIfNotZero target loads =>
    obtain ⟨straight, le⟩ := loads.straight
    rw [Il.blocks_append, straight.blocks, List.foldlM_append, straight.follows]
    exact ⟨.next le, rfl⟩
  | assign results stores =>
    obtain ⟨straight, le⟩ := results.straight
    obtain ⟨straightToo, leToo⟩ := stores.straight
    have all := straight.append straightToo
    rw [all.blocks, all.follows, results.label?]
    exact ⟨.skip (Nat.le_trans le leToo), rfl⟩

theorem Becomes.marks (becomes : Becomes table state instr code after) :
    Marks state.count after.count instr.label?.toList (Il.blocks code) ∧
      code.foldlM Il.Instr.follows state.closed = some after.closed := by
  cases becomes with
  | label name => exact ⟨.label state.count name, rfl⟩
  | mention => exact ⟨.skip le_rfl, rfl⟩
  | inside opens continues =>
    obtain ⟨opening, opened⟩ := opens.marks
    obtain ⟨marks, follows⟩ := continues.marks
    rw [Il.blocks_append, List.foldlM_append, opened]
    exact ⟨opening.append marks, follows⟩

/-- What code becomes is a row of blocks: those of its labels, and others under names of their own. -/
theorem BecomesAll.marks (becomes : BecomesAll table state instrs code after) :
    Marks state.count after.count (Tac.labels instrs) (Il.blocks code) ∧
      code.foldlM Il.Instr.follows state.closed = some after.closed := by
  induction becomes with
  | nil => exact ⟨.skip le_rfl, rfl⟩
  | cons first _ ih =>
    obtain ⟨here, follows⟩ := first.marks
    rw [Tac.labels_cons, Il.blocks_append, List.foldlM_append, follows]
    exact ⟨here.append ih.1, ih.2⟩

/-- Code that ends in a return becomes code that does, and leaves no block open. -/
theorem BecomesAll.returns {front : List Tac.Instr}
    (becomes : BecomesAll table state (front ++ [.ret value]) code after) :
    after.closed = true ∧ ∃ operand, code.getLast? = some (.ret operand) := by
  induction front generalizing state code with
  | nil =>
    obtain - | ⟨here, ⟨⟩⟩ := becomes
    obtain - | - | ⟨-, continues⟩ := here
    cases continues with
    | @ret _ _ operand => exact ⟨rfl, operand, by simp⟩
    | assign results => cases results
  | cons instr rest ih =>
    obtain - | ⟨_, later⟩ := becomes
    obtain ⟨closed, operand, last⟩ := ih later
    exact ⟨closed, operand, by rw [List.getLast?_append, last, Option.some_or]⟩

theorem Loads.targets {cond : Il.Operand} (loads : Loads table count value code cond last) {yes no next : String}
    (member : il ∈ code ++ [.branch cond yes no, .block next]) (inside : target ∈ il.targets) :
    target = yes ∨ target = no := by
  rcases List.mem_append.mp member with here | later
  · exact absurd inside (loads.straight.1.not_target here)
  · simp only [List.mem_cons, List.not_mem_nil, or_false] at later
    rcases later with rfl | rfl
    · simpa [Il.Instr.targets] using inside
    · cases inside

theorem Continues.targets (continues : Continues table count instr code after) (member : il ∈ code)
    (inside : target ∈ il.targets) : target ∈ Il.blocks code ∨ target ∈ instr.target? := by
  cases continues with
  | ret loads =>
    rcases List.mem_append.mp member with here | last
    · exact absurd inside (loads.straight.1.not_target here)
    · cases List.mem_singleton.mp last
      cases inside
  | jump name =>
    cases List.mem_singleton.mp member
    cases List.mem_singleton.mp inside
    exact Or.inr rfl
  | jumpIfZero name loads =>
    rcases loads.targets member inside with rfl | rfl
    · exact Or.inl (Il.mem_blocks_last ..)
    · exact Or.inr rfl
  | jumpIfNotZero name loads =>
    rcases loads.targets member inside with rfl | rfl
    · exact Or.inr rfl
    · exact Or.inl (Il.mem_blocks_last ..)
  | assign results stores =>
    exact absurd inside ((results.straight.1.append stores.straight.1).not_target member)

theorem Becomes.targets (becomes : Becomes table state instr code after) (member : il ∈ code)
    (inside : target ∈ il.targets) : target ∈ Il.blocks code ∨ target ∈ instr.target? := by
  cases becomes with
  | label name =>
    cases List.mem_singleton.mp member
    cases inside
  | mention => cases member
  | inside opens continues =>
    rw [Il.blocks_append]
    rcases List.mem_append.mp member with opening | later
    · cases opens with
      | fresh =>
        cases List.mem_singleton.mp opening
        cases inside
      | same => cases opening
    · rcases continues.targets later inside with own | old
      · exact Or.inl (List.mem_append_right _ own)
      · exact Or.inr old

/-- Code goes to blocks of its own and to those that it went to before. -/
theorem BecomesAll.targets (becomes : BecomesAll table state instrs code after) {instr : Il.Instr}
    (member : instr ∈ code) (inside : target ∈ instr.targets) :
    target ∈ Il.blocks code ∨ ∃ before ∈ instrs, target ∈ before.target? := by
  induction becomes with
  | nil => cases member
  | @cons state middle after before rest code more first _ ih =>
    rw [Il.blocks_append]
    rcases List.mem_append.mp member with here | later
    · rcases first.targets here inside with own | old
      · exact Or.inl (List.mem_append_left _ own)
      · exact Or.inr ⟨before, List.mem_cons_self, old⟩
    · rcases ih later with own | ⟨before, among, old⟩
      · exact Or.inl (List.mem_append_right _ own)
      · exact Or.inr ⟨before, List.mem_cons_of_mem _ among, old⟩

section Names
variable {good : String → Prop}

theorem Loads.names {operand : Il.Operand} (loads : Loads table count value code operand last)
    (temps : ∀ number, good (tempName number)) (vars : ∀ name, value = .var name → good name) :
    (∀ instr ∈ code, ∀ name ∈ instr.names, good name) ∧ ∀ name ∈ operand.names, good name := by
  cases loads with
  | const => simp [Il.Operand.names]
  | plain => simpa [Il.Operand.names] using vars _ rfl
  | static => simpa [Il.Operand.names, Il.Instr.names, Il.Result.names, temps] using vars _ rfl

theorem LoadsAll.names {values : List Value} {operands : List Il.Operand}
    (loads : LoadsAll table count values code operands last) (temps : ∀ number, good (tempName number))
    (vars : ∀ name, .var name ∈ values → good name) :
    (∀ instr ∈ code, ∀ name ∈ instr.names, good name) ∧ ∀ operand ∈ operands, ∀ name ∈ operand.names, good name := by
  induction loads with
  | nil => simp
  | cons first _ ih =>
    obtain ⟨code, operand⟩ := first.names temps fun name same => vars name (same ▸ List.mem_cons_self)
    obtain ⟨more, operands⟩ := ih fun name member => vars name (List.mem_cons_of_mem _ member)
    exact ⟨List.forall_mem_append.mpr ⟨code, more⟩, List.forall_mem_cons.mpr ⟨operand, operands⟩⟩

theorem Results.names (results : Results table count instr code result dest last)
    (temps : ∀ number, good (tempName number)) (vars : ∀ name, .var name ∈ instr.values → good name)
    (symbols : ∀ name ∈ instr.symbols, good name) :
    (∀ instr ∈ code, ∀ name ∈ instr.names, good name) ∧ (∀ name ∈ result.names, good name) ∧ good dest := by
  cases results with
  | copy dest loads =>
    obtain ⟨code, operand⟩ := loads.names temps fun name same => vars name (by simp [Tac.Instr.values, same])
    exact ⟨code, operand, vars dest (by simp [Tac.Instr.values])⟩
  | unary op dest loads =>
    obtain ⟨code, operand⟩ := loads.names temps fun name same => vars name (by simp [Tac.Instr.values, same])
    refine ⟨code, ?_, vars dest (by simp [Tac.Instr.values])⟩
    cases op <;> simpa [unaryOperation, Il.Result.names, Il.Operand.names] using operand
  | binary op dest first second =>
    obtain ⟨code, left⟩ := first.names temps fun name same => vars name (by simp [Tac.Instr.values, same])
    obtain ⟨more, right⟩ := second.names temps fun name same => vars name (by simp [Tac.Instr.values, same])
    exact ⟨List.forall_mem_append.mpr ⟨code, more⟩, List.forall_mem_append.mpr ⟨left, right⟩,
      vars dest (by simp [Tac.Instr.values])⟩
  | call callee dest loads =>
    obtain ⟨code, operands⟩ := loads.names temps fun name member => vars name (by simp [Tac.Instr.values, member])
    refine ⟨code, List.forall_mem_cons.mpr ⟨symbols callee (List.mem_singleton_self _), ?_⟩,
      vars dest (by simp [Tac.Instr.values])⟩
    intro name member
    obtain ⟨operand, among, inside⟩ := List.mem_flatMap.mp member
    exact operands operand among name inside

theorem Stores.names (stores : Stores table count dest result code last) (temps : ∀ number, good (tempName number))
    (own : ∀ name ∈ result.names, good name) (home : good dest) : ∀ instr ∈ code, ∀ name ∈ instr.names, good name := by
  cases stores with
  | plain => simpa [Il.Instr.names, home] using own
  | static => simpa [Il.Instr.names, Il.Operand.names, home, temps] using own

/-- The names in what an instruction becomes are those of the instruction, apart from numbered ones. -/
theorem Becomes.names (becomes : Becomes table state instr code after) (temps : ∀ number, good (tempName number))
    (blocks : ∀ number, good (blockName number)) (vars : ∀ name, .var name ∈ instr.values → good name)
    (symbols : ∀ name ∈ instr.symbols, good name) : ∀ instr ∈ code, ∀ name ∈ instr.names, good name := by
  cases becomes with
  | label name => simpa [Il.Instr.names, Tac.Instr.symbols] using symbols
  | mention => simp
  | inside opens continues =>
    refine List.forall_mem_append.mpr ⟨?_, ?_⟩
    · cases opens with
      | fresh => simp [Il.Instr.names, blocks]
      | same => simp
    · cases continues with
      | ret loads =>
        obtain ⟨code, operand⟩ := loads.names temps fun name same => vars name (by simp [Tac.Instr.values, same])
        exact List.forall_mem_append.mpr ⟨code, by simpa [Il.Instr.names] using operand⟩
      | jump target => simpa [Il.Instr.names, Tac.Instr.symbols] using symbols
      | jumpIfZero target loads | jumpIfNotZero target loads =>
        obtain ⟨code, operand⟩ := loads.names temps fun name same => vars name (by simp [Tac.Instr.values, same])
        have named := symbols target (List.mem_singleton_self _)
        exact List.forall_mem_append.mpr ⟨code, by simpa [Il.Instr.names, blocks, named] using operand⟩
      | assign results stores =>
        obtain ⟨code, result, dest⟩ := results.names temps vars symbols
        exact List.forall_mem_append.mpr ⟨code, stores.names temps result dest⟩

theorem BecomesAll.names (becomes : BecomesAll table state instrs code after)
    (temps : ∀ number, good (tempName number)) (blocks : ∀ number, good (blockName number))
    (vars : ∀ instr ∈ instrs, ∀ name, .var name ∈ instr.values → good name)
    (symbols : ∀ instr ∈ instrs, ∀ name ∈ instr.symbols, good name) :
    ∀ instr ∈ code, ∀ name ∈ instr.names, good name := by
  induction becomes with
  | nil => simp
  | cons first _ ih =>
    obtain ⟨var, vars⟩ := List.forall_mem_cons.mp vars
    obtain ⟨symbol, symbols⟩ := List.forall_mem_cons.mp symbols
    exact List.forall_mem_append.mpr ⟨first.names temps blocks var symbol, ih vars symbols⟩

end Names

end Code

theorem zeros_straight (names : List String) : Il.Straight (zeros names) := by
  intro instr member
  obtain ⟨name, -, rfl⟩ := List.mem_map.mp member
  rfl

theorem blocks_zeroed (names : List String) : Il.blocks (zeroed names) = ["start"] := by
  have rest := (zeros_straight names).blocks
  rw [zeroed, Il.blocks, List.filterMap_cons]
  exact congrArg ("start" :: ·) rest

section Func
variable {table : SymbolTable} {func : Tac.Func} {il : Il.Func}

theorem FuncBecomes.head (becomes : FuncBecomes table func il) :
    il.name = func.name ∧ il.global = func.global ∧ il.params = func.params := by
  obtain ⟨count, code, after, all, rfl⟩ := becomes
  exact ⟨rfl, rfl, rfl⟩

theorem FuncBecomes.starts (becomes : FuncBecomes table func il) : ∃ rest, il.body = .block "start" :: rest := by
  obtain ⟨count, code, after, all, rfl⟩ := becomes
  exact ⟨_, rfl⟩

theorem FuncBecomes.targets (becomes : FuncBecomes table func il) (sound : func.Sound) {instr : Il.Instr}
    (member : instr ∈ il.body) (inside : target ∈ instr.targets) : target ∈ (Il.blocks il.body).tail := by
  obtain ⟨count, code, after, all, rfl⟩ := becomes
  rw [Il.blocks_append, blocks_zeroed, List.singleton_append, List.tail_cons]
  rcases List.mem_append.mp member with start | later
  · rcases List.mem_cons.mp start with rfl | zero
    · cases inside
    · exact absurd inside ((zeros_straight _).not_target zero)
  · rcases all.targets later inside with own | ⟨before, among, old⟩
    · exact own
    · exact all.marks.1.of_label (sound.closed before among target old)

/-- What a function becomes is a row of blocks as the language asks for. -/
theorem FuncBecomes.lawful (becomes : FuncBecomes table func il) (sound : func.Sound)
    (ends : ∃ front value, func.body = front ++ [.ret value])
    (plain : ∀ name ∈ Tac.labels func.body, isDotted name = false ∧ name ≠ "start") : il.isLawful = true := by
  have targets : ∀ instr ∈ il.body, ∀ target ∈ instr.targets, target ∈ Il.blocks il.body :=
    fun instr member target inside => List.mem_of_mem_tail (becomes.targets sound member inside)
  obtain ⟨count, code, after, all, rfl⟩ := becomes
  obtain ⟨marks, follows⟩ := all.marks
  have closed : after.closed = true := by
    obtain ⟨front, value, body⟩ := ends
    rw [body] at all
    exact all.returns.1
  have first : (zeroed (written table func)).foldlM Il.Instr.follows true = some false :=
    (zeros_straight (written table func)).follows
  refine decide_eq_true ⟨?_, ?_, targets⟩
  · rw [List.foldlM_append, first, ← closed]
    exact follows
  · rw [Il.blocks_append, blocks_zeroed, List.singleton_append, List.nodup_cons]
    refine ⟨fun member => ?_, marks.nodup sound.distinct fun name member => (plain name member).1⟩
    rcases marks.label_or_dotted member with label | dotted
    · exact (plain _ label).2 rfl
    · exact absurd dotted (by decide)

/-- The variables that are set to zero at the start are the results that are neither parameters nor static. -/
theorem mem_written : name ∈ written table func ↔
    name ∉ func.params ∧ table.isStatic name = false ∧ ∃ instr ∈ func.body, instr.dest? = some (.var name) := by
  unfold written
  rw [List.mem_eraseDups, List.mem_filterMap]
  constructor
  · rintro ⟨instr, inside, found⟩
    split at found
    · rename_i home result
      split at found
      · cases found
      · rename_i fine
        cases found
        rw [Bool.or_eq_true, not_or, List.contains_iff_mem, Bool.not_eq_true] at fine
        exact ⟨fine.1, fine.2, instr, inside, result⟩
    · cases found
  · rintro ⟨notParam, notStatic, instr, inside, result⟩
    refine ⟨instr, inside, ?_⟩
    rw [result]
    dsimp only
    rw [if_neg (by simp [notParam, notStatic])]

theorem exists_of_mem_written (member : name ∈ written table func) :
    name ∉ func.params ∧ table.isStatic name = false ∧ ∃ instr ∈ func.body, .var name ∈ instr.values := by
  obtain ⟨notParam, notStatic, instr, inside, result⟩ := mem_written.mp member
  refine ⟨notParam, notStatic, instr, inside, ?_⟩
  cases instr <;> cases result <;> simp [Tac.Instr.values]

/-- The names in what a function becomes are those of the function, apart from numbered ones and the first block's. -/
theorem FuncBecomes.names {good : String → Prop} (becomes : FuncBecomes table func il)
    (temps : ∀ number, good (tempName number)) (blocks : ∀ number, good (blockName number)) (start : good "start")
    (name : good func.name) (params : ∀ name ∈ func.params, good name)
    (vars : ∀ instr ∈ func.body, ∀ name, .var name ∈ instr.values → good name)
    (symbols : ∀ instr ∈ func.body, ∀ name ∈ instr.symbols, good name) :
    ∀ line ∈ il.lines, ∀ name ∈ line.names, good name := by
  obtain ⟨count, code, after, all, rfl⟩ := becomes
  have zeros : ∀ instr ∈ zeroed (written table func), ∀ name ∈ instr.names, good name := by
    refine List.forall_mem_cons.mpr ⟨by simpa [Il.Instr.names] using start, fun instr member => ?_⟩
    obtain ⟨name, among, rfl⟩ := List.mem_map.mp member
    obtain ⟨-, -, instr, inside, home⟩ := exists_of_mem_written among
    simpa [Il.Instr.names, Il.Result.names, Il.Operand.names] using vars instr inside name home
  simp only [Il.Func.lines, List.cons_append, List.nil_append, List.forall_mem_cons, List.forall_mem_append,
    List.forall_mem_map, Il.Line.names, List.not_mem_nil, false_imp_iff, forall_true_iff, true_and,
    and_true]
  exact ⟨⟨name, params⟩, zeros, all.names temps blocks vars symbols⟩

end Func

end Qbe

end IntC
