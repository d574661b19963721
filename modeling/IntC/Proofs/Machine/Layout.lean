import IntC.Proofs.Machine.Lower

namespace IntC.Machine

/-- Frames are rounded up to whole units of sixteen bytes, even where the arithmetic of words overflows. -/
theorem dvd_roundUp (n : Int) : 16 ∣ roundUp n 16 := by
  simp only [roundUp, Number.toWord, Number.wordSpan, Int.bmod]
  omega

theorem le_roundUp {n : Int} (nonneg : 0 ≤ n) (fits : n + 15 < 0x8000000000000000) : n ≤ roundUp n 16 := by
  have same : Number.toWord (n + 16 - 1) = n + 15 := by
    simp only [Number.toWord, Number.wordSpan, Int.bmod]
    omega
  simp only [roundUp, same]
  rw [Int.tdiv_eq_ediv_of_nonneg (by omega)]
  simp only [Number.toWord, Number.wordSpan, Int.bmod]
  omega

/-- An operand that needs nothing of a frame but slots for the given names. -/
def Operand.Asks (known : List String) : Operand → Prop
  | .pseudo name => name ∈ known
  | .stack offset => 0 ≤ offset
  | _ => True

/-- An operand that does not lie below the slots of a frame. -/
def Operand.Within (frame : Frame) : Operand → Prop
  | .stack offset => -frame.size ≤ offset
  | _ => True

theorem Operand.Within.mono {frame after : Frame} {op : Operand} (within : op.Within frame)
    (longer : frame.length ≤ after.length) : op.Within after := by
  cases op with
  | stack offset =>
    simp only [Operand.Within, Frame.size] at within ⊢
    omega
  | _ => trivial

/-- What becomes of a frame when operands are placed: it grows by known names, each of which has one slot,
and the homes of the operands lie within it. -/
structure Frame.Lays (known : List String) (frame : Frame) (homes : List Operand) (after : Frame) : Prop where
  longer : frame.length ≤ after.length
  nodup : frame.Nodup → after.Nodup
  subset : frame ⊆ known → after ⊆ known
  within : ∀ home ∈ homes, home.Within after

section Lays
variable {table : SymbolTable} {known : List String}

theorem Frame.Lays.nil (frame : Frame) : Lays known frame [] frame := ⟨le_rfl, id, id, List.forall_mem_nil _⟩

theorem Frame.Lays.append {frame middle after : Frame} {homes others : List Operand}
    (first : Lays known frame homes middle) (second : Lays known middle others after) :
    Lays known frame (homes ++ others) after where
  longer := Nat.le_trans first.longer second.longer
  nodup := second.nodup ∘ first.nodup
  subset := second.subset ∘ first.subset
  within := List.forall_mem_append.mpr
    ⟨fun home inside => (first.within home inside).mono second.longer, second.within⟩

theorem place_lays {op : Operand} (asks : op.Asks known) (frame : Frame) :
    Frame.Lays known frame [(Frame.place table op frame).1] (Frame.place table op frame).2 := by
  cases op with
  | pseudo name =>
    rw [Frame.place_pseudo]
    by_cases static : table.isStatic name = true
    · rw [if_pos static]
      exact ⟨le_rfl, id, id, List.forall_mem_singleton.mpr trivial⟩
    · rw [if_neg static]
      cases found : List.idxOf? name frame with
      | some index =>
        have bound : index < frame.length := by
          obtain ⟨inside, -⟩ := List.idxOf?_eq_some_iff.mp found
          exact inside
        refine ⟨le_rfl, id, id, List.forall_mem_singleton.mpr ?_⟩
        simp only [Operand.Within, Frame.size, Frame.offset]
        omega
      | none =>
        have fresh : name ∉ frame := List.idxOf?_eq_none_iff.mp found
        refine ⟨by simp, fun nodup => ?_, fun inside => ?_, List.forall_mem_singleton.mpr ?_⟩
        · refine List.nodup_append.mpr ⟨nodup, List.nodup_singleton _, fun other old new listed same => ?_⟩
          exact fresh (List.mem_singleton.mp listed ▸ same ▸ old)
        · exact List.append_subset.mpr ⟨inside, List.cons_subset.mpr ⟨asks, List.nil_subset _⟩⟩
        · simp only [Operand.Within, Frame.size, Frame.offset, List.length_append, List.length_singleton]
          omega
  | stack offset =>
    refine ⟨le_rfl, id, id, List.forall_mem_singleton.mpr ?_⟩
    change -frame.size ≤ offset
    have nonneg : 0 ≤ offset := asks
    unfold Frame.size
    omega
  | _ => exact ⟨le_rfl, id, id, List.forall_mem_singleton.mpr trivial⟩

theorem mapOperandsM_lays {instr : Instr} (asks : ∀ op ∈ instr.operands, op.Asks known) (frame : Frame) :
    Frame.Lays known frame (instr.mapOperandsM (Frame.place table) frame).1.operands
      (instr.mapOperandsM (Frame.place table) frame).2 := by
  cases instr with
  | mov source dest | binary _ source dest | cmp source dest =>
    obtain ⟨first, second, -⟩ := List.forall_mem_cons.mp asks |>.imp_right List.forall_mem_cons.mp
    exact (place_lays first frame).append (place_lays second _)
  | unary _ op | setCC _ op | idiv op | push op =>
    exact place_lays (List.forall_mem_singleton.mp asks) frame
  | _ => exact .nil frame

theorem mapM_lays {code : List Instr} (asks : ∀ instr ∈ code, ∀ op ∈ instr.operands, op.Asks known) (frame : Frame) :
    Frame.Lays known frame
      ((code.mapM (Instr.mapOperandsM (Frame.place table)) frame).1.flatMap Instr.operands)
      (code.mapM (Instr.mapOperandsM (Frame.place table)) frame).2 := by
  induction code generalizing frame with
  | nil => exact .nil frame
  | cons instr rest ih =>
    obtain ⟨first, later⟩ := List.forall_mem_cons.mp asks
    rw [List.mapM_cons]
    exact (mapOperandsM_lays first frame).append (ih later _)

end Lays

/-- The variable that a value is read from. -/
def varName? : Tac.Value → Option String
  | .var name => some name
  | _ => none

/-- The names that a function can ask slots for. -/
def names (func : Tac.Func) : List String :=
  func.params ++ func.body.flatMap fun instr => instr.values.filterMap varName?

theorem Operand.Source.asks {func : Tac.Func} {op : Operand} (source : op.Source func) : op.Asks (names func) := by
  cases source with
  | param inside => exact List.mem_append_left _ inside
  | var member among =>
    exact List.mem_append_right _ (List.mem_flatMap.mpr ⟨_, member, List.mem_filterMap.mpr ⟨_, among, rfl⟩⟩)
  | incoming index => exact (by omega : (0 : Int) ≤ 16 + 8 * index)
  | _ => trivial

/-- The frame of a function has at most one slot for each of its names, and no operand lies below it. -/
theorem finished_lays {func : Tac.Func} {machine : Func} (symbols : SymbolTable) (align : Int)
    (selected : selectFunc func = .ok machine) :
    0 ≤ (machine.finished symbols align).stackSize ∧
      (machine.finished symbols align).stackSize ≤ 4 * (names func).length ∧
      ∀ instr ∈ (machine.finished symbols align).instrs, ∀ offset, .stack offset ∈ instr.operands →
        -(machine.finished symbols align).stackSize ≤ offset := by
  have lays : Frame.Lays (names func) [] ((machine.assignStorage symbols).instrs.flatMap Instr.operands) _ :=
    mapM_lays (fun instr member op inside => ((selectFunc_source selected instr member).1 op inside).asks) []
  have few := (List.subperm_of_subset (lays.nodup List.nodup_nil) (lays.subset (List.nil_subset _))).length_le
  have size : (machine.finished symbols align).stackSize =
      Frame.size (machine.instrs.mapM (Instr.mapOperandsM (Frame.place symbols)) []).2 := rfl
  refine ⟨?_, ?_, List.forall_mem_cons.mpr ⟨fun offset inside => absurd inside List.not_mem_nil, ?_⟩⟩
  · rw [size, Frame.size]
    omega
  · rw [size, Frame.size]
    omega
  · intro part encoded offset inside
    obtain ⟨instr, member, here⟩ := List.mem_flatMap.mp encoded
    rcases mem_operands_encodable instr part here _ inside with old | scratch
    · exact lays.within _ (List.mem_flatMap.mpr ⟨instr, member, old⟩)
    · cases scratch

end IntC.Machine
