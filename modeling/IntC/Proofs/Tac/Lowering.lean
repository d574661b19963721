import IntC.Proofs.Loop
import IntC.Proofs.Symbol.Check
import IntC.Proofs.Tac.Lowered
import IntC.Proofs.Tac.Run
import Mathlib.Data.List.Perm.Basic

namespace IntC

variable {bound first last : Nat} {known loops : List String} {decl : FuncDecl} {id : String} {items : List Item}
  {body : Block}

/-- The labels of the loops with the given ids. -/
def loopLabels (loops : List String) : List String := loops.flatMap fun id => [continueTarget id, breakTarget id]

@[simp] theorem loopLabels_nil : loopLabels [] = [] := rfl

@[simp] theorem loopLabels_append (first second : List String) :
    loopLabels (first ++ second) = loopLabels first ++ loopLabels second := List.flatMap_append ..

@[simp] theorem loopLabels_cons (id : String) (rest : List String) :
    loopLabels (id :: rest) = continueTarget id :: breakTarget id :: loopLabels rest := rfl

namespace Tac

variable {instr : Instr} {value cond : Value} {dest target done id : String} {yesCode body : List Instr}

/-- An instruction that is complete, keeps its operands apart and jumps to one of the targets if it jumps. -/
def Instr.Good (targets : List String) (instr : Instr) : Prop :=
  instr.isComplete = true ∧ instr.overwritesRight = false ∧ ∀ target ∈ instr.target?, target ∈ targets

attribute [local simp] Instr.Good Instr.isComplete Instr.overwritesRight Instr.target? Instr.label? Value.isVar

theorem Instr.good_binary {targets : List String} {op : BinaryOp} {left right : Value} (first : left.isPresent = true)
    (second : right.isPresent = true) (apart : right ≠ .var dest) :
    (Instr.binary op left right (.var dest)).Good targets := by
  cases op <;> simp [first, second, apart]

@[simp] theorem label?_leave (op : ShortCircuit) (cond : Value) (target : String) :
    (op.leave cond target).label? = none := by
  cases op <;> rfl

/-- What code is made of: its labels are those of its loops and names given out for it, and its jumps stay
inside it or lead to the outer targets. -/
structure Emitted (first last : Nat) (loops outer : List String) (code : List Instr) : Prop where
  labels : ∃ own, Fresh first last own ∧ (labels code).Perm (own ++ loopLabels loops)
  good : ∀ instr ∈ code, instr.Good (Tac.labels code ++ outer)

theorem Instr.Good.mono {targets more : List String} (good : instr.Good targets)
    (inside : ∀ name ∈ targets, name ∈ more) : instr.Good more := by
  obtain ⟨complete, apart, target⟩ := good
  exact ⟨complete, apart, fun name found => inside name (target name found)⟩

section Emitted
variable {first middle last : Nat} {loops more outer : List String} {code rest : List Instr}

theorem Emitted.le (emitted : Emitted first last loops outer code) : first ≤ last := by
  obtain ⟨own, fresh, -⟩ := emitted.labels
  exact fresh.le

theorem Emitted.nil (le : first ≤ last) : Emitted first last [] outer [] :=
  ⟨⟨[], .nil le, .nil⟩, fun _ member => nomatch member⟩

theorem Emitted.widen (emitted : Emitted first last loops outer code) {first' last' : Nat} (lower : first' ≤ first)
    (upper : last ≤ last') : Emitted first' last' loops outer code := by
  obtain ⟨own, fresh, perm⟩ := emitted.labels
  exact ⟨⟨own, fresh.widen lower upper, perm⟩, emitted.good⟩

theorem Emitted.label (names : NameSupply) (stem : String) :
    Emitted names.next (names.fresh stem).2.next [] outer [.label (names.fresh stem).1] :=
  ⟨⟨_, .cons stem (.nil le_rfl), .refl _⟩, by simp⟩

theorem Emitted.loop (first : Nat) (id : String) :
    Emitted first first [id] outer [.label (continueTarget id), .label (breakTarget id)] :=
  ⟨⟨[], .nil le_rfl, .refl _⟩, by simp⟩

theorem Emitted.append (emitted : Emitted first middle loops outer code)
    (later : Emitted middle last more outer rest) : Emitted first last (loops ++ more) outer (code ++ rest) := by
  obtain ⟨own, fresh, perm⟩ := emitted.labels
  obtain ⟨others, freshToo, permToo⟩ := later.labels
  refine ⟨⟨own ++ others, fresh.append freshToo, ?_⟩,
    List.forall_mem_append.mpr ⟨fun instr member => ?_, fun instr member => ?_⟩⟩
  · rw [labels_append, loopLabels_append]
    exact (perm.append permToo).trans (by grind)
  · exact (emitted.good instr member).mono (by grind)
  · exact (later.good instr member).mono (by grind)

theorem Emitted.close {inner : List String} (emitted : Emitted first last loops inner code)
    (inside : ∀ name ∈ inner, name ∈ Tac.labels code ∨ name ∈ outer) : Emitted first last loops outer code := by
  refine ⟨emitted.labels, fun instr member => (emitted.good instr member).mono fun name found => ?_⟩
  rw [List.mem_append] at found ⊢
  rcases found with own | outside
  · exact .inl own
  · exact inside name outside

theorem Emitted.alone (emitted : Emitted first last loops [] code) : Emitted first last loops outer code :=
  emitted.close fun _ member => nomatch member

/-- Code may be put in another order, with more instructions in between, as long as no label is added. -/
theorem Emitted.rearrange {whole : List Instr} (emitted : Emitted first last loops outer code)
    (perm : (Tac.labels whole).Perm (Tac.labels code))
    (parts : ∀ instr ∈ whole, instr ∈ code ∨ instr.Good (Tac.labels code ++ outer)) :
    Emitted first last loops outer whole := by
  obtain ⟨own, fresh, same⟩ := emitted.labels
  refine ⟨⟨own, fresh, perm.trans same⟩, fun instr member => ?_⟩
  have good : instr.Good (Tac.labels code ++ outer) := (parts instr member).elim (emitted.good instr) id
  refine good.mono fun name found => ?_
  rw [List.mem_append] at found ⊢
  exact found.imp_left perm.mem_iff.mpr

theorem Emitted.snoc (emitted : Emitted first last loops outer code) (plain : instr.label? = none)
    (good : instr.Good outer) : Emitted first last loops outer (code ++ [instr]) := by
  refine emitted.rearrange (by simp [-Instr.label?, plain]) fun other member => ?_
  rcases List.mem_append.mp member with old | new
  · exact .inl old
  · rw [List.mem_singleton] at new
    exact .inr (new ▸ good.mono fun name found => List.mem_append_right _ found)

theorem Emitted.shortCircuit (op : ShortCircuit) {short : String} {left right : Value}
    (pieces : Emitted first last loops outer ([Instr.label short] ++ ([Instr.label done] ++ (code ++ rest))))
    (leftHere : left.isPresent = true) (rightHere : right.isPresent = true) :
    Emitted first last loops outer (code ++ [op.leave left short] ++ rest ++ [
      op.leave right short,
      Instr.copy (.const op.fullValue) (.var dest),
      Instr.jump done,
      Instr.label short,
      Instr.copy (.const op.shortValue) (.var dest),
      Instr.label done]) := by
  refine pieces.rearrange (by grind [Instr.label?, label?_leave]) ?_
  simp only [List.forall_mem_append, List.forall_mem_cons]
  cases op <;> simp +contextual [ShortCircuit.leave, leftHere, rightHere]

theorem Emitted.conditional {other : String} {yes no : Value} {noCode : List Instr}
    (pieces : Emitted first last loops outer (code ++ ([Instr.label other] ++ (yesCode ++ ([Instr.label done] ++ noCode)))))
    (condHere : cond.isPresent = true) (yesHere : yes.isPresent = true) (noHere : no.isPresent = true) :
    Emitted first last loops outer (code ++ [Instr.jumpIfZero cond other] ++ yesCode
      ++ [Instr.copy yes (.var dest), Instr.jump done, Instr.label other] ++ noCode
      ++ [Instr.copy no (.var dest), Instr.label done]) := by
  refine pieces.rearrange (by grind [Instr.label?]) ?_
  simp only [List.forall_mem_append, List.forall_mem_cons]
  simp +contextual [condHere, yesHere, noHere]

theorem Emitted.ifThen (pieces : Emitted first last loops outer (code ++ ([Instr.label done] ++ yesCode)))
    (condHere : cond.isPresent = true) :
    Emitted first last loops outer (code ++ [Instr.jumpIfZero cond done] ++ yesCode ++ [Instr.label done]) := by
  refine pieces.rearrange (by grind [Instr.label?]) ?_
  simp only [List.forall_mem_append, List.forall_mem_cons]
  simp +contextual [condHere]

theorem Emitted.ifElse {other : String} {noCode : List Instr}
    (pieces : Emitted first last loops outer (code ++ ([Instr.label other] ++ (yesCode ++ ([Instr.label done] ++ noCode)))))
    (condHere : cond.isPresent = true) :
    Emitted first last loops outer (code ++ [Instr.jumpIfZero cond other] ++ yesCode ++ [Instr.jump done, Instr.label other]
      ++ noCode ++ [Instr.label done]) := by
  refine pieces.rearrange (by grind [Instr.label?]) ?_
  simp only [List.forall_mem_append, List.forall_mem_cons]
  simp +contextual [condHere]

theorem Emitted.whileLoop
    (pieces : Emitted first last loops (loopLabels [id]) ([Instr.label (continueTarget id), Instr.label (breakTarget id)] ++
      (code ++ body))) (condHere : cond.isPresent = true) :
    Emitted first last loops outer ([Instr.label (continueTarget id)] ++ code ++ [Instr.jumpIfZero cond (breakTarget id)]
      ++ body ++ [Instr.jump (continueTarget id), Instr.label (breakTarget id)]) := by
  refine Emitted.close (pieces.rearrange (by grind [Instr.label?]) ?_) ?_
  · simp only [List.forall_mem_append, List.forall_mem_cons]
    simp +contextual [condHere]
  · simp +contextual

theorem Emitted.doLoop {start : String}
    (pieces : Emitted first last loops (loopLabels [id]) ([Instr.label (continueTarget id), Instr.label (breakTarget id)] ++
      ([Instr.label start] ++ (body ++ code)))) (condHere : cond.isPresent = true) :
    Emitted first last loops outer ([Instr.label start] ++ body ++ [Instr.label (continueTarget id)] ++ code
      ++ [Instr.jumpIfNotZero cond start, Instr.label (breakTarget id)]) := by
  refine Emitted.close (pieces.rearrange (by grind [Instr.label?]) ?_) ?_
  · simp only [List.forall_mem_append, List.forall_mem_cons]
    simp +contextual [condHere]
  · simp +contextual

theorem Emitted.forLoop {start : String} {cond post : List Instr}
    (pieces : Emitted first last loops (loopLabels [id]) ([Instr.label (continueTarget id), Instr.label (breakTarget id)] ++
      ([Instr.label start] ++ (code ++ (cond ++ (body ++ post)))))) :
    Emitted first last loops outer (code ++ [Instr.label start] ++ cond ++ body ++ [Instr.label (continueTarget id)]
      ++ post ++ [Instr.jump start, Instr.label (breakTarget id)]) := by
  refine Emitted.close (pieces.rearrange (by grind [Instr.label?]) ?_) ?_
  · simp only [List.forall_mem_append, List.forall_mem_cons]
    simp +contextual
  · simp +contextual

end Emitted

/-- The value is there, and if it is a variable, its name is not given out from the bound on. -/
structure Value.Old (bound : Nat) (value : Value) : Prop where
  present : value.isPresent = true
  before : ∀ name, value = .var name → Before bound name

theorem Value.Old.mono {bound more : Nat} (old : value.Old bound) (le : bound ≤ more) :
    value.Old more := ⟨old.present, fun name same => (old.before name same).mono le⟩

theorem Value.old_temp (names : NameSupply) : Value.Old (names.next + 1) (.var names.temp.1) := by
  refine ⟨rfl, fun name same => ?_⟩
  cases same
  have minted : Minted names.next (names.next + 1) names.temp.1 :=
    ⟨names.next, le_rfl, Nat.lt_succ_self _, numbered_fresh "tmp" names⟩
  exact minted.before

theorem Value.Old.ne_temp {bound : Nat} (old : value.Old bound) : value ≠ .var (NameSupply.temp ⟨bound⟩).1 := fun same =>
  absurd (old.before _ same bound (numbered_fresh "tmp" ⟨bound⟩)) (Nat.lt_irrefl _)

end Tac

open Tac

attribute [local simp] Instr.Good Instr.isComplete Instr.overwritesRight Instr.target? Value.isVar

/-- The code of a full expression and the value it leaves. -/
structure Evaluated (first last : Nat) (code : List Instr) (value : Value) : Prop where
  code : Emitted first last [] [] code
  value : value.Old last

mutual

theorem Expr.Lowered.evaluated {known : List String} {expr : Expr} {first last : Nat} {code : List Instr} {value : Value} :
    expr.Lowered first last code value → AllBefore first known → expr.Uses known → Evaluated first last code value
  | .number, _, _ => ⟨.nil le_rfl, rfl, fun _ same => nomatch same⟩
  | .ident, old, uses => by
    refine ⟨.nil le_rfl, rfl, fun other same => ?_⟩
    cases same
    exact old _ uses
  | .unary _ operand, old, uses => by
    obtain ⟨emitted, present⟩ := operand.evaluated old uses.2
    refine ⟨?_, Value.old_temp ⟨_⟩⟩
    exact (emitted.widen le_rfl (Nat.le_succ _)).snoc rfl (by simp [present.present])
  | .shortCircuit meaning _ left right, old, uses => by
    have start := old.mono (Nat.le_add_right first 3)
    obtain ⟨emitted, leftOld⟩ := left.evaluated start uses.2.1
    obtain ⟨later, rightOld⟩ := right.evaluated (start.mono left.le) uses.2.2
    have operands := (emitted.append later).widen (Nat.le_succ (first + 2)) le_rfl
    have pieces := (Emitted.label ⟨first⟩ meaning.shortStem).append ((Emitted.label ⟨first + 1⟩ meaning.endStem).append operands)
    exact ⟨pieces.shortCircuit meaning leftOld.present rightOld.present,
      (Value.old_temp ⟨first + 2⟩).mono (emitted.append later).le⟩
  | .binary _ _ left right, old, uses => by
    obtain ⟨emitted, leftOld⟩ := left.evaluated old uses.2.1
    obtain ⟨later, rightOld⟩ := right.evaluated (old.mono left.le) uses.2.2
    refine ⟨((emitted.append later).widen le_rfl (Nat.le_succ _)).snoc rfl ?_, Value.old_temp ⟨_⟩⟩
    exact Instr.good_binary leftOld.present rightOld.present rightOld.ne_temp
  | .assign value, old, uses => by
    obtain ⟨emitted, present⟩ := value.evaluated old uses.2
    refine ⟨emitted.snoc rfl (by simp [present.present]), rfl, fun other same => ?_⟩
    cases same
    exact (old _ uses.1).mono value.le
  | .conditional cond yes no, old, uses => by
    have still := old.mono (Nat.le_succ_of_le cond.le)
    obtain ⟨emitted, condOld⟩ := cond.evaluated old uses.1
    obtain ⟨yesEmitted, yesOld⟩ := yes.evaluated still uses.2.1
    obtain ⟨noEmitted, noOld⟩ := no.evaluated (still.mono (Nat.le_add_right_of_le yes.le)) uses.2.2
    have middle := yesEmitted.widen le_rfl (Nat.le_succ _)
    have pieces := emitted.append ((Emitted.label ⟨_⟩ "conditional_else").append
      (middle.append ((Emitted.label ⟨_ + 1⟩ "conditional_end").append noEmitted)))
    exact ⟨pieces.conditional condOld.present yesOld.present noOld.present,
      (Value.old_temp ⟨_⟩).mono (Nat.le_of_succ_le noEmitted.le)⟩
  | .call args, old, uses => by
    obtain ⟨emitted, present⟩ := args.evaluated old uses.2
    refine ⟨?_, Value.old_temp ⟨_⟩⟩
    exact (emitted.widen le_rfl (Nat.le_succ _)).snoc rfl (by simpa using present)

theorem ArgsLowered.evaluated {known : List String} {args : List Expr} {first last : Nat} {code : List Instr}
    {values : List Value} : ArgsLowered args first last code values → AllBefore first known → argsUse known args →
      Emitted first last [] [] code ∧ ∀ value ∈ values, value.isPresent = true
  | .nil, _, _ => ⟨.nil le_rfl, fun _ member => nomatch member⟩
  | .cons arg rest, old, uses => by
    obtain ⟨emitted, present⟩ := arg.evaluated old uses.1
    obtain ⟨later, others⟩ := rest.evaluated (old.mono arg.le) uses.2
    exact ⟨emitted.append later, List.forall_mem_cons.mpr ⟨present.present, others⟩⟩

end

/-- The name of a declaration is older than every name that lowering gives out. -/
theorem VarDecl.Bound.before {limit : Nat} {decl : VarDecl} (fits : decl.Bound bound known) (le : bound ≤ limit) :
    Before limit decl.name := by
  by_cases external : decl.storage = .external
  · exact ((VarDecl.bound_of_external external).mp fits).before limit
  · exact ((VarDecl.bound_of_ne_external external).mp fits).1.before.mono le

theorem ForInit.Bound.before {limit : Nat} {init : ForInit} (fits : init.Bound bound known) (le : bound ≤ limit) :
    AllBefore limit init.names := by
  intro name member
  cases init with
  | var decl =>
    rw [List.mem_singleton.mp member]
    exact VarDecl.Bound.before fits le
  | none | expr => cases member

section Parts
variable {code : List Instr}

theorem VarDecl.Lowered.emitted {decl : VarDecl} (lowered : decl.Lowered first last code) (old : AllBefore first known)
    (le : bound ≤ first) (fits : decl.Bound bound known) : Emitted first last [] [] code := by
  cases lowered with
  | initialized init =>
    obtain ⟨minted, inside⟩ := (VarDecl.bound_of_ne_external (by exact nofun)).mp fits
    have more := List.forall_mem_cons.mpr ⟨minted.before.mono le, old⟩
    obtain ⟨emitted, present⟩ := init.evaluated more (inside _ rfl)
    exact emitted.snoc rfl (by simp [present.present])
  | silent => exact .nil le_rfl

theorem ForInit.Lowered.emitted {init : ForInit} (lowered : init.Lowered first last code) (old : AllBefore first known)
    (le : bound ≤ first) (fits : init.Bound bound known) : Emitted first last [] [] code := by
  cases lowered with
  | none => exact .nil le_rfl
  | var decl => exact decl.emitted old le fits
  | expr value => exact (value.evaluated old fits).code

theorem GuardLowered.emitted {cond : Option Expr} (lowered : GuardLowered id cond first last code)
    (old : AllBefore first known) (uses : ∀ value ∈ cond, value.Uses known) :
    Emitted first last [] (loopLabels [id]) code := by
  cases lowered with
  | none => exact .nil le_rfl
  | some cond =>
    obtain ⟨emitted, present⟩ := cond.evaluated old (uses _ rfl)
    exact emitted.alone.snoc rfl (by simp [present.present])

theorem PostLowered.emitted {post : Option Expr} (lowered : PostLowered post first last code)
    (old : AllBefore first known) (uses : ∀ value ∈ post, value.Uses known) : Emitted first last [] [] code := by
  cases lowered with
  | none => exact .nil le_rfl
  | some post => exact (post.evaluated old (uses _ rfl)).code

end Parts

mutual

theorem Stmt.Lowered.emitted {bound : Nat} {known : List String} {loop : Option String} {stmt : Stmt} {first last : Nat}
    {code : List Instr} : stmt.Lowered first last code → AllBefore first known → bound ≤ first →
      stmt.Bound bound known → stmt.Labelled loop → Emitted first last stmt.loops (loopLabels loop.toList) code
  | .ret value, old, _, fits, _ => by
    obtain ⟨emitted, present⟩ := value.evaluated old fits
    exact emitted.alone.snoc rfl (by simp [present.present])
  | .expr value, old, _, fits, _ => (value.evaluated old fits).code.alone
  | .ifThen cond yes, old, le, fits, labelled => by
    obtain ⟨emitted, present⟩ := cond.evaluated old fits.1
    have past := Nat.le_succ_of_le cond.le
    have yesEmitted := yes.emitted (old.mono past) (Nat.le_trans le past) fits.2 labelled
    have pieces := emitted.alone.append ((Emitted.label ⟨_⟩ "if_end").append yesEmitted)
    exact pieces.ifThen present.present
  | .ifElse cond yes no, old, le, fits, labelled => by
    obtain ⟨emitted, present⟩ := cond.evaluated old fits.1
    have past := Nat.le_succ_of_le cond.le
    have yesEmitted := yes.emitted (old.mono past) (Nat.le_trans le past) fits.2.1 labelled.1
    have pastToo := Nat.le_trans past (Nat.le_succ_of_le yes.le)
    have noEmitted := no.emitted (old.mono pastToo) (Nat.le_trans le pastToo) fits.2.2 labelled.2
    have pieces := emitted.alone.append ((Emitted.label ⟨_⟩ "else").append
      (yesEmitted.append ((Emitted.label ⟨_⟩ "if_else_end").append noEmitted)))
    exact pieces.ifElse present.present
  | .block items, old, le, fits, labelled => items.emitted old le fits labelled
  | .breakLoop, _, _, _, labelled | .continueLoop, _, _, _, labelled => by
    cases labelled
    exact (Emitted.nil le_rfl).snoc rfl (by simp)
  | .whileLoop id cond body, old, le, fits, labelled => by
    obtain ⟨emitted, present⟩ := cond.evaluated old fits.1
    have bodyEmitted := body.emitted (old.mono cond.le) (Nat.le_trans le cond.le) fits.2 labelled
    have pieces := (Emitted.loop first id).append (emitted.alone.append bodyEmitted)
    exact pieces.whileLoop present.present
  | .doLoop id body cond, old, le, fits, labelled => by
    have past := Nat.le_succ first
    have bodyEmitted := body.emitted (old.mono past) (Nat.le_trans le past) fits.1 labelled
    obtain ⟨emitted, present⟩ := cond.evaluated (old.mono (Nat.le_of_succ_le body.le)) fits.2
    have pieces := (Emitted.loop first id).append ((Emitted.label ⟨first⟩ "do_loop_start").append
      (bodyEmitted.append emitted.alone))
    rw [List.append_nil] at pieces
    exact pieces.doLoop present.present
  | .forLoop id init cond body post, old, le, fits, labelled => by
    obtain ⟨initFits, condUses, postUses, bodyFits⟩ := fits
    have past := Nat.le_succ first
    have initEmitted := init.emitted (old.mono past) (Nat.le_trans le past) initFits
    have reach := Nat.le_of_succ_le init.le
    have more := List.forall_mem_append.mpr
      ⟨ForInit.Bound.before initFits (Nat.le_trans le reach), old.mono reach⟩
    have condEmitted := cond.emitted more condUses
    have inside := AllBefore.mono more cond.le
    have bodyEmitted := body.emitted inside (Nat.le_trans le (Nat.le_trans reach cond.le)) bodyFits labelled
    have postEmitted := post.emitted (inside.mono body.le) postUses
    have pieces := (Emitted.loop first id).append ((Emitted.label ⟨first⟩ "for_start").append
      (initEmitted.alone.append (condEmitted.append (bodyEmitted.append postEmitted.alone))))
    rw [List.append_nil] at pieces
    exact pieces.forLoop
  | .empty, _, _, _, _ => .nil le_rfl

theorem ItemsLowered.emitted {bound : Nat} {known : List String} {loop : Option String} {items : List Item}
    {first last : Nat} {code : List Instr} : ItemsLowered items first last code → AllBefore first known → bound ≤ first →
      itemsBound bound known items → itemsLabelled loop items →
      Emitted first last (itemsLoops items) (loopLabels loop.toList) code
  | .nil, _, _, _, _ => .nil le_rfl
  | .func rest, old, le, fits, labelled =>
    rest.emitted (List.forall_mem_cons.mpr ⟨fits.1.1.before _, old⟩) le fits.2 labelled
  | .var decl rest, old, le, fits, labelled => by
    have reach := Nat.le_trans le decl.le
    have more := List.forall_mem_cons.mpr ⟨VarDecl.Bound.before fits.1 reach, old.mono decl.le⟩
    exact (decl.emitted old le fits.1).alone.append (rest.emitted more reach fits.2 labelled)
  | .stmt stmt rest, old, le, fits, labelled =>
    (stmt.emitted old le fits.1 labelled.1).append
      (rest.emitted (old.mono stmt.le) (Nat.le_trans le stmt.le) fits.2 labelled.2)

end

theorem Minted.append (minted : Minted first last id) (start : String) : Minted first last (start ++ id) := by
  obtain ⟨number, lower, upper, stem, rfl⟩ := minted
  exact ⟨number, lower, upper, start ++ stem, by simp only [String.append_assoc]⟩

theorem Minted.continueTarget (minted : Minted first last id) : Minted first last (continueTarget id) :=
  minted.append "continue."

theorem Minted.breakTarget (minted : Minted first last id) : Minted first last (breakTarget id) :=
  minted.append "break."

theorem continueTarget_ne_breakTarget (id other : String) : continueTarget id ≠ breakTarget other := by
  intro same
  have lists : ("continue." ++ id).toList = ("break." ++ other).toList := congrArg String.toList same
  simp [String.toList_append] at lists

@[simp] theorem continueTarget_inj {other : String} : continueTarget id = continueTarget other ↔ id = other :=
  String.append_right_inj "continue."

@[simp] theorem breakTarget_inj {other : String} : breakTarget id = breakTarget other ↔ id = other :=
  String.append_right_inj "break."

theorem mem_loopLabels {name : String} :
    name ∈ loopLabels loops ↔ ∃ id ∈ loops, name = continueTarget id ∨ name = breakTarget id := by
  simp [loopLabels]

theorem nodup_loopLabels (distinct : loops.Nodup) : (loopLabels loops).Nodup := by
  induction loops with
  | nil => exact List.nodup_nil
  | cons id rest ih =>
    obtain ⟨new, others⟩ := List.nodup_cons.mp distinct
    have first : continueTarget id ∉ loopLabels rest := by
      rw [mem_loopLabels]
      rintro ⟨other, member, same | same⟩
      · exact new (continueTarget_inj.mp same ▸ member)
      · exact continueTarget_ne_breakTarget id other same
    have second : breakTarget id ∉ loopLabels rest := by
      rw [mem_loopLabels]
      rintro ⟨other, member, same | same⟩
      · exact continueTarget_ne_breakTarget other id same.symm
      · exact new (breakTarget_inj.mp same ▸ member)
    simp [first, second, ih others, continueTarget_ne_breakTarget]

/-- The labels of a body never clash: those of its loops were named before. -/
theorem Tac.Emitted.nodup_labels {outer : List String} {code : List Instr}
    (emitted : Emitted first last loops outer code) (distinct : loops.Nodup) (minted : ∀ id ∈ loops, Minted 0 bound id)
    (le : bound ≤ first) : (Tac.labels code).Nodup := by
  obtain ⟨own, fresh, perm⟩ := emitted.labels
  rw [perm.nodup_iff, List.nodup_append]
  refine ⟨fresh.distinct, nodup_loopLabels distinct, fun name here other there => ?_⟩
  have before : Before first other := by
    obtain ⟨id, member, rfl | rfl⟩ := mem_loopLabels.mp there
    · exact (minted id member).continueTarget.before.mono le
    · exact (minted id member).breakTarget.before.mono le
  exact (fresh.minted name here).ne_before before

theorem Tac.Instr.dest_isVar {instr : Instr} (complete : instr.isComplete = true) :
    ∀ dest ∈ instr.dest?, dest.isVar = true := by
  intro dest found
  cases instr with
  | mention name =>
    cases found
    rfl
  | _ => simp_all [Instr.dest?, Instr.isComplete]

theorem Tac.Emitted.sound {code : List Instr} (emitted : Emitted first last loops [] code) (distinct : loops.Nodup)
    (minted : ∀ id ∈ loops, Minted 0 bound id) (le : bound ≤ first) {func : Tac.Func} (body : func.body = code) :
    func.Sound := by
  subst body
  refine ⟨fun instr member => ?_, emitted.nodup_labels distinct minted le, fun instr member => ?_, fun instr member => ?_⟩
  · exact Instr.dest_isVar (emitted.good instr member).1
  · simpa only [List.append_nil] using (emitted.good instr member).2.2
  · exact (emitted.good instr member).2.1

/-- A program that has passed validation, with its symbols. All its names are from before the bound. -/
structure Accepted (bound : Nat) (program : Program) (symbols : SymbolTable) : Prop where
  fits : unitBound bound [] program.items
  labelled : ∀ decl, .func decl ∈ program.items → decl.Labelled bound
  sound : symbols.Sound bound
  funcs : ∀ decl, .func decl ∈ program.items → symbols.HasFunc decl.name

theorem exists_bound_of_mem (fits : unitBound bound known items) (old : ∀ name ∈ known, Spelled name)
    (member : .func decl ∈ items) : ∃ before, (∀ name ∈ before, Spelled name) ∧ decl.Bound bound before := by
  induction items generalizing known with
  | nil => cases member
  | cons item rest ih =>
    cases item with
    | stmt stmt => exact fits.elim
    | var other =>
      have later : .func decl ∈ rest := by simpa using member
      exact ih fits.2 (List.forall_mem_cons.mpr ⟨fits.1, old⟩) later
    | func other =>
      rcases List.mem_cons.mp member with same | later
      · cases same
        exact ⟨known, old, fits.1⟩
      · exact ih fits.2 (List.forall_mem_cons.mpr ⟨fits.1.1, old⟩) later

section Accepted
variable {bound : Nat} {program : Program} {symbols : SymbolTable}

/-- The names that the body of a function may use are older than those that lowering gives out. -/
theorem Accepted.scope (accepted : Accepted bound program symbols) (member : .func decl ∈ program.items)
    (defined : decl.body = some body) : ∃ known, AllBefore bound known ∧ body.Bound bound known := by
  obtain ⟨before, spelled, named, minted, inside⟩ :=
    exists_bound_of_mem accepted.fits (List.forall_mem_nil _) member
  refine ⟨_, ?_, inside body defined⟩
  rw [AllBefore, List.forall_mem_append, List.forall_mem_map, List.forall_mem_cons]
  exact ⟨fun param among => (minted param among).before, named.before _, fun name among => (spelled name among).before _⟩

/-- What has passed validation is lowered. -/
theorem Accepted.lower_meets (accepted : Accepted bound program symbols) (names : NameSupply) :
    Pass.Meets (program.lower symbols) names (fun code after =>
      UnitLowered symbols (definitions program.items) names.next after.next code.funcs) fun _ => False := by
  refine (lowerUnit_meets (fun made member names => ?_) names).bind fun _ _ lowered => lowered
  obtain ⟨among, defined⟩ := mem_definitions.mp member
  obtain ⟨params, given, global, found⟩ := accepted.sound.func (accepted.funcs made.1 among)
  obtain ⟨known, -, fits⟩ := accepted.scope among defined
  exact FuncDecl.lower_meets found fits names

/-- A function keeps its name and ends in a return. -/
theorem Accepted.emitted {made : FuncDecl × Block} {func : Tac.Func} (accepted : Accepted bound program symbols)
    (member : made ∈ definitions program.items) (lowered : FuncDecl.Lowered symbols made first last func)
    (le : bound ≤ first) : Emitted first last made.2.loops [] func.body ∧
      func.name = made.1.name ∧ ∃ code, func.body = code ++ [.ret (.const 0)] := by
  obtain ⟨among, defined⟩ := mem_definitions.mp member
  obtain ⟨known, old, fits⟩ := accepted.scope among defined
  obtain ⟨marked, -⟩ := accepted.labelled made.1 among made.2 defined
  cases lowered with
  | made _ body => exact ⟨(body.emitted (old.mono le) le fits marked).snoc rfl (by simp), rfl, _, rfl⟩

theorem Accepted.sound_func {made : FuncDecl × Block} {func : Tac.Func} (accepted : Accepted bound program symbols)
    (member : made ∈ definitions program.items) (lowered : FuncDecl.Lowered symbols made first last func)
    (le : bound ≤ first) : func.Sound ∧ ∀ instr ∈ func.body, instr.isComplete = true := by
  obtain ⟨among, defined⟩ := mem_definitions.mp member
  obtain ⟨-, distinct, ids⟩ := accepted.labelled made.1 among made.2 defined
  obtain ⟨emitted, -⟩ := accepted.emitted member lowered le
  exact ⟨emitted.sound distinct ids le rfl, fun instr among => (emitted.good instr among).1⟩

theorem Accepted.lower_sound (accepted : Accepted bound program symbols) (names : NameSupply)
    (le : bound ≤ names.next) : Pass.Meets (program.lower symbols) names (fun code _ =>
      ∀ func ∈ code.funcs, func.Sound ∧ ∀ instr ∈ func.body, instr.isComplete = true) fun _ => False := by
  refine (accepted.lower_meets names).mono fun code after lowered func among => ?_
  have each := lowered.forall₂ fun one member func start stop later here =>
    accepted.sound_func member here (Nat.le_trans le later)
  obtain ⟨one, -, sound⟩ := exists_of_mem_right each among
  exact sound

/-- All the code of a unit, one function behind the other. -/
theorem UnitLowered.emitted {made : List (FuncDecl × Block)} {funcs : List Tac.Func}
    (lowered : UnitLowered symbols made first last funcs) (accepted : Accepted bound program symbols)
    (inside : ∀ one ∈ made, one ∈ definitions program.items) (le : bound ≤ first) :
    Emitted first last (made.flatMap fun one => one.2.loops) [] (funcs.flatMap Tac.Func.body) := by
  induction lowered with
  | nil => exact .nil le_rfl
  | cons here _ ih =>
    obtain ⟨member, others⟩ := List.forall_mem_cons.mp inside
    exact (accepted.emitted member here le).1.append (ih others (Nat.le_trans le here.le))

end Accepted

end IntC
