import IntC.Proofs.Machine.Legal
import IntC.Proofs.Machine.Select
import Mathlib.Data.List.Chain

namespace IntC.Machine

theorem pseudo?_eq_none {instr : Instr} : instr.pseudo? = none ↔ ∀ name, .pseudo name ∉ instr.operands := by
  unfold Instr.pseudo?
  rw [List.findSome?_eq_none_iff]
  constructor
  · intro each name member
    have := each _ member
    cases this
  · intro free op member
    cases op with
    | pseudo name => exact absurd member (free name)
    | _ => rfl

theorem Instr.legalize_error_iff {instr : Instr} :
    (∃ error, instr.legalize = .error error) ↔ ∃ name, .pseudo name ∈ instr.operands := by
  unfold Instr.legalize
  cases found : instr.pseudo? with
  | none =>
    have free := pseudo?_eq_none.mp found
    constructor
    · rintro ⟨error, failed⟩
      cases failed
    · rintro ⟨name, member⟩
      exact absurd member (free name)
  | some first =>
    refine ⟨fun _ => ?_, fun _ => ⟨_, rfl⟩⟩
    by_contra none
    rw [not_exists] at none
    rw [pseudo?_eq_none.mpr none] at found
    cases found

theorem Func.legalize_error_iff {align : Int} {func : Func} :
    (∃ error, func.legalize align = .error error) ↔ ∃ instr ∈ func.instrs, ∃ name, .pseudo name ∈ instr.operands := by
  simp only [← Instr.legalize_error_iff, ← mapM_error_iff, Func.legalize]
  cases func.instrs.mapM Instr.legalize <;> simp [bind, Except.bind, pure, Except.pure]

theorem Program.legalize_error_iff {align : Int} {program : Program} :
    (∃ error, program.legalize align = .error error) ↔
      ∃ func ∈ program.funcs, ∃ instr ∈ func.instrs, ∃ name, .pseudo name ∈ instr.operands := by
  simp only [← @Func.legalize_error_iff align, ← mapM_error_iff, Program.legalize]
  cases program.funcs.mapM (Func.legalize align) <;> simp [bind, Except.bind, pure, Except.pure]

theorem Instr.legalize_eq_ok {instr : Instr} (settled : instr.isSettled = true) :
    instr.legalize = .ok instr.encodable := by
  have free : instr.pseudo? = none := by
    rw [pseudo?_eq_none]
    intro name member
    have := (isSettled_iff.mp settled).2 _ member
    cases this
  rw [Instr.legalize, free]

theorem Func.legalize_eq_ok {align : Int} {func : Func} (settled : ∀ instr ∈ func.instrs, instr.isSettled = true) :
    func.legalize align =
      .ok { func with instrs := .allocate (roundUp func.stackSize align) :: legalized func.instrs } := by
  have each := mapM_ok_map fun instr member => Instr.legalize_eq_ok (settled instr member)
  rw [Func.legalize, each, legalized, List.flatMap]
  rfl

/-- A run has a companion in the encodable code that passes all its points. -/
theorem legalized_follows {env : Environment} {code : List Instr} (settled : ∀ instr ∈ code, instr.isSettled = true) :
    Follows (fun c d => Boundary c d ∧ c.rest <:+ code) (Step env code) (Step env (legalized code)) := by
  rintro c d next ⟨boundary, inside⟩ step
  have here : ∀ instr ∈ c.rest, instr.isSettled = true := fun instr member => settled instr (inside.subset member)
  obtain ⟨after, moves, still⟩ := boundary.step here step
  exact ⟨after, moves, still, step.suffix inside⟩

/-- And the encodable code does nothing else: at every point of its run it is at work on an instruction
that the run has come to. -/
theorem exists_working {env : Environment} {code : List Instr} (settled : ∀ instr ∈ code, instr.isSettled = true)
    {start : State} {d : Config} (run : Steps env (legalized code) ⟨legalized code, start⟩ d) :
    ∃ c done, Steps env code ⟨code, start⟩ c ∧ c.rest <:+ code ∧ Working env.cpu c done d := by
  induction run with
  | refl => exact ⟨⟨code, start⟩, 0, .refl, List.suffix_rfl, Boundary.working ⟨rfl, .refl start⟩⟩
  | tail _ step ih =>
    obtain ⟨c, done, reached, inside, working⟩ := ih
    have here : ∀ instr ∈ c.rest, instr.isSettled = true := fun instr member => settled instr (inside.subset member)
    rcases working.step here step with further | ⟨next, original, boundary⟩
    · exact ⟨c, done + 1, reached, inside, further⟩
    · exact ⟨next, 0, reached.tail original, original.suffix inside, boundary.working⟩

theorem select_assignStorage_isSettled {program : Tac.Program} {machine : Program} (table : SymbolTable)
    (selected : select program = .ok machine)
    (results : ∀ func ∈ program.funcs, ∀ instr ∈ func.body, ∀ dest ∈ instr.dest?, dest.isVar = true) :
    ∀ func ∈ (machine.assignStorage table).funcs, ∀ instr ∈ func.instrs, instr.isSettled = true := by
  simp only [select, bind_eq_ok, pure_eq_ok] at selected
  obtain ⟨funcs, each, rfl⟩ := selected
  intro func member
  obtain ⟨placed, among, rfl⟩ := List.mem_map.mp member
  obtain ⟨source, inside, made⟩ := exists_of_mem_mapM each among
  exact assignStorage_isSettled (selectFunc_isSelected made (results source inside))

/-- Making a settled function encodable changes none of its runs: the two pass the same boundaries, in
agreement but for the scratch registers, and the encodable code is never anywhere else. What comes from
selection and the layout of frames is settled, and only a pseudo operand is ever rejected. -/
theorem legalize_keeps_runs (align : Int) :
    (∀ func : Func, (∀ instr ∈ func.instrs, instr.isSettled = true) →
      func.legalize align =
        .ok { func with instrs := .allocate (roundUp func.stackSize align) :: legalized func.instrs } ∧
      ∀ (env : Environment) (start : State),
        (∀ points : List Config, (⟨func.instrs, start⟩ :: points).IsChain (Step env func.instrs) →
          ∃ companions, (⟨legalized func.instrs, start⟩ :: companions).IsChain (Steps env (legalized func.instrs)) ∧
            List.Forall₂ Boundary (⟨func.instrs, start⟩ :: points) (⟨legalized func.instrs, start⟩ :: companions)) ∧
        ∀ d, Steps env (legalized func.instrs) ⟨legalized func.instrs, start⟩ d →
          ∃ c done, Steps env func.instrs ⟨func.instrs, start⟩ c ∧ Working env.cpu c done d) ∧
    (∀ (program : Tac.Program) (machine : Program) (table : SymbolTable), select program = .ok machine →
      (∀ func ∈ program.funcs, ∀ instr ∈ func.body, ∀ dest ∈ instr.dest?, dest.isVar = true) →
      ∀ func ∈ (machine.assignStorage table).funcs, ∀ instr ∈ func.instrs, instr.isSettled = true) ∧
    ∀ program : Program, (∃ error, program.legalize align = .error error) ↔
      ∃ func ∈ program.funcs, ∃ instr ∈ func.instrs, ∃ name, .pseudo name ∈ instr.operands := by
  refine ⟨fun func settled => ⟨Func.legalize_eq_ok settled, fun env start => ⟨fun points run => ?_, fun d run => ?_⟩⟩,
    fun program machine table selected results => select_assignStorage_isSettled table selected results,
    fun program => Program.legalize_error_iff⟩
  · have first : Boundary ⟨func.instrs, start⟩ ⟨legalized func.instrs, start⟩ := ⟨rfl, .refl start⟩
    obtain ⟨companions, chain, pointwise⟩ := (legalized_follows settled).run ⟨first, List.suffix_rfl⟩ run
    exact ⟨companions, chain, pointwise.imp fun _ _ both => both.1⟩
  · obtain ⟨c, done, reached, -, working⟩ := exists_working settled run
    exact ⟨c, done, reached, working⟩

/-- A function that multiplies a slot by a global variable and returns the product. -/
def productFunc : Func where
  name := "product"
  global := true
  instrs := [.binary .mult (.data "factor") (.stack (-4)), .mov (.stack (-4)) (.reg .ax), .ret]
  stackSize := 4

theorem legalize_keeps_runs_product : (∀ instr ∈ productFunc.instrs, instr.isSettled = true) ∧
    productFunc.legalize 16 = .ok { productFunc with instrs := [.allocate 16, .mov (.stack (-4)) (.reg .r11),
      .binary .mult (.data "factor") (.reg .r11), .mov (.reg .r11) (.stack (-4)), .mov (.stack (-4)) (.reg .ax),
      .ret] } ∧
    ∀ (env : Environment) (start : State), ∃ last,
      Steps env (legalized productFunc.instrs) ⟨legalized productFunc.instrs, start⟩ ⟨[.ret], last⟩ ∧
      last.regs .ax = start.slots (-4) * start.data "factor" := by
  have settled : ∀ instr ∈ productFunc.instrs, instr.isSettled = true := by decide
  obtain ⟨same, runs⟩ := (legalize_keeps_runs 16).1 productFunc settled
  refine ⟨settled, same, fun env start => ?_⟩
  let product : Word := start.slots (-4) * start.data "factor"
  let multiplied : State := { start with
    flags := env.cpu.binaryFlags .mult (start.slots (-4)) (start.data "factor") start.flags
    slots := Function.update start.slots (-4) product }
  have run : [⟨productFunc.instrs, start⟩, ⟨productFunc.instrs.drop 1, multiplied⟩,
      ⟨[.ret], multiplied.setReg .ax product⟩].IsChain (Step env productFunc.instrs) :=
    .cons_cons (.effect rfl) (.cons_cons (.effect rfl) (.singleton _))
  obtain ⟨companions, chain, pointwise⟩ := (runs env start).1 _ run
  rcases pointwise with _ | ⟨_, _ | ⟨_, _ | @⟨_, ⟨rest, last⟩, _, _, ⟨same, agree⟩, _ | _⟩⟩⟩
  cases same
  have there := List.relationReflTransGen_of_exists_isChain_cons _ chain rfl
  rw [Relation.reflTransGen_eq_self] at there
  refine ⟨last, there, ?_⟩
  rw [← agree.regs .ax (by decide) (by decide), State.setReg_same]

end IntC.Machine
