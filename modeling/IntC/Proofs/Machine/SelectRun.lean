import IntC.Proofs.Machine.Select

namespace IntC.Machine

variable {env : Environment} {code rest : List Instr} {state : State} {func : String}

/-- If calls turn out in one way, so does every run. -/
theorem Step.rightUnique (calls : ∀ name, Relator.RightUnique (env.calls name)) :
    Relator.RightUnique (Step env code) := by
  intro c first second one other
  cases one with
  | effect done =>
    cases other with
    | effect too => rw [Option.some.inj (done.symm.trans too)]
    | jmp | taken | passed | call => simp [Instr.effect] at done
  | jmp found =>
    cases other with
    | effect done => simp [Instr.effect] at done
    | jmp too => rw [Option.some.inj (found.symm.trans too)]
  | taken holds found =>
    cases other with
    | effect done => simp [Instr.effect] at done
    | taken _ too => rw [Option.some.inj (found.symm.trans too)]
    | passed fails => simp [fails] at holds
  | passed fails =>
    cases other with
    | effect done => simp [Instr.effect] at done
    | taken holds => simp [fails] at holds
    | passed => rfl
  | call made =>
    cases other with
    | effect done => simp [Instr.effect] at done
    | call too => rw [calls _ made too]

theorem State.Passes.unique {first second : List Word} (one : state.Passes first) (other : state.Passes second)
    (length : first.length = second.length) : first = second := by
  apply List.ext_getElem?
  intro index
  rcases Nat.lt_or_ge index first.length with inside | beyond
  · rw [← one index inside, other index (length ▸ inside)]
  · rw [List.getElem?_eq_none beyond, List.getElem?_eq_none (length ▸ beyond)]

/-- If every callee takes one number of arguments, calls turn out in one way. -/
theorem hosted_rightUnique {world : World} {cpu : Processor} {takes : String → Nat → Prop}
    {leave : String → State → (Reg → Word) × Flags} (single : ∀ callee, ∀ m n, takes callee m → takes callee n → m = n)
    (code : List Instr) : Relator.RightUnique (Step (hosted world cpu takes leave) code) := by
  refine Step.rightUnique ?_
  rintro name before _ _ ⟨args, allowed, passes, rfl⟩ ⟨others, allowedToo, passesToo, rfl⟩
  rw [passes.unique passesToo (single name _ _ allowed allowedToo)]

theorem final_ret : Final (Step env code) ⟨.ret :: rest, state⟩ := by
  intro after step
  cases step with
  | effect done => simp [Instr.effect] at done

theorem final_nil : Final (Step env code) ⟨[], state⟩ := by
  intro after step
  cases step

theorem exists_final_divide {left right : Operand} {value : Tac.Value} {a b : Word}
    (readLeft : left.read state = some a) (selected : operand func value = .ok right)
    (read : value.read state.pseudos = some b) (undefined : Word.quotient? a b = none) :
    ∃ last, Steps env code ⟨.mov left (.reg .ax) :: .cdq :: .idiv right :: rest, state⟩ ⟨.idiv right :: rest, last⟩ ∧
      Final (Step env code) ⟨.idiv right :: rest, last⟩ := by
  refine ⟨state.extended a, Steps.effects (effects_extend readLeft), fun after step => ?_⟩
  have divisor := operand_read selected (rfl : (state.extended a).pseudos = state.pseudos) read
  cases step with
  | effect done =>
    simp only [Instr.effect, divisor, Option.bind_eq_bind, Option.bind_some, State.extended_dividend] at done
    rw [if_neg (Word.inexact_quotient undefined)] at done
    cases done

theorem isPresent_of_operand {value : Tac.Value} {op : Operand} (selected : operand func value = .ok op) :
    value.isPresent = true := by
  cases value with
  | const | var => rfl
  | absent => cases selected

/-- What can be selected and leaves its result in a variable is complete. -/
theorem isComplete_of_selectInstr {instr : Tac.Instr} {block : List Instr}
    (selected : selectInstr func instr = .ok block) (result : ∀ dest ∈ instr.dest?, dest.isVar = true) :
    instr.isComplete = true := by
  cases instr with
  | ret value | jumpIfZero value target | jumpIfNotZero value target =>
    simp only [selectInstr, bind_eq_ok, pure_eq_ok] at selected
    obtain ⟨_, made, -⟩ := selected
    exact isPresent_of_operand made
  | copy source dest =>
    simp only [selectInstr, bind_eq_ok, pure_eq_ok] at selected
    obtain ⟨_, made, -⟩ := selected
    exact Bool.and_eq_true_iff.mpr ⟨isPresent_of_operand made, result dest rfl⟩
  | unary op source dest =>
    have present : source.isPresent = true := by
      cases op <;> simp only [selectInstr, bind_eq_ok, pure_eq_ok] at selected <;>
        obtain ⟨_, -, _, made, -⟩ := selected <;> exact isPresent_of_operand made
    exact Bool.and_eq_true_iff.mpr ⟨present, result dest rfl⟩
  | binary op left right dest =>
    simp only [selectInstr, bind_eq_ok, pure_eq_ok] at selected
    obtain ⟨_, madeL, _, madeR, -⟩ := selected
    have both := Bool.and_eq_true_iff.mpr ⟨isPresent_of_operand madeL, isPresent_of_operand madeR⟩
    exact Bool.and_eq_true_iff.mpr ⟨both, result dest rfl⟩
  | call callee args dest =>
    simp only [selectInstr, bind_eq_ok, pure_eq_ok] at selected
    obtain ⟨_, each, -⟩ := selected
    have present : args.all Tac.Value.isPresent = true := List.all_eq_true.mpr fun arg member => by
      obtain ⟨_, -, made⟩ := exists_ok_of_mapM each member
      exact isPresent_of_operand made
    exact Bool.and_eq_true_iff.mpr ⟨present, result dest rfl⟩
  | jump | label | mention => rfl
  | unknown | lacking => cases selected

/-- While a run of the selected instructions is bound for a return, the function can go on until it
returns. Only an undefined division could keep it from that, and it stops the machine too. -/
theorem Mirrors.progress (world : World) {func : Tac.Func} {pushed : List (Option Word)} {last : State}
    {c : Tac.Config} {d : Config} (sound : func.Sound) (unique : Relator.RightUnique (Step env code))
    (mirrors : Mirrors func.name pushed c d) (inside : c.rest <:+ func.body)
    (run : Steps env code d ⟨.ret :: rest, last⟩) :
    (∃ next, Tac.Step world func.body c next) ∨ ∃ value, c.returned? = some value := by
  obtain ⟨instrs, state⟩ := d
  obtain ⟨here, memory⟩ := c
  obtain ⟨selects, holds⟩ := mirrors
  cases here with
  | nil =>
    obtain ⟨blocks, each, rfl⟩ := selects
    cases each
    cases final_nil.eq_of_reach run
  | cons instr behind =>
    have member : instr ∈ func.body := inside.subset List.mem_cons_self
    obtain ⟨block, others, first, later, rfl⟩ := selects_cons.mp selects
    have complete := isComplete_of_selectInstr first (sound.results instr member)
    rcases Tac.Step.progress world complete (sound.closed instr member) with goes | returns | undefined
    · exact .inl goes
    · exact .inr returns
    · obtain ⟨op, left, right, dest, a, b, rfl, readLeft, readRight, applied⟩ := undefined
      simp only [selectInstr, bind_eq_ok, pure_eq_ok] at first
      obtain ⟨l, madeL, r, madeR, place, -, rfl⟩ := first
      have leftRead := operand_read madeL holds.pseudos readLeft
      rw [← holds.pseudos] at readRight
      have never (undefined : Word.quotient? a b = none) (tail : List Instr)
          (run : Steps env code ⟨.mov l (.reg .ax) :: .cdq :: .idiv r :: tail, state⟩ ⟨.ret :: rest, last⟩) : False := by
        obtain ⟨stopped, there, final⟩ := exists_final_divide leftRead madeR readRight undefined
        cases final.eq_of_reach (final_ret.reach unique run there)
      cases op with
      | div => exact (never applied _ run).elim
      | rem => exact (never (Word.quotient?_eq_none_of_remainder? applied) _ run).elim
      | _ => cases applied

section Run
variable {world : World} {cpu : Processor} {takes : String → Nat → Prop} {leave : String → State → (Reg → Word) × Flags}
  {func : Tac.Func} {pushed : List (Option Word)} {code : List Instr}

/-- The instructions behind the moves of the parameters keep up with every run of the function. -/
theorem Selects.tracks (selects : Selects func.name func.body code) (sound : func.Sound)
    (allowed : ∀ callee args dest, .call callee args dest ∈ func.body → takes callee args.length) :
    Tracks (fun c d => Mirrors func.name pushed c d ∧ c.rest <:+ func.body) (fun c => c.rest.length)
      (Tac.Step world func.body) (Step (hosted world cpu takes leave) (paramMoves func.params ++ code)) := by
  rintro c d next ⟨mirrors, inside⟩ step
  have plain : ∀ name, Instr.label name ∉ paramMoves func.params := fun name member => by
    have ordinary := isOrdinary_paramMoves _ member
    simp [Instr.isOrdinary] at ordinary
  have jumps : ∀ target rest, Tac.seek target func.body = some rest →
      ∃ after, Machine.seek target (paramMoves func.params ++ code) = some after ∧ Selects func.name rest after := by
    intro target rest found
    rw [seek_append_of_plain plain]
    exact selects.seek sound.results found
  obtain ⟨after, still, moved⟩ := mirrors.step jumps (fun instr member => sound.apart instr (inside.subset member))
    (fun callee args dest member => allowed callee args dest (inside.subset member)) step
  exact ⟨after, ⟨still, step.suffix inside⟩, moved⟩

/-- If callees take one number of arguments each, the instructions come to a return only where the
function returns, and with the value that it returns. -/
theorem Selects.returns_back {start : Memory} {last : State} (selects : Selects func.name func.body code)
    (sound : func.Sound) (allowed : ∀ callee args dest, .call callee args dest ∈ func.body → takes callee args.length)
    (single : ∀ callee m n, takes callee m → takes callee n → m = n) (holds : Holds start pushed state)
    (run : Steps (hosted world cpu takes leave) (paramMoves func.params ++ code) ⟨code, state⟩ ⟨.ret :: rest, last⟩) :
    ∃ final, Tac.Returns world func.body start (last.regs .ax) final ∧ Holds final pushed last := by
  have unique : Relator.RightUnique (Step (hosted world cpu takes leave) (paramMoves func.params ++ code)) :=
    hosted_rightUnique single _
  have progress : ∀ ⦃c d⦄, Mirrors func.name pushed c d ∧ c.rest <:+ func.body →
      Steps (hosted world cpu takes leave) (paramMoves func.params ++ code) d ⟨.ret :: rest, last⟩ →
      (∃ next, Tac.Step world func.body c next) ∨ ∃ value, c.returned? = some value :=
    fun c d both run => both.1.progress world sound unique both.2 run
  have first : Mirrors func.name pushed ⟨func.body, start⟩ ⟨code, state⟩ := ⟨selects, holds⟩
  obtain ⟨c, d, reached, ⟨value, returned⟩, ⟨mirrors, -⟩, onward⟩ :=
    (selects.tracks sound allowed).back unique final_ret progress ⟨first, List.suffix_rfl⟩ run
  obtain ⟨others, there, arrives, rfl, kept⟩ := mirrors.returned returned
  cases final_ret.eq_of_reach (final_ret.reach unique onward arrives)
  exact ⟨c.memory, ⟨c.rest, reached, returned⟩, kept⟩

end Run

end IntC.Machine
