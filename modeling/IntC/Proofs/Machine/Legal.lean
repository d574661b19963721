import IntC.Machine.Legal
import IntC.Proofs.Machine.Frame
import IntC.Proofs.Machine.Run
import IntC.Proofs.Run

namespace IntC.Machine

variable {s t : State} {instr : Instr} {code : List Instr} {c d : Config}

/-- Two states that differ at most in the scratch registers. -/
structure Agree (s t : State) : Prop where
  regs : ∀ reg, reg ≠ .r10 → reg ≠ .r11 → s.regs reg = t.regs reg
  pseudos : s.pseudos = t.pseudos
  slots : s.slots = t.slots
  data : s.data = t.data
  flags : s.flags = t.flags
  pushed : s.pushed = t.pushed
  calls : s.calls = t.calls

namespace Agree

variable {s t : State}

theorem refl (s : State) : Agree s s := ⟨fun _ _ _ => rfl, rfl, rfl, rfl, rfl, rfl, rfl⟩

theorem visible (agree : Agree s t) : s.visible = t.visible := by
  have regs : s.visible.regs = t.visible.regs := by
    funext reg
    simp only [State.visible]
    split
    · rfl
    · rename_i other
      rw [not_or] at other
      exact agree.regs reg other.1 other.2
  exact State.ext regs agree.pseudos agree.slots agree.data agree.flags agree.pushed agree.calls

theorem setReg (agree : Agree s t) (reg : Reg) (value : Word) : Agree (s.setReg reg value) (t.setReg reg value) :=
  { agree with
    regs := by
      intro other notR10 notR11
      simp only [State.setReg, Function.update_apply]
      split
      · rfl
      · exact agree.regs other notR10 notR11 }

theorem scratch (agree : Agree s t) {reg : Reg} (free : reg = .r10 ∨ reg = .r11) (value : Word) :
    Agree s (t.setReg reg value) :=
  { agree with
    regs := by
      intro other notR10 notR11
      have different : other ≠ reg := by
        rintro rfl
        exact free.elim notR10 notR11
      rw [State.setReg_other t value different]
      exact agree.regs other notR10 notR11 }

theorem setFlags (agree : Agree s t) (flags : Flags) : Agree { s with flags := flags } { t with flags := flags } :=
  { agree with flags := rfl }

theorem setPushed (agree : Agree s t) (pushed : List (Option Word)) :
    Agree { s with pushed := pushed } { t with pushed := pushed } :=
  { agree with pushed := rfl }

theorem read (agree : Agree s t) {op : Operand} (free : op.isScratch = false) : op.read s = op.read t := by
  cases op with
  | reg r =>
    simp only [Operand.isScratch, Bool.or_eq_false_iff, decide_eq_false_iff_not] at free
    rw [Operand.read_reg, Operand.read_reg, agree.regs r free.1 free.2]
  | _ => simp only [Operand.read, agree.pseudos, agree.slots, agree.data]

theorem write (agree : Agree s t) (op : Operand) (value : Word) :
    Option.Rel Agree (op.write s value) (op.write t value) := by
  cases op with
  | reg r => exact .some (agree.setReg r value)
  | pseudo name => exact .some { agree with pseudos := by rw [agree.pseudos] }
  | stack offset => exact .some { agree with slots := by rw [agree.slots] }
  | data name => exact .some { agree with data := by rw [agree.data] }
  | imm | absent => exact .none

theorem dividend (agree : Agree s t) : s.dividend = t.dividend := by
  unfold State.dividend
  rw [agree.regs .ax (by decide) (by decide), agree.regs .dx (by decide) (by decide)]

end Agree

theorem rel_bind {α : Type} {r : State → State → Prop} {value : Option α} {f g : α → Option State}
    (each : ∀ a, Option.Rel r (f a) (g a)) : Option.Rel r (value.bind f) (value.bind g) := by
  cases value with
  | none => exact .none
  | some a => exact each a

theorem Agree.effect (agree : Agree s t) (cpu : Processor) (free : ∀ op ∈ instr.operands, op.isScratch = false) :
    Option.Rel Agree (instr.effect cpu s) (instr.effect cpu t) := by
  cases instr with
  | mov source dest =>
    simp only [Instr.effect, agree.read (free source (by simp [Instr.operands]))]
    exact rel_bind fun value => agree.write dest value
  | unary op dest =>
    simp only [Instr.effect, agree.read (free dest (by simp [Instr.operands])), agree.flags]
    exact rel_bind fun value => (agree.setFlags _).write dest _
  | binary op source dest =>
    simp only [Instr.effect, agree.read (free source (by simp [Instr.operands])),
      agree.read (free dest (by simp [Instr.operands])), agree.flags]
    exact rel_bind fun b => rel_bind fun a => (agree.setFlags _).write dest _
  | cmp source dest =>
    simp only [Instr.effect, agree.read (free source (by simp [Instr.operands])),
      agree.read (free dest (by simp [Instr.operands]))]
    exact rel_bind fun b => rel_bind fun a => .some (agree.setFlags _)
  | cdq =>
    simp only [Instr.effect, agree.regs .ax (by decide) (by decide)]
    exact .some (agree.setReg ..)
  | idiv source =>
    simp only [Instr.effect, agree.read (free source (by simp [Instr.operands])), agree.dividend, agree.flags]
    refine rel_bind fun divisor => ?_
    split
    · exact .some (((agree.setFlags _).setReg ..).setReg ..)
    · exact .none
  | setCC cc dest =>
    simp only [Instr.effect, agree.read (free dest (by simp [Instr.operands])), agree.flags]
    exact rel_bind fun value => agree.write dest _
  | label => exact .some agree
  | allocate | deallocate =>
    simp only [Instr.effect, agree.pushed]
    exact .some (agree.setPushed _)
  | push source =>
    simp only [Instr.effect, agree.read (free source (by simp [Instr.operands])), agree.pushed]
    exact rel_bind fun value => .some (agree.setPushed _)
  | jmp | jmpCC | call | ret => exact .none

theorem effects_staged (cpu : Processor) (source : Operand) (reg : Reg) (rest : List Instr) (state : State) :
    effects cpu (.mov source (.reg reg) :: rest) state =
      (source.read state).bind fun value => effects cpu rest (state.setReg reg value) := by
  cases read : source.read state <;> simp [effects, Instr.effect, Operand.write, read]

/-- An operand that is read for its value alone may be read from a scratch register instead. -/
theorem Agree.staged (agree : Agree s t) {cpu : Processor} (make : Operand → Instr) (act : State → Word → Option State)
    {source : Operand} {reg : Reg} (scratchReg : reg = .r10 ∨ reg = .r11)
    (byValue : ∀ op state, (make op).effect cpu state = (op.read state).bind (act state))
    (free : ∀ op ∈ (make source).operands, op.isScratch = false) (freeSource : source.isScratch = false) :
    Option.Rel Agree ((make source).effect cpu s) (effects cpu [.mov source (.reg reg), make (.reg reg)] t) := by
  have same := agree.read freeSource
  rw [effects_staged]
  cases read : source.read t with
  | none =>
    rw [byValue, same, read]
    exact .none
  | some value =>
    have scratch := agree.scratch scratchReg value
    have held : source.read (t.setReg reg value) = (Operand.reg reg).read (t.setReg reg value) := by
      rw [← scratch.read freeSource, same, read, Operand.read_reg, State.setReg_same]
    rw [Option.bind_some, effects_singleton, byValue (.reg reg), ← held, ← byValue]
    exact scratch.effect cpu free

/-- A product is formed in a scratch register and moved to its place afterwards. -/
theorem Agree.product (agree : Agree s t) (cpu : Processor) {source dest : Operand}
    (freeSource : source.isScratch = false) (freeDest : dest.isScratch = false) :
    Option.Rel Agree ((Instr.binary .mult source dest).effect cpu s) (effects cpu
      [.mov dest (.reg .r11), .binary .mult source (.reg .r11), .mov (.reg .r11) dest] t) := by
  have sameSource := agree.read freeSource
  have sameDest := agree.read freeDest
  rw [effects_staged]
  cases readDest : dest.read t with
  | none =>
    have stops : (Instr.binary .mult source dest).effect cpu s = none := by
      cases source.read s <;> simp [Instr.effect, sameDest, readDest]
    rw [stops]
    exact .none
  | some a =>
    have scratch := agree.scratch (Or.inr rfl : Reg.r11 = .r10 ∨ Reg.r11 = .r11) a
    have stillSource : source.read (t.setReg .r11 a) = source.read t := by
      rw [← scratch.read freeSource, sameSource]
    have held : (Operand.reg .r11).read (t.setReg .r11 a) = some a := by simp
    cases readSource : source.read t with
    | none =>
      have stops : (Instr.binary .mult source dest).effect cpu s = none := by
        simp [Instr.effect, sameSource, readSource]
      have stopsToo : (Instr.binary .mult source (.reg .r11)).effect cpu (t.setReg .r11 a) = none := by
        simp [Instr.effect, stillSource, readSource]
      rw [stops, Option.bind_some, effects, stopsToo]
      exact .none
    | some b =>
      rw [effect_binary (sameSource.trans readSource) (sameDest.trans readDest), Option.bind_some, effects,
        effect_binary (stillSource.trans readSource) held, Operand.write_reg, Option.bind_some, effects_singleton,
        effect_mov (Operand.read_reg ..), State.setReg_same, ← scratch.flags]
      exact ((scratch.setFlags _).scratch (Or.inr rfl) _).write dest _

/-- The encodable instructions stop the machine where the instruction itself does, and else lead to a
state that agrees with the one it leads to. -/
theorem Agree.encodable (agree : Agree s t) (cpu : Processor) (free : ∀ op ∈ instr.operands, op.isScratch = false) :
    Option.Rel Agree (instr.effect cpu s) (effects cpu instr.encodable t) := by
  have unchanged : Option.Rel Agree (instr.effect cpu s) (effects cpu [instr] t) := by
    rw [effects_singleton]
    exact agree.effect cpu free
  cases instr with
  | mov source dest =>
    simp only [Instr.encodable]
    split
    · exact agree.staged (.mov · dest) (fun state value => dest.write state value) (Or.inl rfl)
        (fun _ _ => rfl) free (free source (by simp [Instr.operands]))
    · exact unchanged
  | idiv source =>
    simp only [Instr.encodable]
    split
    · exact agree.staged .idiv _ (Or.inl rfl) (fun _ _ => rfl) free (free source (by simp [Instr.operands]))
    · exact unchanged
  | binary op source dest =>
    have freeSource := free source (by simp [Instr.operands])
    cases op with
    | mult => exact agree.product cpu freeSource (free dest (by simp [Instr.operands]))
    | add | sub =>
      simp only [Instr.encodable]
      split
      · exact agree.staged (.binary _ · dest) _ (Or.inl rfl) (fun _ _ => rfl) free freeSource
      · exact unchanged
  | cmp source dest =>
    simp only [Instr.encodable]
    split
    · exact agree.staged (.cmp · dest) _ (Or.inl rfl) (fun _ _ => rfl) free (free source (by simp [Instr.operands]))
    · split
      · refine agree.staged (.cmp source) (fun state a => (source.read state).bind fun b =>
          some { state with flags := .compare a b }) (Or.inr rfl) ?_ free (free dest (by simp [Instr.operands]))
        intro op state
        exact Option.bind_comm ..
      · exact unchanged
  | _ => exact unchanged

/-- The encodable code that does the work of a whole list of instructions. -/
def legalized (code : List Instr) : List Instr := code.flatMap Instr.encodable

@[simp] theorem legalized_cons (instr : Instr) (rest : List Instr) :
    legalized (instr :: rest) = instr.encodable ++ legalized rest := List.flatMap_cons ..

/-- Whether an instruction only computes and hands control on. -/
def Instr.computes : Instr → Bool
  | .mov .. | .binary .. | .cmp .. | .idiv _ => true
  | _ => false

/-- An instruction that is replaced is replaced by instructions that only compute. -/
theorem encodable_cases (instr : Instr) : instr.encodable = [instr] ∨
    instr.encodable ≠ [] ∧ ∀ part ∈ instr.encodable, part.computes = true := by
  cases instr with
  | mov | idiv | cmp => right; simp only [Instr.encodable]; split_ifs <;> simp [Instr.computes]
  | binary op =>
    right
    cases op with
    | mult => simp [Instr.encodable, Instr.computes]
    | add | sub => simp only [Instr.encodable]; split_ifs <;> simp [Instr.computes]
  | _ => exact Or.inl rfl

theorem encodable_ne_nil (instr : Instr) : instr.encodable ≠ [] := by
  rcases encodable_cases instr with same | parts
  · rw [same]
    exact List.cons_ne_nil _ _
  · exact parts.1

theorem seek_legalized (target : String) (code : List Instr) :
    seek target (legalized code) = (seek target code).map legalized := by
  induction code with
  | nil => rfl
  | cons instr rest ih =>
    rcases encodable_cases instr with same | ⟨-, parts⟩
    · rw [legalized_cons, same, List.singleton_append]
      by_cases here : instr = .label target
      · rw [here, seek_cons_self, seek_cons_self, Option.map_some]
      · rw [seek_cons_of_ne here, seek_cons_of_ne here, ih]
    · have plain : ∀ name, Instr.label name ∉ instr.encodable := fun name member => by
        cases parts _ member
      rw [legalized_cons, seek_append_of_plain plain, ih, seek_cons_of_ne]
      rintro rfl
      exact plain target (List.mem_singleton_self _)

/-- A point of a run and the point of the encodable code that stands for it. -/
structure Boundary (c d : Config) : Prop where
  rest : d.rest = legalized c.rest
  state : Agree c.state d.state

theorem Boundary.step {env : Environment} {next : Config} (boundary : Boundary c d)
    (settled : ∀ instr ∈ c.rest, instr.isSettled = true) (step : Step env code c next) :
    ∃ after, Steps env (legalized code) d after ∧ Boundary next after := by
  obtain ⟨rest, state⟩ := d
  obtain ⟨rfl, agree⟩ := boundary
  cases step with
  | @effect instr rest before after run =>
    have matched := agree.encodable env.cpu (isSettled_free (settled instr List.mem_cons_self))
    rw [run] at matched
    cases reached : effects env.cpu instr.encodable state with
    | none => rw [reached] at matched; cases matched
    | some last =>
      rw [reached] at matched
      cases matched with
      | some still => exact ⟨⟨legalized rest, last⟩, Steps.effects reached, rfl, still⟩
  | @jmp target rest before next found =>
    have there : seek target (legalized code) = some (legalized next) := by rw [seek_legalized, found, Option.map_some]
    exact ⟨⟨legalized next, state⟩, .single (.jmp there), rfl, agree⟩
  | @taken cc target rest before next holds found =>
    have there : seek target (legalized code) = some (legalized next) := by rw [seek_legalized, found, Option.map_some]
    exact ⟨⟨legalized next, state⟩, .single (.taken (agree.flags ▸ holds) there), rfl, agree⟩
  | @passed cc target rest before fails =>
    exact ⟨⟨legalized rest, state⟩, .single (.passed (agree.flags ▸ fails)), rfl, agree⟩
  | @call name rest before after answer =>
    exact ⟨⟨legalized rest, after⟩, .single (.call (agree.visible ▸ answer)), rfl, .refl after⟩

/-- A point of the encodable code at which the work of the next instruction of `c` is under way: so many
of the instructions that do it are behind the point, and none is if it stands for `c` itself. -/
structure Working (cpu : Processor) (c : Config) (done : Nat) (d : Config) : Prop where
  rest : d.rest = (legalized c.rest).drop done
  state : ∃ first, Agree c.state first ∧ effects cpu ((legalized c.rest).take done) first = some d.state
  unfinished : done = 0 ∨ ∃ instr rest, c.rest = instr :: rest ∧ done < instr.encodable.length

theorem Boundary.working {cpu : Processor} (boundary : Boundary c d) : Working cpu c 0 d :=
  ⟨boundary.rest, ⟨d.state, boundary.state, rfl⟩, Or.inl rfl⟩

theorem eq_of_not_computes {part : Instr} (member : part ∈ instr.encodable) (other : part.computes = false) :
    instr = part ∧ instr.encodable = [part] := by
  rcases encodable_cases instr with same | ⟨-, parts⟩
  · rw [same, List.mem_singleton] at member
    exact ⟨member.symm, member ▸ same⟩
  · rw [parts part member] at other
    cases other

theorem exists_seek_of_legalized {target : String} {next : List Instr}
    (found : seek target (legalized code) = some next) :
    ∃ rest, seek target code = some rest ∧ next = legalized rest := by
  rw [seek_legalized, Option.map_eq_some_iff] at found
  obtain ⟨rest, there, same⟩ := found
  exact ⟨rest, there, same.symm⟩

/-- A step of the encodable code goes on with the work of an instruction, or it finishes that work, and
then the instruction itself makes a step to the same point. -/
theorem Working.step {env : Environment} {after : Config} {done : Nat} (working : Working env.cpu c done d)
    (settled : ∀ instr ∈ c.rest, instr.isSettled = true) (step : Step env (legalized code) d after) :
    Working env.cpu c (done + 1) after ∨ ∃ next, Step env code c next ∧ Boundary next after := by
  obtain ⟨whole, state⟩ := c
  obtain ⟨drest, dstate⟩ := d
  obtain ⟨place, ⟨first, agree, soFar⟩, unfinished⟩ := working
  simp only at place agree soFar unfinished settled
  cases whole with
  | nil =>
    rw [show legalized [] = [] from rfl, List.drop_nil] at place
    subst place
    cases step
  | cons instr rest =>
    have bound : done < instr.encodable.length := by
      rcases unfinished with zero | ⟨_, _, same, bound⟩
      · rw [zero]
        exact List.length_pos_of_ne_nil (encodable_ne_nil instr)
      · cases same
        exact bound
    have member : instr.encodable[done] ∈ instr.encodable := List.getElem_mem bound
    rw [legalized_cons, List.drop_append_of_le_length bound.le, List.drop_eq_getElem_cons bound,
      List.cons_append] at place
    rw [legalized_cons, List.take_append_of_le_length bound.le] at soFar
    -- A jump, a call or a return is at work alone: nothing of it is behind the point.
    have alone : instr.encodable[done].computes = false →
        instr = instr.encodable[done] ∧ dstate = first ∧ instr.encodable.drop (done + 1) = [] := by
      intro other
      obtain ⟨same, single⟩ := eq_of_not_computes member other
      have length : instr.encodable.length = 1 := by rw [single, List.length_singleton]
      have zero : done = 0 := by omega
      subst zero
      rw [List.take_zero] at soFar
      exact ⟨same, (Option.some.inj soFar).symm, List.drop_eq_nil_of_le (by omega)⟩
    subst place
    generalize part : instr.encodable[done] = head at step alone member
    cases step with
    | @effect _ _ _ last run =>
      have more : effects env.cpu (instr.encodable.take (done + 1)) first = some last := by
        rw [List.take_succ_eq_append_getElem bound, effects_append, soFar, Option.bind_some, effects_singleton, part]
        exact run
      by_cases finished : done + 1 < instr.encodable.length
      · left
        refine ⟨?_, ⟨first, agree, ?_⟩, Or.inr ⟨instr, rest, rfl, finished⟩⟩
        · rw [legalized_cons, List.drop_append_of_le_length finished.le]
        · rw [legalized_cons, List.take_append_of_le_length finished.le]
          exact more
      · right
        have matched := agree.encodable env.cpu (isSettled_free (settled instr List.mem_cons_self))
        rw [List.take_of_length_le (by omega)] at more
        rw [more] at matched
        cases result : instr.effect env.cpu state with
        | none => rw [result] at matched; cases matched
        | some reached =>
          rw [result] at matched
          cases matched with
          | some still =>
            refine ⟨⟨rest, reached⟩, .effect result, ?_, still⟩
            rw [List.drop_eq_nil_of_le (by omega), List.nil_append]
    | jmp found =>
      obtain ⟨rfl, rfl, _⟩ := alone rfl
      obtain ⟨next, there, same⟩ := exists_seek_of_legalized found
      exact Or.inr ⟨⟨next, state⟩, .jmp there, same, agree⟩
    | taken holds found =>
      obtain ⟨rfl, rfl, _⟩ := alone rfl
      obtain ⟨next, there, same⟩ := exists_seek_of_legalized found
      exact Or.inr ⟨⟨next, state⟩, .taken (agree.flags ▸ holds) there, same, agree⟩
    | passed fails =>
      obtain ⟨rfl, rfl, done⟩ := alone rfl
      exact Or.inr ⟨⟨rest, state⟩, .passed (agree.flags ▸ fails), by rw [done, List.nil_append], agree⟩
    | @call _ _ _ last answer =>
      obtain ⟨rfl, rfl, done⟩ := alone rfl
      exact Or.inr ⟨⟨rest, last⟩, .call (agree.visible ▸ answer), by rw [done, List.nil_append], .refl last⟩

end IntC.Machine
