import IntC.Proofs.Il.Lawful
import IntC.Proofs.Il.Run

namespace IntC.Qbe

open Tac (Value)

variable {value : Word} {operand : Il.Operand} {result : Il.Result} {dest : String} {state : Il.State}

/-- A running function and what it has become have the same values: those of static variables in memory, and those of
other variables in temporaries. -/
structure Mirrors (table : SymbolTable) (memory : Memory) (state : Il.State) : Prop where
  calls : state.memory.calls = memory.calls
  static : ∀ name, table.isStatic name = true → state.memory.store name = memory.store name
  plain : ∀ name, table.isStatic name = false → isDotted name = false → state.temps name = memory.store name

/-- No temporary has another value than before, apart from those with numbers given out since. -/
def Keeps (count : Nat) (before after : Store) : Prop :=
  ∀ name, (∀ number, name = tempName number → number ≤ count) → after name = before name

section Frame
variable {count : Nat} {before middle after : Store}

theorem Keeps.refl : Keeps count before before := fun _ _ => rfl

theorem Keeps.trans {later : Nat} (le : count ≤ later) (first : Keeps count before middle)
    (second : Keeps later middle after) : Keeps count before after := by
  intro name old
  have stillOld : ∀ number, name = tempName number → number ≤ later := fun number same =>
    Nat.le_trans (old number same) le
  rw [second name stillOld, first name old]

theorem Keeps.update (value : Word) : Keeps count before (Function.update before (tempName (count + 1)) value) := by
  intro name old
  refine Function.update_of_ne ?_ ..
  rintro rfl
  have bound := old (count + 1) rfl
  omega

theorem Keeps.of_plain (keeps : Keeps count before after) {name : String} (plain : isDotted name = false) :
    after name = before name := by
  refine keeps name fun number same => ?_
  rw [same, isDotted_tempName] at plain
  cases plain

theorem Mirrors.keeps {table : SymbolTable} {memory values : Memory} (mirrors : Mirrors table values ⟨before, memory⟩)
    (keeps : Keeps count before after) : Mirrors table values ⟨after, memory⟩ where
  calls := mirrors.calls
  static := mirrors.static
  plain name automatic undotted := (keeps.of_plain undotted).trans (mirrors.plain name automatic undotted)

end Frame

section Run
variable {table : SymbolTable} {world : World} {body : List Il.Instr} {count last : Nat} {code : List Il.Instr}
  {memory : Memory} {state : Il.State}

theorem Loads.run {value : Value} {a : Word} (loads : Loads table count value code operand last)
    (plain : ∀ name, value = .var name → isDotted name = false) (mirrors : Mirrors table memory state)
    (read : value.read memory.store = some a) (rest : List Il.Instr) :
    ∃ temps, Il.Steps world body ⟨code ++ rest, state⟩ ⟨rest, temps, state.memory⟩ ∧ operand.read temps = a ∧
      Keeps count state.temps temps := by
  cases loads with
  | const value => exact ⟨state.temps, .refl, Option.some.inj read, .refl⟩
  | @plain name notStatic =>
    refine ⟨state.temps, .refl, ?_, .refl⟩
    exact (mirrors.plain name notStatic (plain name rfl)).trans (Option.some.inj read)
  | @static name static =>
    refine ⟨_, .single rfl, ?_, .update _⟩
    exact (Function.update_self ..).trans ((mirrors.static name static).trans (Option.some.inj read))

theorem Loads.keeps {value : Value} {temps after : Store} (loads : Loads table count value code operand last)
    (plain : ∀ name, value = .var name → isDotted name = false) (keeps : Keeps last temps after) :
    operand.read after = operand.read temps := by
  cases loads with
  | const value => rfl
  | plain => exact keeps.of_plain (plain _ rfl)
  | static =>
    refine keeps _ fun number same => ?_
    rw [tempName_inj same]

theorem LoadsAll.run {values : List Value} {operands : List Il.Operand} {args : List Word}
    (loads : LoadsAll table count values code operands last) (plain : ∀ name, .var name ∈ values → isDotted name = false)
    (mirrors : Mirrors table memory state)
    (reads : List.Forall₂ (fun a value => Value.read memory.store value = some a) args values) (rest : List Il.Instr) :
    ∃ temps, Il.Steps world body ⟨code ++ rest, state⟩ ⟨rest, temps, state.memory⟩ ∧
      operands.map (Il.Operand.read temps) = args ∧ Keeps count state.temps temps := by
  induction loads generalizing state args with
  | nil =>
    cases reads
    exact ⟨state.temps, .refl, rfl, .refl⟩
  | cons first _ ih =>
    obtain - | ⟨read, reads⟩ := reads
    have here := fun name same => plain name (List.mem_cons.mpr (Or.inl (Eq.symm same)))
    rw [List.append_assoc]
    obtain ⟨temps, goes, value, keeps⟩ := first.run here mirrors read _
    obtain ⟨after, goesOn, others, keepsToo⟩ :=
      ih (fun name member => plain name (List.mem_cons_of_mem _ member)) (mirrors.keeps keeps) reads
    refine ⟨after, goes.trans goesOn, ?_, keeps.trans first.straight.2 keepsToo⟩
    rw [List.map_cons, others, first.keeps here keepsToo, value]

theorem Loads.branch {cond : Value} {a : Word} {next : List Il.Instr}
    (loads : Loads table count cond code operand last) (plain : ∀ name, cond = .var name → isDotted name = false)
    (mirrors : Mirrors table memory state) (read : cond.read memory.store = some a) (yes no : String)
    (found : Il.seek (if a = 0 then no else yes) body = some next) (rest : List Il.Instr) :
    ∃ temps, Il.Steps world body ⟨code ++ .branch operand yes no :: rest, state⟩ ⟨next, temps, state.memory⟩ ∧
      Keeps count state.temps temps := by
  obtain ⟨temps, goes, rfl, keeps⟩ := loads.run plain mirrors read (.branch operand yes no :: rest)
  refine ⟨temps, goes.tail ?_, keeps⟩
  rw [Il.step, found]
  rfl

theorem apply_operationOp (op : Tac.BinaryOp) (a b : Word) : (operationOp op).apply a b = op.apply a b := by
  cases op <;> rfl

theorem eval_unaryOperation (op : Tac.UnaryOp) (source : Il.Operand) (state : Il.State) :
    (unaryOperation source op).eval world state = some (op.apply (source.read state.temps), state.memory) := by
  cases op with
  | negate | not => rfl
  | complement =>
    have ones : ∀ a : Word, a ^^^ BitVec.ofInt 32 (-1) = ~~~a := fun a => BitVec.xor_allOnes
    exact congrArg (fun a => some (a, state.memory)) (ones _)

theorem Mirrors.call (mirrors : Mirrors table memory state) (agree : world.static = table.isStatic) (callee : String)
    (args : List Word) : (world.call callee args state.memory).1 = (world.call callee args memory).1 ∧
      Mirrors table (world.call callee args memory).2 ⟨state.temps, (world.call callee args state.memory).2⟩ := by
  have seen : world.seen state.memory.store = world.seen memory.store := by
    funext name
    unfold World.seen
    split
    · rename_i static
      rw [agree] at static
      exact mirrors.static name static
    · rfl
  unfold World.call
  rw [seen]
  refine ⟨rfl, ⟨congrArg (· ++ _) mirrors.calls, fun name static => ?_, fun name notStatic plain => ?_⟩⟩
  · dsimp only
    rw [agree, if_pos static, if_pos static]
  · dsimp only
    rw [agree, if_neg (by simp [notStatic])]
    exact mirrors.plain name notStatic plain

theorem Results.dest_mem {instr : Tac.Instr} (results : Results table count instr code result dest last) :
    .var dest ∈ instr.values := by
  cases results <;> simp [Tac.Instr.values]

/-- Where an instruction has a result, what it becomes has the same one. -/
theorem Results.run {instr : Tac.Instr} {before rest : List Tac.Instr} {after : Tac.Config}
    (results : Results table count instr code result dest last) (agree : world.static = table.isStatic)
    (plain : ∀ name, .var name ∈ instr.values → isDotted name = false) (mirrors : Mirrors table memory state)
    (move : Tac.Step world before ⟨instr :: rest, memory⟩ after) (more : List Il.Instr) :
    ∃ temps value made final, after = ⟨rest, made.set dest value⟩ ∧
      Il.Steps world body ⟨code ++ more, state⟩ ⟨more, temps, state.memory⟩ ∧
      result.eval world ⟨temps, state.memory⟩ = some (value, final) ∧ Mirrors table made ⟨temps, final⟩ := by
  cases results with
  | copy dest loads =>
    obtain ⟨read⟩ := move
    obtain ⟨temps, goes, rfl, keeps⟩ :=
      loads.run (fun name same => plain name (by simp [Tac.Instr.values, same])) mirrors read more
    exact ⟨temps, _, memory, state.memory, rfl, goes, rfl, mirrors.keeps keeps⟩
  | unary op dest loads =>
    obtain - | ⟨read⟩ := move
    obtain ⟨temps, goes, rfl, keeps⟩ :=
      loads.run (fun name same => plain name (by simp [Tac.Instr.values, same])) mirrors read more
    exact ⟨temps, _, memory, state.memory, rfl, goes, eval_unaryOperation op _ _, mirrors.keeps keeps⟩
  | @binary left right _ _ _ _ _ _ op dest first second =>
    obtain - | - | ⟨readL, readR, applied⟩ := move
    have plainL : ∀ name, left = .var name → isDotted name = false :=
      fun name same => plain name (by simp [Tac.Instr.values, same])
    have plainR : ∀ name, right = .var name → isDotted name = false :=
      fun name same => plain name (by simp [Tac.Instr.values, same])
    rw [List.append_assoc]
    obtain ⟨temps, goes, rfl, keeps⟩ := first.run plainL mirrors readL _
    obtain ⟨after, goesOn, rfl, keepsToo⟩ := second.run plainR (mirrors.keeps keeps) readR more
    refine ⟨after, _, memory, state.memory, rfl, goes.trans goesOn, ?_, (mirrors.keeps keeps).keeps keepsToo⟩
    rw [Il.Result.eval, apply_operationOp, first.keeps plainL keepsToo, applied]
    rfl
  | @call _ _ operands _ callee dest loads =>
    obtain - | - | - | ⟨reads, answered⟩ := move
    obtain ⟨temps, goes, rfl, keeps⟩ :=
      loads.run (fun name member => plain name (by simp [Tac.Instr.values, member])) mirrors reads more
    obtain ⟨same, mirrored⟩ := (mirrors.keeps keeps).call agree callee (operands.map (Il.Operand.read temps))
    rw [answered] at same mirrored
    refine ⟨temps, _, _, _, rfl, goes, ?_, mirrored⟩
    exact congrArg some (Prod.ext same rfl)

/-- A result that is put into a variable is its value from then on. -/
theorem Stores.run {made final : Memory} (stores : Stores table count dest result code last)
    (plain : isDotted dest = false) (eval : result.eval world state = some (value, final))
    (mirrors : Mirrors table made ⟨state.temps, final⟩) (more : List Il.Instr) :
    ∃ next, Il.Steps world body ⟨code ++ more, state⟩ ⟨more, next⟩ ∧ Mirrors table (made.set dest value) next := by
  have assigned : ∀ temp rest, Il.step world body ⟨.assign temp result :: rest, state⟩ =
      some ⟨rest, Function.update state.temps temp value, final⟩ := by
    intro temp rest
    rw [Il.step, eval]
    rfl
  cases stores with
  | plain notStatic =>
    refine ⟨_, .single (assigned _ _), ⟨mirrors.calls, fun name static => ?_, fun name automatic undotted => ?_⟩⟩
    · have other : name ≠ dest := by
        rintro rfl
        rw [notStatic] at static
        cases static
      rw [Memory.set_other _ _ other]
      exact mirrors.static name static
    · by_cases same : name = dest
      · subst same
        rw [Memory.set_same]
        exact Function.update_self ..
      · rw [Memory.set_other _ _ same]
        exact (Function.update_of_ne same ..).trans (mirrors.plain name automatic undotted)
  | static static =>
    refine ⟨_, .tail (.single (assigned _ _)) rfl, ⟨mirrors.calls, fun name static => ?_, fun name automatic undotted => ?_⟩⟩
    · dsimp only [Il.Operand.read]
      rw [Function.update_self]
      by_cases same : name = dest
      · subst same
        rw [Memory.set_same, Memory.set_same]
      · rw [Memory.set_other _ _ same, Memory.set_other _ _ same]
        exact mirrors.static name static
    · have other : name ≠ dest := by
        rintro rfl
        rw [static] at automatic
        cases automatic
      have apart : name ≠ tempName (count + 1) := by
        rintro rfl
        rw [isDotted_tempName] at undotted
        cases undotted
      rw [Memory.set_other _ _ other]
      exact (Function.update_of_ne apart ..).trans (mirrors.plain name automatic undotted)

end Run

/-- Code and what it becomes, as far as jumps go: they lead to places that correspond to each other. -/
structure Renders (table : SymbolTable) (body : List Tac.Instr) (il : List Il.Instr) : Prop where
  seeks : ∀ {target next}, Tac.seek target body = some next →
    ∃ more count after, Il.seek target il = some more ∧ BecomesAll table ⟨count, false⟩ next more after
  distinct : (Il.blocks il).Nodup
  plain : ∀ instr ∈ body, ∀ name, .var name ∈ instr.values → isDotted name = false

/-- Two points of runs where the same is left to do, with the same values. -/
structure Meet (table : SymbolTable) (body : List Tac.Instr) (il : List Il.Instr) (here : Tac.Config)
    (there : Il.Config) : Prop where
  becomes : ∃ count after, BecomesAll table ⟨count, false⟩ here.rest there.rest after
  inside : here.rest <:+ body
  insideToo : there.rest <:+ il
  mirrors : Mirrors table here.memory there.state

section Simulation
variable {table : SymbolTable} {world : World} {body : List Tac.Instr} {il : List Il.Instr} {here next : Tac.Config}
  {there : Il.Config}

theorem BecomesAll.exists_seek {target : String} {next : List Tac.Instr} {code : List Il.Instr} {state after : Writing}
    (becomes : BecomesAll table state body code after) (plain : isDotted target = false)
    (found : Tac.seek target body = some next) :
    ∃ more count, Il.seek target code = some more ∧ BecomesAll table ⟨count, false⟩ next more after := by
  induction becomes with
  | nil => cases found
  | @cons _ _ _ instr rest code more first others ih =>
    -- The blocks that an instruction opens have numbers, so that none of them is looked for.
    have other : instr.label? ≠ some target → target ∉ Il.blocks code := by
      intro other member
      rcases first.marks.1.label_or_dotted member with label | dotted
      · exact other (Option.mem_toList.mp label)
      · rw [plain] at dotted
        cases dotted
    cases instr with
    | label name =>
      rw [Tac.seek] at found
      split at found
      · rename_i same
        cases Option.some.inj found
        cases first with
        | label =>
          refine ⟨more, _, ?_, others⟩
          rw [List.singleton_append, Il.seek, if_pos same]
        | inside _ continues =>
          cases continues with
          | assign results => cases results
      · rename_i different
        rw [Il.seek_append_of_not_mem (other fun same => different (Option.some.inj same))]
        exact ih found
    | _ =>
      rw [Il.seek_append_of_not_mem (other (Option.some_ne_none _).symm)]
      exact ih found

theorem Renders.jump (renders : Renders table body il) {target : String} {rest : List Tac.Instr} {memory : Memory}
    (found : Tac.seek target body = some rest) (mirrors : Mirrors table memory state) :
    ∃ more, Il.seek target il = some more ∧ Meet table body il ⟨rest, memory⟩ ⟨more, state⟩ := by
  obtain ⟨more, count, after, foundToo, becomes⟩ := renders.seeks found
  exact ⟨more, foundToo, ⟨count, after, becomes⟩, Tac.seek_suffix found, Il.seek_suffix foundToo, mirrors⟩

theorem Meet.keeps {rest : List Il.Instr} {temps : Store} {count : Nat} (meet : Meet table body il here ⟨rest, state⟩)
    (keeps : Keeps count state.temps temps) :
    Meet table body il here ⟨rest, temps, state.memory⟩ where
  becomes := meet.becomes
  inside := meet.inside
  insideToo := meet.insideToo
  mirrors := meet.mirrors.keeps keeps

/-- Every step of code is made by what it becomes as well. -/
theorem Meet.step (meet : Meet table body il here there) (renders : Renders table body il)
    (agree : world.static = table.isStatic) (move : Tac.Step world body here next) :
    ∃ later, Il.Steps world il there later ∧ Meet table body il next later := by
  obtain ⟨rest, memory⟩ := here
  obtain ⟨code, state⟩ := there
  obtain ⟨⟨count, after, becomes⟩, inside, insideToo, mirrors⟩ := meet
  dsimp only at becomes inside insideToo mirrors
  obtain - | @⟨_, middle, _, instr, rest, code, more, first, others⟩ := becomes
  · cases move
  have behind : rest <:+ body := (List.suffix_cons ..).trans inside
  have behindToo : more <:+ il := (List.suffix_append ..).trans insideToo
  have plain := renders.plain instr (inside.subset List.mem_cons_self)
  cases first with
  | label name =>
    cases move
    exact ⟨_, .single rfl, ⟨_, _, others⟩, behind, behindToo, mirrors⟩
  | mention name =>
    cases move
    exact ⟨_, .refl, ⟨_, _, others⟩, behind, behindToo, mirrors⟩
  | inside opens continues =>
    cases opens
    rw [List.nil_append] at *
    cases continues with
    | ret => cases move
    | jump target =>
      obtain - | - | - | - | ⟨found⟩ := move
      obtain ⟨later, foundToo, meet⟩ := renders.jump found mirrors
      refine ⟨_, .single ?_, meet⟩
      rw [List.singleton_append, Il.step, foundToo]
      rfl
    | @jumpIfZero cond code operand last target loads =>
      have place : .block (blockName (last + 1)) :: more <:+ il :=
        List.IsSuffix.trans ⟨code ++ [.branch operand (blockName (last + 1)) target], by simp⟩ insideToo
      have plainToo : ∀ name, cond = .var name → isDotted name = false :=
        fun name same => plain name (by simp [Tac.Instr.values, same])
      rw [List.append_assoc]
      cases move with
      | zero read found =>
        obtain ⟨later, foundToo, meet⟩ := renders.jump found mirrors
        obtain ⟨temps, goes, keeps⟩ := loads.branch plainToo mirrors read (blockName (last + 1)) target foundToo _
        exact ⟨_, goes, meet.keeps keeps⟩
      | notZero read nonzero =>
        have next := Il.seek_of_suffix renders.distinct place
        obtain ⟨temps, goes, keeps⟩ := loads.branch plainToo mirrors read (blockName (last + 1)) target (by rwa [if_neg nonzero]) _
        exact ⟨_, goes, ⟨_, _, others⟩, behind, behindToo, mirrors.keeps keeps⟩
    | @jumpIfNotZero cond code operand last target loads =>
      have place : .block (blockName (last + 1)) :: more <:+ il :=
        List.IsSuffix.trans ⟨code ++ [.branch operand target (blockName (last + 1))], by simp⟩ insideToo
      have plainToo : ∀ name, cond = .var name → isDotted name = false :=
        fun name same => plain name (by simp [Tac.Instr.values, same])
      rw [List.append_assoc]
      cases move with
      | nonzero read nonzero found =>
        obtain ⟨later, foundToo, meet⟩ := renders.jump found mirrors
        obtain ⟨temps, goes, keeps⟩ := loads.branch plainToo mirrors read target (blockName (last + 1)) (by rwa [if_neg nonzero]) _
        exact ⟨_, goes, meet.keeps keeps⟩
      | notNonzero read =>
        have next := Il.seek_of_suffix renders.distinct place
        obtain ⟨temps, goes, keeps⟩ := loads.branch plainToo mirrors read target (blockName (last + 1)) next _
        exact ⟨_, goes, ⟨_, _, others⟩, behind, behindToo, mirrors.keeps keeps⟩
    | assign results stores =>
      rw [List.append_assoc]
      obtain ⟨temps, value, made, final, rfl, goes, eval, mirrored⟩ := results.run agree plain mirrors move _
      obtain ⟨state, goesOn, mirroredToo⟩ := stores.run (plain _ results.dest_mem) eval mirrored more
      exact ⟨_, goes.trans goesOn, ⟨_, _, others⟩, behind, behindToo, mirroredToo⟩

/-- A return of code is one of what it becomes, with the same value. -/
theorem Meet.returned (meet : Meet table body il here there) (renders : Renders table body il)
    (returned : here.returned? = some value) :
    ∃ rest state, Il.Steps world il there ⟨rest, state⟩ ∧ Il.Config.returned? ⟨rest, state⟩ = some value ∧
      Mirrors table here.memory state := by
  obtain ⟨rest, memory⟩ := here
  obtain ⟨code, state⟩ := there
  obtain ⟨⟨count, after, becomes⟩, inside, insideToo, mirrors⟩ := meet
  dsimp only at becomes inside insideToo mirrors
  obtain - | @⟨_, middle, _, instr, rest, code, more, first, others⟩ := becomes
  · cases returned
  have plain := renders.plain instr (inside.subset List.mem_cons_self)
  cases first with
  | label | mention => cases returned
  | inside opens continues =>
    cases opens
    cases continues with
    | ret loads =>
      rw [List.nil_append, List.append_assoc]
      obtain ⟨temps, goes, rfl, keeps⟩ :=
        loads.run (fun name same => plain name (by simp [Tac.Instr.values, same])) mirrors returned _
      exact ⟨_, _, goes, rfl, mirrors.keeps keeps⟩
    | assign results => cases results <;> cases returned
    | _ => cases returned

theorem Meet.steps (meet : Meet table body il here there) (renders : Renders table body il)
    (agree : world.static = table.isStatic) (run : Tac.Steps world body here next) :
    ∃ later, Il.Steps world il there later ∧ Meet table body il next later := by
  induction run with
  | refl => exact ⟨there, .refl, meet⟩
  | tail _ move ih =>
    obtain ⟨middle, goes, meets⟩ := ih
    obtain ⟨later, goesOn, meetsToo⟩ := meets.step renders agree move
    exact ⟨later, goes.trans goesOn, meetsToo⟩

end Simulation

section Func
variable {table : SymbolTable} {world : World} {func : Tac.Func} {il : Il.Func}

theorem FuncBecomes.renders (becomes : FuncBecomes table func il) (lawful : il.isLawful = true)
    (labels : ∀ name ∈ Tac.labels func.body, isDotted name = false ∧ name ≠ "start")
    (plain : ∀ instr ∈ func.body, ∀ name, .var name ∈ instr.values → isDotted name = false) :
    Renders table func.body il.body := by
  obtain ⟨count, code, after, all, rfl⟩ := becomes
  refine ⟨fun found => ?_, (of_decide_eq_true lawful).2.1, plain⟩
  rename_i target next
  obtain ⟨undotted, other⟩ := labels target (Tac.mem_labels.mpr ((Tac.label_suffix_of_seek found).subset List.mem_cons_self))
  obtain ⟨more, count, foundToo, becomes⟩ := all.exists_seek undotted found
  refine ⟨more, count, after, ?_, becomes⟩
  rw [Il.seek_append_of_not_mem, foundToo]
  rw [blocks_zeroed, List.mem_singleton]
  exact other

/-- Variables that are zero stay as they are when they are set to zero. -/
theorem zeros_steps {names : List String} (zero : ∀ name ∈ names, state.temps name = 0) (body rest : List Il.Instr) :
    Il.Steps world body ⟨zeros names ++ rest, state⟩ ⟨rest, state⟩ := by
  induction names with
  | nil => exact .refl
  | cons name names ih =>
    obtain ⟨here, later⟩ := List.forall_mem_cons.mp zero
    have same : Function.update state.temps name (BitVec.ofInt 32 0) = state.temps :=
      Function.update_eq_self_iff.mpr here.symm
    have set : Il.step world body ⟨zeros (name :: names) ++ rest, state⟩ = some ⟨zeros names ++ rest, state⟩ :=
      congrArg (fun temps => some (Il.Config.mk (zeros names ++ rest) ⟨temps, state.memory⟩)) same
    exact .head set (ih later)

/-- What a function returns, what it becomes returns as well, with the same calls and the same values of static
variables. -/
theorem FuncBecomes.returns {args : List Word} {statics : Store} {final : Memory} (becomes : FuncBecomes table func il)
    (renders : Renders table func.body il.body) (agree : world.static = table.isStatic)
    (returns : Tac.Returns world func.body
      ⟨fun name => if table.isStatic name then statics name else arguments func.params args name, []⟩ value final) :
    ∃ last, il.Returns world args statics value last ∧ Mirrors table final last := by
  obtain ⟨count, code, after, all, rfl⟩ := becomes
  obtain ⟨rest, run, returned⟩ := returns
  have zero : ∀ name ∈ written table func, arguments func.params args name = 0 := fun name member =>
    arguments_of_not_mem (exists_of_mem_written member).1 args
  have first : Il.Steps world (zeroed (written table func) ++ code)
      ⟨zeroed (written table func) ++ code, arguments func.params args, ⟨statics, []⟩⟩
      ⟨code, arguments func.params args, ⟨statics, []⟩⟩ := .head rfl (zeros_steps zero _ code)
  have start : Meet table func.body (zeroed (written table func) ++ code)
      ⟨func.body, fun name => if table.isStatic name then statics name else arguments func.params args name, []⟩
      ⟨code, arguments func.params args, ⟨statics, []⟩⟩ := by
    refine ⟨⟨count, after, all⟩, List.suffix_rfl, List.suffix_append .., rfl, fun name static => ?_, fun name automatic _ => ?_⟩
    · exact (if_pos static).symm
    · exact (if_neg (by simp [automatic])).symm
  obtain ⟨later, goes, meets⟩ := start.steps renders agree run
  obtain ⟨more, last, goesOn, same, mirrors⟩ := meets.returned renders returned
  exact ⟨last, ⟨more, (first.trans goes).trans goesOn, same⟩, mirrors⟩

end Func

end IntC.Qbe
