import IntC.Proofs.Tac.Lowering
import IntC.Proofs.Tree.Eval

namespace IntC

open Tac

variable {name : String} {world : World} {first' last' : Nat} {memory : Memory} {rest body : List Instr} {word : Word}
  {op : TokenKind}

/-- Two memories agree on the names from before the base, and on the calls made so far. -/
structure Agrees (base : Nat) (memory other : Memory) : Prop where
  store : ∀ name, Before base name → other.store name = memory.store name
  calls : other.calls = memory.calls

/-- Between two memories only names from before the base and names of the given range have changed. -/
def Kept (base first last : Nat) (memory after : Memory) : Prop :=
  ∀ name, ¬Before base name → ¬Minted first last name → after.store name = memory.store name

section Agrees
variable {base : Nat} {memory other : Memory}

theorem Agrees.set (agrees : Agrees base memory other) (name : String) (value : Word) :
    Agrees base (memory.set name value) (other.set name value) := by
  refine ⟨fun key before => ?_, agrees.calls⟩
  by_cases same : key = name
  · rw [same, Memory.set_same, Memory.set_same]
  · rw [Memory.set_other _ _ same, Memory.set_other _ _ same, agrees.store key before]

theorem Agrees.set_temp (agrees : Agrees base memory other) (value : Word) (fresh : ¬Before base name) :
    Agrees base memory (other.set name value) := by
  refine ⟨fun key before => ?_, agrees.calls⟩
  have different : key ≠ name := fun same => fresh (same ▸ before)
  rw [Memory.set_other _ _ different, agrees.store key before]

theorem Agrees.call (agrees : Agrees base memory other) (old : ∀ name, world.static name = true → Before base name)
    (callee : String) (args : List Word) :
    (world.call callee args other).1 = (world.call callee args memory).1 ∧
      Agrees base (world.call callee args memory).2 (world.call callee args other).2 := by
  have seen : world.seen other.store = world.seen memory.store := by
    funext name
    unfold World.seen
    split
    · next static => exact agrees.store name (old name static)
    · rfl
  refine ⟨by simp only [World.call, seen], fun name before => ?_, by simp only [World.call, agrees.calls]⟩
  simp only [World.call, seen]
  rw [agrees.store name before]

end Agrees

section Kept
variable {base first middle last : Nat} {memory between after : Memory}

theorem Kept.refl : Kept base first last memory memory := fun _ _ _ => rfl

theorem Kept.mono (kept : Kept base first last memory after) (lower : first' ≤ first) (upper : last ≤ last') :
    Kept base first' last' memory after := fun name new outside =>
  kept name new fun minted => outside (minted.mono lower upper)

theorem Kept.trans (kept : Kept base first last memory between) (later : Kept base first last between after) :
    Kept base first last memory after := fun name new outside =>
  (later name new outside).trans (kept name new outside)

theorem Kept.set_old (value : Word) (before : Before base name) :
    Kept base first last memory (memory.set name value) := by
  intro key new _
  have different : key ≠ name := fun same => new (same ▸ before)
  exact Memory.set_other _ _ different

theorem Kept.set_temp (value : Word) (minted : Minted first last name) :
    Kept base first last memory (memory.set name value) := by
  intro key _ outside
  have different : key ≠ name := fun same => outside (same ▸ minted)
  exact Memory.set_other _ _ different

theorem Kept.call (old : ∀ name, world.static name = true → Before base name) (callee : String) (args : List Word) :
    Kept base first last memory (world.call callee args memory).2 := by
  intro key new _
  have other : world.static key ≠ true := fun static => new (old key static)
  simp only [World.call, if_neg other]

end Kept

/-- The value of the code stands for what the expression holds: a variable of the program for itself, and
a word for a constant or for a name of the given range. -/
def Held.Stands (base first last : Nat) (store : Store) : Held → Value → Prop
  | .word result, value => value.read store = some result ∧ ∀ name, value = .var name → Minted first last name
  | .named name, value => value = .var name ∧ Before base name

section Stands
variable {base first last : Nat} {held : Held} {value : Value}

theorem Held.Stands.read {other : Memory} (stands : held.Stands base first last other.store value)
    (agrees : Agrees base memory other) : value.read other.store = some (held.read memory.store) := by
  cases held with
  | word result => exact stands.1
  | named name =>
    obtain ⟨rfl, before⟩ := stands
    rw [Value.read, agrees.store name before]
    rfl

theorem Held.Stands.mono {store : Store} (stands : held.Stands base first last store value) (lower : first' ≤ first)
    (upper : last ≤ last') : held.Stands base first' last' store value := by
  cases held with
  | word result => exact ⟨stands.1, fun name same => (stands.2 name same).mono lower upper⟩
  | named name => exact stands

theorem Held.Stands.kept {after : Memory} (stands : held.Stands base first last memory.store value)
    (kept : Kept base first' last' memory after) (le : base ≤ first) (later : last ≤ first') :
    held.Stands base first last after.store value := by
  cases held with
  | named name => exact stands
  | word result =>
    refine ⟨?_, stands.2⟩
    cases value with
    | var name =>
      have minted := stands.2 name rfl
      have new : ¬Before base name := fun before => minted.ne_before (before.mono le) rfl
      have outside : ¬Minted first' last' name := fun other => other.ne_before (minted.before.mono later) rfl
      rw [← stands.1, Value.read, Value.read, kept name new outside]
    | const | absent => exact stands.1

end Stands

theorem minted_temp (last : Nat) : Minted last (last + 1) (NameSupply.temp ⟨last⟩).1 :=
  ⟨last, le_rfl, Nat.lt_succ_self _, numbered_fresh "tmp" ⟨last⟩⟩

theorem Minted.not_before {base first last : Nat} (minted : Minted first last name) (le : base ≤ first) :
    ¬Before base name := fun before => minted.ne_before (before.mono le) rfl

/-- A run of the code comes to the rest of it, in agreement with a memory of the program. -/
structure Arrives (world : World) (body : List Instr) (base first last : Nat) (code rest : List Instr)
    (before memory after : Memory) : Prop where
  steps : Steps world body ⟨code, before⟩ ⟨rest, after⟩
  agrees : Agrees base memory after
  kept : Kept base first last before after

namespace Arrives
variable {world : World} {body code middle rest next : List Instr} {base first last : Nat}
  {before memory between other after : Memory} {value : Value} {word : Word}

theorem mono {first' last' : Nat} (arrives : Arrives world body base first last code rest before memory after)
    (lower : first' ≤ first) (upper : last ≤ last') :
    Arrives world body base first' last' code rest before memory after :=
  ⟨arrives.steps, arrives.agrees, arrives.kept.mono lower upper⟩

theorem trans (arrives : Arrives world body base first last code middle before memory between)
    (further : Arrives world body base first last middle rest between other after) :
    Arrives world body base first last code rest before other after :=
  ⟨arrives.steps.trans further.steps, further.agrees, arrives.kept.trans further.kept⟩

theorem label {name : String} (arrives : Arrives world body base first last code (.label name :: rest) before memory after) :
    Arrives world body base first last code rest before memory after :=
  ⟨arrives.steps.tail .label, arrives.agrees, arrives.kept⟩

theorem jump {target : String} (arrives : Arrives world body base first last code (.jump target :: rest) before memory after)
    (found : seek target body = some next) : Arrives world body base first last code next before memory after :=
  ⟨arrives.steps.tail (.jump found), arrives.agrees, arrives.kept⟩

theorem temp {instr : Instr} {dest : String}
    (arrives : Arrives world body base first last code (instr :: rest) before memory after)
    (move : Step world body ⟨instr :: rest, after⟩ ⟨rest, after.set dest word⟩) (minted : Minted first last dest)
    (le : base ≤ first) : Arrives world body base first last code rest before memory (after.set dest word) :=
  ⟨arrives.steps.tail move, arrives.agrees.set_temp word (minted.not_before le),
    arrives.kept.trans (.set_temp word minted)⟩

theorem assign {name : String}
    (arrives : Arrives world body base first last code (.copy value (.var name) :: rest) before memory after)
    (read : value.read after.store = some word) (old : Before base name) :
    Arrives world body base first last code rest before (memory.set name word) (after.set name word) :=
  ⟨arrives.steps.tail (.copy read), arrives.agrees.set name word, arrives.kept.trans (.set_old word old)⟩

theorem stands {dest : String}
    (arrives : Arrives world body base first last code rest before memory (after.set dest word))
    (minted : Minted first last dest) :
    ∃ final, Arrives world body base first last code rest before memory final ∧
      (Held.word word).Stands base first last final.store (.var dest) := by
  refine ⟨_, arrives, congrArg some (Memory.set_same ..), fun name same => ?_⟩
  cases same
  exact minted

end Arrives

theorem behind_append {before : List Instr} (place : before ++ rest <:+ body) : rest <:+ body :=
  (List.suffix_append ..).trans place

theorem behind_cons {instr : Instr} (place : instr :: rest <:+ body) : rest <:+ body :=
  (List.suffix_cons ..).trans place

/-- Whether an operand settles the result of the operator. -/
def ShortCircuit.settles : ShortCircuit → Word → Bool
  | .and, word => word = 0
  | .or, word => word ≠ 0

theorem ShortCircuit.settles_and : ShortCircuit.and.settles word = true ↔ word = 0 := decide_eq_true_iff

theorem ShortCircuit.settles_or : ShortCircuit.or.settles word = true ↔ word ≠ 0 := decide_eq_true_iff

theorem Arrives.leave {code next : List Instr} {base first last : Nat} {before after : Memory} {value : Value}
    {target : String} (op : ShortCircuit)
    (arrives : Arrives world body base first last code (op.leave value target :: rest) before memory after)
    (read : value.read after.store = some word) (found : seek target body = some next) :
    Arrives world body base first last code (if op.settles word then next else rest) before memory after := by
  refine ⟨arrives.steps.tail ?_, arrives.agrees, arrives.kept⟩
  by_cases zero : word = 0
  · subst zero
    cases op with
    | and => exact .zero read found
    | or => exact .notNonzero read
  · cases op with
    | and =>
      rw [if_neg (mt ShortCircuit.settles_and.mp zero)]
      exact .notZero read zero
    | or =>
      rw [if_pos (ShortCircuit.settles_or.mpr zero)]
      exact .nonzero read zero found

theorem apply_of_unary? {meaning : Tac.UnaryOp} (defined : unaryOp? op = some meaning) {a result : Word}
    (applied : op.unary? a = some result) : meaning.apply a = result := by
  cases op <;> cases defined <;> exact Option.some.inj applied

theorem apply_of_binary? {meaning : Tac.BinaryOp} (defined : binaryOp? op = some meaning) {a b result : Word}
    (applied : op.binary? a b = some result) : meaning.apply a b = some result := by
  cases op <;> cases defined <;> exact applied

/-- The code does what evaluating an expression does, and its value then stands for what the expression
holds. -/
structure Computes (world : World) (base first last : Nat) (eval : Memory → Option (Held × Memory))
    (code : List Instr) (value : Value) : Prop where
  le : first ≤ last
  run : ∀ {body rest : List Instr}, (labels body).Nodup → code ++ rest <:+ body →
    ∀ {memory after : Memory} {held : Held}, eval memory = some (held, after) →
    ∀ {before : Memory}, Agrees base memory before →
      ∃ final, Arrives world body base first last (code ++ rest) rest before after final ∧
        held.Stands base first last final.store value

namespace Computes
variable {world : World} {base first middle last : Nat} {eval evalLeft evalRight : Memory → Option (Held × Memory)}
  {code leftCode rightCode : List Instr} {source left right : Value}

theorem const (value : Int) :
    Computes world base first first (fun memory => some (.word (BitVec.ofInt 32 value), memory)) [] (.const value) := by
  refine ⟨le_rfl, @fun body rest _ _ memory after held evaluated before agrees => ?_⟩
  cases evaluated
  exact ⟨before, ⟨.refl, agrees, .refl⟩, rfl, by rintro _ ⟨⟩⟩

theorem named {name : String} (old : Before base name) :
    Computes world base first first (fun memory => some (.named name, memory)) [] (.var name) := by
  refine ⟨le_rfl, @fun body rest _ _ memory after held evaluated before agrees => ?_⟩
  cases evaluated
  exact ⟨before, ⟨.refl, agrees, .refl⟩, rfl, old⟩

/-- It is enough that the code ends by putting the word into the next name. -/
theorem of_temp (le : base ≤ first) (reach : first ≤ last)
    (run : ∀ {body rest : List Instr}, (labels body).Nodup → code ++ rest <:+ body →
      ∀ {memory after : Memory} {held : Held}, eval memory = some (held, after) →
      ∀ {before : Memory}, Agrees base memory before →
        ∃ word final, held = .word word ∧
          Steps world body ⟨code ++ rest, before⟩ ⟨rest, final.set (NameSupply.temp ⟨last⟩).1 word⟩ ∧
          Agrees base after final ∧ Kept base first last before final) :
    Computes world base first (last + 1) eval code (.var (NameSupply.temp ⟨last⟩).1) := by
  refine ⟨Nat.le_succ_of_le reach, @fun body rest distinct place memory after held evaluated before agrees => ?_⟩
  obtain ⟨word, final, rfl, steps, still, kept⟩ := run distinct place evaluated agrees
  have minted : Minted first (last + 1) (NameSupply.temp ⟨last⟩).1 := (minted_temp last).mono reach le_rfl
  refine ⟨_, ⟨steps, still.set_temp word (minted.not_before le), ?_⟩, ?_⟩
  · exact (kept.mono le_rfl (Nat.le_succ _)).trans (.set_temp word minted)
  · refine ⟨congrArg some (Memory.set_same ..), fun name same => ?_⟩
    cases same
    exact minted

theorem unary {op : TokenKind} {meaning : Tac.UnaryOp} (defined : unaryOp? op = some meaning) (le : base ≤ first)
    (computes : Computes world base first last eval code source) :
    Computes world base first (last + 1) (fun memory => do
      let (held, memory) ← eval memory
      let result ← op.unary? (held.read memory.store)
      return (.word result, memory)) (code ++ [Instr.unary meaning source (.var (NameSupply.temp ⟨last⟩).1)])
      (.var (NameSupply.temp ⟨last⟩).1) := by
  refine of_temp le computes.le @fun body rest distinct place memory after held evaluated before agrees => ?_
  rw [List.append_assoc] at place ⊢
  simp only [Option.bind_eq_bind, Option.bind_eq_some_iff, Option.pure_def, Option.some.injEq, Prod.mk.injEq] at evaluated
  obtain ⟨⟨inner, between⟩, first, result, applied, rfl, rfl⟩ := evaluated
  obtain ⟨final, arrives, stands⟩ := computes.run distinct place first agrees
  obtain rfl := apply_of_unary? defined applied
  exact ⟨_, final, rfl, arrives.steps.tail (.unary (stands.read arrives.agrees)), arrives.agrees, arrives.kept⟩

theorem binary {op : TokenKind} {meaning : Tac.BinaryOp} (defined : binaryOp? op = some meaning) (le : base ≤ first)
    (leftComputes : Computes world base first middle evalLeft leftCode left)
    (rightComputes : Computes world base middle last evalRight rightCode right) :
    Computes world base first (last + 1) (fun memory => do
      let (held, memory) ← evalLeft memory
      let (other, memory) ← evalRight memory
      let result ← op.binary? (held.read memory.store) (other.read memory.store)
      return (.word result, memory)) (leftCode ++ rightCode ++ [Instr.binary meaning left right (.var (NameSupply.temp ⟨last⟩).1)])
      (.var (NameSupply.temp ⟨last⟩).1) := by
  refine of_temp le (Nat.le_trans leftComputes.le rightComputes.le)
    @fun body rest distinct place memory after held evaluated before agrees => ?_
  simp only [List.append_assoc] at place ⊢
  simp only [Option.bind_eq_bind, Option.bind_eq_some_iff, Option.pure_def, Option.some.injEq, Prod.mk.injEq] at evaluated
  obtain ⟨⟨inner, between⟩, first, ⟨other, last⟩, second, result, applied, rfl, rfl⟩ := evaluated
  obtain ⟨halfway, arrives, leftStands⟩ := leftComputes.run distinct place first agrees
  obtain ⟨final, further, rightStands⟩ := rightComputes.run distinct ((List.suffix_append ..).trans place) second
    arrives.agrees
  have leftStill := leftStands.kept further.kept le le_rfl
  have whole := (arrives.mono le_rfl rightComputes.le).trans (further.mono leftComputes.le le_rfl)
  refine ⟨result, final, rfl, whole.steps.tail ?_, whole.agrees, whole.kept⟩
  exact .binary (leftStill.read further.agrees) (rightStands.read further.agrees) (apply_of_binary? defined applied)

theorem assign {name : String} (old : Before base name) (computes : Computes world base first last eval code source) :
    Computes world base first last (fun memory => do
      let (held, memory) ← eval memory
      return (.named name, memory.set name (held.read memory.store))) (code ++ [Instr.copy source (.var name)])
      (.var name) := by
  refine ⟨computes.le, @fun body rest distinct place memory after held evaluated before agrees => ?_⟩
  rw [List.append_assoc] at place ⊢
  simp only [Option.bind_eq_bind, Option.bind_eq_some_iff, Option.pure_def, Option.some.injEq, Prod.mk.injEq] at evaluated
  obtain ⟨⟨inner, between⟩, first, rfl, rfl⟩ := evaluated
  obtain ⟨final, arrives, stands⟩ := computes.run distinct place first agrees
  exact ⟨_, arrives.assign (stands.read arrives.agrees) old, rfl, old⟩

theorem shortCircuit (op : ShortCircuit) {start : Nat} {short done dest : String} (le : base ≤ start)
    (minted : Minted start first dest) (lower : start ≤ first)
    (leftComputes : Computes world base first middle evalLeft leftCode left)
    (rightComputes : Computes world base middle last evalRight rightCode right) :
    Computes world base start last (fun memory => do
      let (held, memory) ← evalLeft memory
      if op.settles (held.read memory.store) then return (.word (BitVec.ofInt 32 op.shortValue), memory)
      let (held, memory) ← evalRight memory
      return (.word (BitVec.ofInt 32 (if op.settles (held.read memory.store) then op.shortValue else op.fullValue)),
        memory)) (leftCode ++ [op.leave left short] ++ rightCode ++ [
      op.leave right short,
      Instr.copy (.const op.fullValue) (.var dest),
      Instr.jump done,
      Instr.label short,
      Instr.copy (.const op.shortValue) (.var dest),
      Instr.label done]) (.var dest) := by
  have upper := rightComputes.le
  have across := leftComputes.le
  refine ⟨by omega, @fun body rest distinct place memory after held evaluated before agrees => ?_⟩
  simp only [List.append_assoc, List.cons_append, List.nil_append] at place ⊢
  have foundShort : seek short body = some _ :=
    seek_of_suffix distinct (behind_cons (behind_cons (behind_cons (behind_append (behind_cons (behind_append place))))))
  have foundDone : seek done body = some rest := seek_of_suffix distinct (behind_cons (seek_suffix foundShort))
  have own : Minted start last dest := minted.mono le_rfl (by omega)
  simp only [Option.bind_eq_bind, Option.bind_eq_some_iff, Option.pure_def] at evaluated
  obtain ⟨⟨inner, between⟩, evaluatedLeft, evaluated⟩ := evaluated
  obtain ⟨halfway, reached, leftStands⟩ := leftComputes.run distinct place evaluatedLeft agrees
  have past := (reached.mono lower le_rfl).leave op (leftStands.read reached.agrees) foundShort
  by_cases settled : op.settles (inner.read between.store) = true
  · rw [if_pos settled] at past evaluated
    cases evaluated
    exact (((past.mono le_rfl upper).temp (.copy rfl) own le).label).stands own
  · rw [if_neg settled] at past evaluated
    simp only [Option.bind_eq_some_iff] at evaluated
    obtain ⟨⟨other, last⟩, evaluatedRight, evaluated⟩ := evaluated
    obtain ⟨final, further, rightStands⟩ := rightComputes.run distinct (behind_cons (behind_append place)) evaluatedRight
      past.agrees
    have whole := (past.mono le_rfl upper).trans (further.mono (by omega) le_rfl)
    have beyond := whole.leave op (rightStands.read further.agrees) foundShort
    cases evaluated
    by_cases settledToo : op.settles (other.read last.store) = true
    · rw [if_pos settledToo] at beyond
      rw [if_pos settledToo]
      exact ((beyond.temp (.copy rfl) own le).label).stands own
    · rw [if_neg settledToo] at beyond
      rw [if_neg settledToo]
      exact ((beyond.temp (.copy rfl) own le).jump foundDone).stands own

theorem conditional {second third fourth : Nat} {other done dest : String} {cond yes no : Value}
    {condCode yesCode noCode : List Instr} {evalCond evalYes evalNo : Memory → Option (Held × Memory)}
    (le : base ≤ first) (minted : Minted third fourth dest) (gap : middle ≤ second) (room : third ≤ fourth)
    (condComputes : Computes world base first middle evalCond condCode cond)
    (yesComputes : Computes world base second third evalYes yesCode yes)
    (noComputes : Computes world base fourth last evalNo noCode no) :
    Computes world base first last (fun memory => do
      let (held, memory) ← evalCond memory
      let (held, memory) ← if held.read memory.store ≠ 0 then evalYes memory else evalNo memory
      return (.word (held.read memory.store), memory)) (condCode ++ [Instr.jumpIfZero cond other] ++ yesCode
      ++ [Instr.copy yes (.var dest), Instr.jump done, Instr.label other] ++ noCode
      ++ [Instr.copy no (.var dest), Instr.label done]) (.var dest) := by
  have condLe := condComputes.le
  have yesLe := yesComputes.le
  have noLe := noComputes.le
  refine ⟨by omega, @fun body rest distinct place memory after held evaluated before agrees => ?_⟩
  simp only [List.append_assoc, List.cons_append, List.nil_append] at place ⊢
  have yesPlace := behind_cons (behind_append place)
  have foundOther : seek other body = some _ :=
    seek_of_suffix distinct (behind_cons (behind_cons (behind_append yesPlace)))
  have noPlace := seek_suffix foundOther
  have foundDone : seek done body = some rest := seek_of_suffix distinct (behind_cons (behind_append noPlace))
  have own : Minted first last dest := minted.mono (by omega) (by omega)
  simp only [Option.bind_eq_bind, Option.bind_eq_some_iff, Option.pure_def] at evaluated
  obtain ⟨⟨inner, between⟩, evaluatedCond, evaluated⟩ := evaluated
  obtain ⟨halfway, reached, condStands⟩ := condComputes.run distinct place evaluatedCond agrees
  have past := (reached.mono le_rfl (by omega : middle ≤ last)).leave .and (condStands.read reached.agrees)
    foundOther
  by_cases zero : inner.read between.store = 0
  · rw [if_neg (not_not.mpr zero), Option.bind_eq_some_iff] at evaluated
    rw [if_pos (ShortCircuit.settles_and.mpr zero)] at past
    obtain ⟨⟨chosen, final⟩, evaluatedNo, ⟨⟩⟩ := evaluated
    obtain ⟨later, further, noStands⟩ := noComputes.run distinct noPlace evaluatedNo past.agrees
    have whole := past.trans (further.mono (by omega) le_rfl)
    exact ((whole.temp (.copy (noStands.read further.agrees)) own le).label).stands own
  · rw [if_pos zero, Option.bind_eq_some_iff] at evaluated
    rw [if_neg (mt ShortCircuit.settles_and.mp zero)] at past
    obtain ⟨⟨chosen, final⟩, evaluatedYes, ⟨⟩⟩ := evaluated
    obtain ⟨later, further, yesStands⟩ := yesComputes.run distinct yesPlace evaluatedYes past.agrees
    have whole := past.trans (further.mono (by omega) (by omega))
    exact ((whole.temp (.copy (yesStands.read further.agrees)) own le).jump foundDone).stands own

end Computes

/-- The same for a list of arguments. -/
structure ComputesAll (world : World) (base first last : Nat) (eval : Memory → Option (List Held × Memory))
    (code : List Instr) (values : List Value) : Prop where
  le : first ≤ last
  run : ∀ {body rest : List Instr}, (labels body).Nodup → code ++ rest <:+ body →
    ∀ {memory after : Memory} {held : List Held}, eval memory = some (held, after) →
    ∀ {before : Memory}, Agrees base memory before →
      ∃ final, Arrives world body base first last (code ++ rest) rest before after final ∧
        List.Forall₂ (fun one value => Held.Stands base first last final.store one value) held values

namespace ComputesAll
variable {world : World} {base first middle last : Nat} {eval : Memory → Option (Held × Memory)}
  {evalRest : Memory → Option (List Held × Memory)} {code more : List Instr} {value : Value} {values : List Value}

theorem nil : ComputesAll world base first first (fun memory => some ([], memory)) [] [] := by
  refine ⟨le_rfl, @fun body rest _ _ memory after held evaluated before agrees => ?_⟩
  cases evaluated
  exact ⟨before, ⟨.refl, agrees, .refl⟩, .nil⟩

theorem cons (le : base ≤ first) (computes : Computes world base first middle eval code value)
    (others : ComputesAll world base middle last evalRest more values) :
    ComputesAll world base first last (fun memory => do
      let (held, memory) ← eval memory
      let (others, memory) ← evalRest memory
      return (held :: others, memory)) (code ++ more) (value :: values) := by
  refine ⟨Nat.le_trans computes.le others.le,
    @fun body rest distinct place memory after held evaluated before agrees => ?_⟩
  rw [List.append_assoc] at place ⊢
  simp only [Option.bind_eq_bind, Option.bind_eq_some_iff, Option.pure_def] at evaluated
  obtain ⟨⟨one, between⟩, evaluatedOne, ⟨rests, final⟩, evaluatedRest, ⟨⟩⟩ := evaluated
  obtain ⟨halfway, reached, stands⟩ := computes.run distinct place evaluatedOne agrees
  obtain ⟨later, further, all⟩ := others.run distinct (behind_append place) evaluatedRest reached.agrees
  refine ⟨later, ?_, .cons ?_ (all.imp fun _ _ each => each.mono computes.le le_rfl)⟩
  · exact (reached.mono le_rfl others.le).trans (further.mono computes.le le_rfl)
  · exact (stands.kept further.kept le le_rfl).mono le_rfl others.le

theorem call (old : ∀ name, world.static name = true → Before base name) (le : base ≤ first)
    (callee : String) (computes : ComputesAll world base first last evalRest code values) :
    Computes world base first (last + 1) (fun memory => do
      let (held, memory) ← evalRest memory
      let (result, memory) := world.call callee (held.map (Held.read memory.store)) memory
      return (.word result, memory)) (code ++ [Instr.call callee values (.var (NameSupply.temp ⟨last⟩).1)])
      (.var (NameSupply.temp ⟨last⟩).1) := by
  refine .of_temp le computes.le @fun body rest distinct place memory after held evaluated before agrees => ?_
  rw [List.append_assoc] at place ⊢
  simp only [Option.bind_eq_bind, Option.bind_eq_some_iff, Option.pure_def] at evaluated
  obtain ⟨⟨args, between⟩, evaluatedArgs, ⟨⟩⟩ := evaluated
  obtain ⟨final, reached, all⟩ := computes.run distinct place evaluatedArgs agrees
  obtain ⟨same, still⟩ := reached.agrees.call old callee (args.map (Held.read between.store))
  have read : List.Forall₂ (fun word value => Value.read final.store value = some word)
      (args.map (Held.read between.store)) values :=
    List.forall₂_map_left_iff.mpr (all.imp fun _ _ each => each.read reached.agrees)
  have kept := reached.kept.trans (.call old callee (args.map (Held.read between.store)))
  exact ⟨_, (world.call callee (args.map (Held.read between.store)) final).2, rfl,
    reached.steps.tail (.call read (Prod.ext same rfl)), still, kept⟩

end ComputesAll

theorem ShortCircuit.result (op : ShortCircuit) (word : Word) :
    BitVec.ofInt 32 (if op.settles word then op.shortValue else op.fullValue) = Word.truth (word ≠ 0) := by
  by_cases zero : word = 0
  · subst zero
    cases op <;> rfl
  · rw [Word.truth, if_pos (decide_eq_true zero)]
    cases op with
    | and =>
      rw [if_neg (mt ShortCircuit.settles_and.mp zero)]
      rfl
    | or =>
      rw [if_pos (ShortCircuit.settles_or.mpr zero)]
      rfl

theorem eval_shortCircuit (world : World) (span : Span) {meaning : ShortCircuit}
    (short : ShortCircuit.ofKind? op = some meaning) (left right : Expr) :
    (Expr.binary span op left right).eval world = fun memory => do
      let (held, memory) ← left.eval world memory
      if meaning.settles (held.read memory.store) then return (.word (BitVec.ofInt 32 meaning.shortValue), memory)
      let (held, memory) ← right.eval world memory
      return (.word (BitVec.ofInt 32 (if meaning.settles (held.read memory.store) then meaning.shortValue
        else meaning.fullValue)), memory) := by
  funext memory
  cases op <;> cases short
  · simp only [Expr.eval, ShortCircuit.result]
    simp only [ShortCircuit.settles_and]
    rfl
  · simp only [Expr.eval, ShortCircuit.result]
    simp only [ShortCircuit.settles_or]
    rfl

theorem eval_binary (world : World) (span : Span) (plain : ShortCircuit.ofKind? op = none) (left right : Expr) :
    (Expr.binary span op left right).eval world = fun memory => do
      let (held, memory) ← left.eval world memory
      let (other, memory) ← right.eval world memory
      let result ← op.binary? (held.read memory.store) (other.read memory.store)
      return (.word result, memory) := by
  funext memory
  rw [Expr.eval]
  · rintro rfl
    cases plain
  · rintro rfl
    cases plain

mutual

/-- The code of an expression computes it. -/
theorem Expr.Lowered.computes {world : World} {base : Nat} {known : List String}
    (statics : ∀ name, world.static name = true → Before base name) (old : AllBefore base known) {expr : Expr}
    {first last : Nat} {code : List Instr} {value : Value} : expr.Lowered first last code value → base ≤ first →
      expr.Uses known → Computes world base first last (expr.eval world) code value
  | .number, _, _ => .const _
  | .ident, _, uses => .named (old _ uses)
  | .unary defined operand, le, uses => (operand.computes statics old le uses.2).unary defined le
  | .shortCircuit meaning short left right, le, uses => by
    have past := Nat.le_trans le (Nat.le_add_right first 3)
    have leftComputes := left.computes statics old past uses.2.1
    have rightComputes := right.computes statics old (Nat.le_trans past left.le) uses.2.2
    have minted := (minted_temp (first + 2)).mono (Nat.le_add_right first 2) le_rfl
    rw [eval_shortCircuit world _ short]
    exact leftComputes.shortCircuit meaning le minted (Nat.le_add_right first 3) rightComputes
  | .binary plain defined left right, le, uses => by
    have leftComputes := left.computes statics old le uses.2.1
    have rightComputes := right.computes statics old (Nat.le_trans le left.le) uses.2.2
    rw [eval_binary world _ plain]
    exact leftComputes.binary defined le rightComputes
  | .assign value, le, uses => (value.computes statics old le uses.2).assign (old _ uses.1)
  | .conditional cond yes no, le, uses => by
    have further := Nat.le_succ_of_le (Nat.le_trans le cond.le)
    have beyond := Nat.le_trans (Nat.le_trans further yes.le) (Nat.le_add_right _ 2)
    have condComputes := cond.computes statics old le uses.1
    have yesComputes := yes.computes statics old further uses.2.1
    have noComputes := no.computes statics old beyond uses.2.2
    refine condComputes.conditional le ?_ (Nat.le_succ _) (Nat.le_add_right _ 2) yesComputes noComputes
    exact (minted_temp _).mono le_rfl (Nat.le_succ _)
  | .call args, le, uses => (args.computes statics old le uses.2).call statics le _

theorem ArgsLowered.computes {world : World} {base : Nat} {known : List String}
    (statics : ∀ name, world.static name = true → Before base name) (old : AllBefore base known) {args : List Expr}
    {first last : Nat} {code : List Instr} {values : List Value} : ArgsLowered args first last code values →
      base ≤ first → argsUse known args → ComputesAll world base first last (evalArgs world args) code values
  | .nil, _, _ => .nil
  | .cons arg rest, le, uses =>
    .cons le (arg.computes statics old le uses.1) (rest.computes statics old (Nat.le_trans le arg.le) uses.2)

end

end IntC
