import IntC.Proofs.Tac.LoweringEval

namespace IntC

open Tac

variable {next rest body : List Instr} {world : World} {base : Nat} {memory : Memory}

/-- Where code stands after a statement has run: behind it, where the loop around it is left or goes on,
or at a return of the value. -/
def Tac.Config.Ends (rest leave again : List Instr) : Outcome → Tac.Config → Prop
  | .normal, config => config.rest = rest
  | .broke, config => config.rest = leave
  | .continued, config => config.rest = again
  | .returned value, config => config.returned? = some value

/-- A run from the code on comes to a point with the property, in agreement with a memory of the program. -/
def Comes (world : World) (body : List Instr) (base : Nat) (code : List Instr) (before memory : Memory)
    (goal : Tac.Config → Prop) : Prop :=
  ∃ final, Steps world body ⟨code, before⟩ final ∧ Agrees base memory final.memory ∧ goal final

section Comes
variable {world : World} {body code middle : List Instr} {base first last : Nat} {before memory between after : Memory}
  {goal : Tac.Config → Prop}

theorem Comes.now (agrees : Agrees base memory before) (done : goal ⟨code, before⟩) :
    Comes world body base code before memory goal := ⟨_, .refl, agrees, done⟩

theorem Arrives.comes (arrives : Arrives world body base first last code middle before memory after)
    (further : Comes world body base middle after between goal) : Comes world body base code before between goal := by
  obtain ⟨final, steps, agrees, done⟩ := further
  exact ⟨final, arrives.steps.trans steps, agrees, done⟩

theorem Comes.trans (comes : Comes world body base code before memory fun config => config.rest = middle)
    (further : ∀ {after : Memory}, Agrees base memory after → Comes world body base middle after between goal) :
    Comes world body base code before between goal := by
  obtain ⟨⟨rest, after⟩, steps, agrees, rfl⟩ := comes
  obtain ⟨final, more, agreesToo, done⟩ := further agrees
  exact ⟨final, steps.trans more, agreesToo, done⟩

theorem Comes.head (move : Step world body ⟨code, before⟩ ⟨next, before⟩)
    (comes : Comes world body base next before memory goal) : Comes world body base code before memory goal := by
  obtain ⟨final, steps, agrees, done⟩ := comes
  exact ⟨final, .head move steps, agrees, done⟩

theorem Comes.onward {leave again : List Instr} {outcome : Outcome}
    (comes : Comes world body base code before memory (Tac.Config.Ends rest leave again outcome))
    (move : ∀ memory, Step world body ⟨rest, memory⟩ ⟨next, memory⟩) :
    Comes world body base code before memory (Tac.Config.Ends next leave again outcome) := by
  cases outcome with
  | normal =>
    obtain ⟨⟨_, final⟩, steps, agrees, rfl⟩ := comes
    exact ⟨⟨next, final⟩, steps.tail (move final), agrees, rfl⟩
  | broke | continued | returned => exact comes

theorem Comes.imp {other : Tac.Config → Prop} (comes : Comes world body base code before memory goal)
    (weaker : ∀ config, goal config → other config) : Comes world body base code before memory other := by
  obtain ⟨final, steps, agrees, done⟩ := comes
  exact ⟨final, steps, agrees, weaker final done⟩

end Comes

/-- Rounds are followed by code that tests, takes a round and goes back to the test. -/
theorem Rounds.comes {head inside out again leave restart : List Instr} {test : Memory → Option (Bool × Memory)}
    {round : Memory → Outcome → Memory → Prop} {post : Memory → Option Memory}
    (tests : ∀ {memory after before holds}, test memory = some (holds, after) → Agrees base memory before →
      Comes world body base head before after fun config => config.rest = if holds then inside else out)
    (turns : ∀ {memory after before outcome}, round memory outcome after → Agrees base memory before →
      Comes world body base inside before after (Tac.Config.Ends again out again outcome))
    (posts : ∀ {memory after before}, post memory = some after → Agrees base memory before →
      Comes world body base again before after fun config => config.rest = head) {after : Memory} {outcome : Outcome}
    (rounds : Rounds test round post memory outcome after) :
    ∀ {before : Memory}, Agrees base memory before →
      Comes world body base head before after (Tac.Config.Ends out leave restart outcome) := by
  induction rounds with
  | stop tested => exact tests tested
  | broke tested turn | returned tested turn => exact fun agrees => (tests tested agrees).trans (turns turn)
  | next tested turn ended posted _ ih =>
    intro before agrees
    refine (tests tested agrees).trans fun agreesInside => Comes.trans ?_ fun agreesBehind =>
      (posts posted agreesBehind).trans ih
    rcases ended with rfl | rfl
    · exact turns turn agreesInside
    · exact turns turn agreesInside

/-- The code does to the memory what the program does. -/
structure Does (world : World) (base : Nat) (effect : Memory → Option Memory) (code : List Instr) : Prop where
  run : ∀ {body rest : List Instr}, (labels body).Nodup → code ++ rest <:+ body →
    ∀ {memory after before : Memory}, effect memory = some after → Agrees base memory before →
      Comes world body base (code ++ rest) before after fun config => config.rest = rest

/-- The code tests what the program does, and jumps to the target where the test fails. -/
structure Guards (world : World) (base : Nat) (test : Memory → Option (Bool × Memory)) (target : String)
    (code : List Instr) : Prop where
  run : ∀ {body rest next : List Instr}, (labels body).Nodup → code ++ rest <:+ body → seek target body = some next →
    ∀ {memory after before : Memory} {holds : Bool}, test memory = some (holds, after) → Agrees base memory before →
      Comes world body base (code ++ rest) before after fun config => config.rest = if holds then rest else next

/-- Where code stands: in a body with distinct labels, which has the targets of the loop around it. -/
structure Within (body : List Instr) (loop : Option String) (code leave again : List Instr) : Prop where
  distinct : (labels body).Nodup
  place : code <:+ body
  leave : ∀ id ∈ loop, seek (breakTarget id) body = some leave
  again : ∀ id ∈ loop, seek (continueTarget id) body = some again

/-- The code does what every run of a statement does. -/
structure Realizes (world : World) (base : Nat) (loop : Option String) (runs : Memory → Outcome → Memory → Prop)
    (code : List Instr) : Prop where
  run : ∀ {body rest leave again : List Instr}, Within body loop (code ++ rest) leave again →
    ∀ {memory after before : Memory} {outcome : Outcome}, runs memory outcome after → Agrees base memory before →
      Comes world body base (code ++ rest) before after (Tac.Config.Ends rest leave again outcome)

section Computes
variable {world : World} {base first last : Nat} {code : List Instr} {value : Value} {expr : Expr}

theorem Computes.does {eval : Memory → Option (Held × Memory)} (computes : Computes world base first last eval code value) :
    Does world base (fun memory => (eval memory).map Prod.snd) code := by
  refine ⟨@fun body rest distinct place memory after before run agrees => ?_⟩
  obtain ⟨⟨held, _⟩, evaluated, rfl⟩ := Option.map_eq_some_iff.mp run
  obtain ⟨final, arrives, -⟩ := computes.run distinct place evaluated agrees
  exact arrives.comes (.now arrives.agrees rfl)

theorem Computes.declares {eval : Memory → Option (Held × Memory)} {name : String} (old : Before base name)
    (computes : Computes world base first last eval code value) :
    Does world base (fun memory => do
      let (held, memory) ← eval memory
      return memory.set name (held.read memory.store)) (code ++ [Instr.copy value (.var name)]) := by
  refine ⟨@fun body rest distinct place memory after before run agrees => ?_⟩
  simp only [Option.bind_eq_bind, Option.bind_eq_some_iff, Option.pure_def] at run
  obtain ⟨⟨held, between⟩, evaluated, ⟨⟩⟩ := run
  refine (computes.assign old).does.run distinct place ?_ agrees
  simp only [evaluated]
  rfl

theorem Expr.test_eq_some {cond : Expr} {after : Memory} {holds : Bool}
    (tested : cond.test world memory = some (holds, after)) :
    ∃ held, cond.eval world memory = some (held, after) ∧ (holds = true ↔ held.read after.store ≠ 0) := by
  simp only [Expr.test, Option.bind_eq_bind, Option.bind_eq_some_iff, Option.pure_def, Option.some.injEq,
    Prod.mk.injEq] at tested
  obtain ⟨⟨held, _⟩, evaluated, rfl, rfl⟩ := tested
  exact ⟨held, evaluated, decide_eq_true_iff⟩

theorem Computes.leaves {target : String} {after before : Memory} {held : Held}
    (computes : Computes world base first last (expr.eval world) code value) (op : ShortCircuit)
    (distinct : (labels body).Nodup) (place : code ++ op.leave value target :: rest <:+ body)
    (found : seek target body = some next) (evaluated : expr.eval world memory = some (held, after))
    (agrees : Agrees base memory before) :
    Comes world body base (code ++ op.leave value target :: rest) before after fun config =>
      config.rest = if op.settles (held.read after.store) then next else rest := by
  obtain ⟨final, arrives, stands⟩ := computes.run distinct place evaluated agrees
  exact (arrives.leave op (stands.read arrives.agrees) found).comes (.now arrives.agrees rfl)

theorem Computes.guards {target : String} (computes : Computes world base first last (expr.eval world) code value) :
    Guards world base (expr.test world) target (code ++ [Instr.jumpIfZero value target]) := by
  refine ⟨@fun body rest next distinct place found memory after before holds tested agrees => ?_⟩
  rw [List.append_assoc, List.singleton_append] at place ⊢
  obtain ⟨held, evaluated, meaning⟩ := Expr.test_eq_some tested
  refine (computes.leaves .and distinct place found evaluated agrees).imp fun config stands => stands.trans ?_
  by_cases zero : held.read after.store = 0
  · rw [if_pos (ShortCircuit.settles_and.mpr zero), if_neg fun yes => meaning.mp yes zero]
  · rw [if_neg (mt ShortCircuit.settles_and.mp zero), if_pos (meaning.mpr zero)]

theorem Computes.repeats {start stop : String} (computes : Computes world base first last (expr.eval world) code value)
    (distinct : (labels body).Nodup)
    (place : code ++ Instr.jumpIfNotZero value start :: Instr.label stop :: rest <:+ body)
    (found : seek start body = some next) {after before : Memory} {holds : Bool}
    (tested : expr.test world memory = some (holds, after)) (agrees : Agrees base memory before) :
    Comes world body base (code ++ Instr.jumpIfNotZero value start :: Instr.label stop :: rest) before after
      fun config => config.rest = if holds then next else rest := by
  obtain ⟨held, evaluated, meaning⟩ := Expr.test_eq_some tested
  have past := computes.leaves .or distinct place found evaluated agrees
  by_cases zero : held.read after.store = 0
  · rw [if_neg fun settled => ShortCircuit.settles_or.mp settled zero] at past
    rw [if_neg fun yes => meaning.mp yes zero]
    exact past.trans fun agreesThere => .head .label (.now agreesThere rfl)
  · rw [if_pos (ShortCircuit.settles_or.mpr zero)] at past
    rw [if_pos (meaning.mpr zero)]
    exact past

theorem Computes.ret {loop : Option String} (computes : Computes world base first last (expr.eval world) code value) :
    Realizes world base loop (fun memory outcome after => ∃ held, expr.eval world memory = some (held, after) ∧
      outcome = .returned (held.read after.store)) (code ++ [Instr.ret value]) := by
  refine ⟨@fun body rest leave again within memory after before outcome run agrees => ?_⟩
  have place := within.place
  rw [List.append_assoc] at place ⊢
  obtain ⟨held, evaluated, rfl⟩ := run
  obtain ⟨final, arrives, stands⟩ := computes.run within.distinct place evaluated agrees
  exact arrives.comes (.now arrives.agrees (stands.read arrives.agrees))

end Computes

namespace Realizes
variable {world : World} {base : Nat} {loop : Option String} {runs runsToo : Memory → Outcome → Memory → Prop}
  {effect : Memory → Option Memory} {test : Memory → Option (Bool × Memory)} {code more guard : List Instr}

variable {id : String}

theorem does (does : Does world base effect code) :
    Realizes world base loop (fun memory outcome after => effect memory = some after ∧ outcome = .normal) code := by
  refine ⟨?_⟩
  rintro body rest leave again within memory after before outcome ⟨done, normal⟩ agrees
  subst normal
  exact does.run within.distinct within.place done agrees

theorem nil : Realizes world base loop (fun memory outcome after => outcome = .normal ∧ after = memory) [] := by
  constructor
  rintro body rest leave again - memory after before outcome ⟨rfl, rfl⟩ agrees
  exact .now agrees rfl

theorem breaks : Realizes world base (some id) (fun memory outcome after => outcome = .broke ∧ after = memory)
    [Instr.jump (breakTarget id)] := by
  constructor
  rintro body rest leave again within memory after before outcome ⟨rfl, rfl⟩ agrees
  exact .head (.jump (within.leave id rfl)) (.now agrees rfl)

theorem continues :
    Realizes world base (some id) (fun memory outcome after => outcome = .continued ∧ after = memory)
      [Instr.jump (continueTarget id)] := by
  constructor
  rintro body rest leave again within memory after before outcome ⟨rfl, rfl⟩ agrees
  exact .head (.jump (within.again id rfl)) (.now agrees rfl)

theorem after (does : Does world base effect code) (realizes : Realizes world base loop runs more) :
    Realizes world base loop (fun memory outcome after => ∃ between, effect memory = some between ∧
      runs between outcome after) (code ++ more) := by
  refine ⟨?_⟩
  rintro body rest leave again within memory after before outcome ⟨between, done, later⟩ agrees
  have place := within.place
  rw [List.append_assoc] at place ⊢
  refine (does.run within.distinct place done agrees).trans fun agreesThere => ?_
  exact realizes.run ⟨within.distinct, behind_append place, within.leave, within.again⟩ later agreesThere

theorem seq (realizes : Realizes world base loop runs code) (later : Realizes world base loop runsToo more) :
    Realizes world base loop (fun memory outcome after => ∃ first between, runs memory first between ∧
      if first = .normal then runsToo between outcome after else outcome = first ∧ after = between) (code ++ more) := by
  refine ⟨?_⟩
  rintro body rest leave again within memory after before outcome ⟨first, between, ran, behind⟩ agrees
  obtain ⟨distinct, place, leaves, restarts⟩ := within
  rw [List.append_assoc] at place ⊢
  have there := realizes.run ⟨distinct, place, leaves, restarts⟩ ran agrees
  cases first with
  | normal =>
    exact Comes.trans there fun agreesThere =>
      later.run ⟨distinct, behind_append place, leaves, restarts⟩ behind agreesThere
  | broke | continued | returned =>
    obtain ⟨rfl, rfl⟩ := behind
    exact there

theorem ifThen {done : String} (guards : Guards world base test done guard)
    (realizes : Realizes world base loop runs code) :
    Realizes world base loop (fun memory outcome after => ∃ holds between, test memory = some (holds, between) ∧
      if holds then runs between outcome after else outcome = .normal ∧ after = between)
      (guard ++ code ++ [Instr.label done]) := by
  refine ⟨?_⟩
  rintro body rest leave again within memory after before outcome ⟨holds, between, tested, behind⟩ agrees
  obtain ⟨distinct, place, leaves, restarts⟩ := within
  simp only [List.append_assoc, List.singleton_append] at place ⊢
  have inside := behind_append place
  have found : seek done body = some rest := seek_of_suffix distinct (behind_append inside)
  refine (guards.run distinct place found tested agrees).trans fun agreesThere => ?_
  cases holds with
  | true =>
    exact (realizes.run ⟨distinct, inside, leaves, restarts⟩ behind agreesThere).onward fun _ => .label
  | false =>
    obtain ⟨rfl, rfl⟩ := behind
    exact .now agreesThere rfl

theorem ifElse {other done : String} (guards : Guards world base test other guard)
    (realizes : Realizes world base loop runs code) (realizesToo : Realizes world base loop runsToo more) :
    Realizes world base loop (fun memory outcome after => ∃ holds between, test memory = some (holds, between) ∧
      if holds then runs between outcome after else runsToo between outcome after)
      (guard ++ code ++ [Instr.jump done, Instr.label other] ++ more ++ [Instr.label done]) := by
  refine ⟨?_⟩
  rintro body rest leave again within memory after before outcome ⟨holds, between, tested, behind⟩ agrees
  obtain ⟨distinct, place, leaves, restarts⟩ := within
  simp only [List.append_assoc, List.cons_append, List.nil_append] at place ⊢
  have inside := behind_append place
  have found : seek other body = some _ := seek_of_suffix distinct (behind_cons (behind_append inside))
  have insideToo := seek_suffix found
  have foundDone : seek done body = some rest := seek_of_suffix distinct (behind_append insideToo)
  refine (guards.run distinct place found tested agrees).trans fun agreesThere => ?_
  cases holds with
  | true => exact (realizes.run ⟨distinct, inside, leaves, restarts⟩ behind agreesThere).onward fun _ => .jump foundDone
  | false => exact (realizesToo.run ⟨distinct, insideToo, leaves, restarts⟩ behind agreesThere).onward fun _ => .label

theorem whileLoop (guards : Guards world base test (breakTarget id) guard)
    (realizes : Realizes world base (some id) runs code) :
    Realizes world base loop (Rounds test runs some) ([Instr.label (continueTarget id)] ++ guard ++ code ++
      [Instr.jump (continueTarget id), Instr.label (breakTarget id)]) := by
  refine ⟨@fun body rest leave again within memory after before outcome rounds agrees => ?_⟩
  obtain ⟨distinct, place, -, -⟩ := within
  simp only [List.append_assoc, List.cons_append, List.nil_append] at place ⊢
  have restart : seek (continueTarget id) body = some _ := seek_of_suffix distinct place
  have inside := behind_append (behind_cons place)
  have out : seek (breakTarget id) body = some rest := seek_of_suffix distinct (behind_cons (behind_append inside))
  have here : Within body (some id) _ rest _ :=
    ⟨distinct, inside, by rintro _ ⟨⟩; exact out, by rintro _ ⟨⟩; exact restart⟩
  refine .head .label (Rounds.comes (guards.run distinct (behind_cons place) out)
    (fun turn agreesHere => (realizes.run here turn agreesHere).onward fun _ => .jump restart)
    (fun posted agreesHere => ?_) rounds agrees)
  cases posted
  exact .now agreesHere rfl

theorem doLoop {first last : Nat} {cond : Expr} {condCode : List Instr} {value : Value} {start : String}
    (computes : Computes world base first last (cond.eval world) condCode value)
    (realizes : Realizes world base (some id) runs code) :
    Realizes world base loop (fun memory outcome after => ∃ first between, runs memory first between ∧
      match first with
      | .normal | .continued => Rounds (cond.test world) runs some between outcome after
      | .broke => outcome = .normal ∧ after = between
      | .returned value => outcome = .returned value ∧ after = between)
      ([Instr.label start] ++ code ++ [Instr.label (continueTarget id)] ++ condCode
        ++ [Instr.jumpIfNotZero value start, Instr.label (breakTarget id)]) := by
  refine ⟨?_⟩
  rintro body rest leave again within memory after before outcome ⟨first, between, ran, behind⟩ agrees
  obtain ⟨distinct, place, -, -⟩ := within
  simp only [List.append_assoc, List.cons_append, List.nil_append] at place ⊢
  have inside := behind_cons place
  have restart : seek start body = some _ := seek_of_suffix distinct place
  have onward : seek (continueTarget id) body = some _ := seek_of_suffix distinct (behind_append inside)
  have test := seek_suffix onward
  have out : seek (breakTarget id) body = some rest := seek_of_suffix distinct (behind_cons (behind_append test))
  have here : Within body (some id) _ rest _ :=
    ⟨distinct, inside, by rintro _ ⟨⟩; exact out, by rintro _ ⟨⟩; exact onward⟩
  have turns : ∀ {memory after before : Memory} {outcome : Outcome}, runs memory outcome after →
      Agrees base memory before → Comes world body base _ before after (Tac.Config.Ends _ rest _ outcome) :=
    fun turn agreesHere => (realizes.run here turn agreesHere).onward fun _ => .label
  have rounds : ∀ {before : Memory}, Rounds (cond.test world) runs some between outcome after →
      Agrees base between before →
      Comes world body base (condCode ++ Instr.jumpIfNotZero value start :: Instr.label (breakTarget id) :: rest) before
        after (Tac.Config.Ends rest leave again outcome) := by
    refine fun rounds agreesThere => Rounds.comes (computes.repeats distinct test restart) turns ?_ rounds agreesThere
    rintro memory after before ⟨⟩ agreesHere
    exact .now agreesHere rfl
  refine .head .label ?_
  have there := turns ran agrees
  cases first with
  | normal | continued => exact Comes.trans there (rounds behind)
  | broke | returned =>
    obtain ⟨rfl, rfl⟩ := behind
    exact there

theorem forLoop {start : String} {init post : List Instr} {begin step : Memory → Option Memory}
    (does : Does world base begin init) (guards : Guards world base test (breakTarget id) guard)
    (realizes : Realizes world base (some id) runs code) (doesToo : Does world base step post) :
    Realizes world base loop (fun memory outcome after => ∃ first, begin memory = some first ∧
      Rounds test runs step first outcome after) (init ++ [Instr.label start] ++ guard ++ code ++
      [Instr.label (continueTarget id)] ++ post ++ [Instr.jump start, Instr.label (breakTarget id)]) := by
  refine ⟨?_⟩
  rintro body rest leave again within memory after before outcome ⟨first, begun, rounds⟩ agrees
  obtain ⟨distinct, place, -, -⟩ := within
  simp only [List.append_assoc, List.cons_append, List.nil_append] at place ⊢
  have restart : seek start body = some _ := seek_of_suffix distinct (behind_append place)
  have head := seek_suffix restart
  have inside := behind_append head
  have onward : seek (continueTarget id) body = some _ := seek_of_suffix distinct (behind_append inside)
  have postPlace := seek_suffix onward
  have out : seek (breakTarget id) body = some rest := seek_of_suffix distinct (behind_cons (behind_append postPlace))
  have here : Within body (some id) _ rest _ :=
    ⟨distinct, inside, by rintro _ ⟨⟩; exact out, by rintro _ ⟨⟩; exact onward⟩
  refine (does.run distinct place begun agrees).trans fun agreesStart => .head .label ?_
  refine Rounds.comes (guards.run distinct head out)
    (fun turn agreesHere => (realizes.run here turn agreesHere).onward fun _ => .label)
    (fun posted agreesHere => ?_) rounds agreesStart
  exact (doesToo.run distinct postPlace posted agreesHere).trans fun agreesThere =>
    .head (.jump restart) (.now agreesThere rfl)

end Realizes

theorem Does.nil : Does world base some [] := by
  constructor
  rintro body rest - - memory after before ⟨⟩ agrees
  exact .now agrees rfl

section Parts
variable {world : World} {base bound first last : Nat} {known : List String} {code : List Instr}

theorem VarDecl.Lowered.does (statics : ∀ name, world.static name = true → Before base name)
    (old : AllBefore base known) {decl : VarDecl} (lowered : decl.Lowered first last code) (le : base ≤ first)
    (limit : bound ≤ base) (fits : decl.Bound bound known) : Does world base (decl.run world) code := by
  cases lowered with
  | initialized init =>
    obtain ⟨minted, inside⟩ := (VarDecl.bound_of_ne_external (by exact nofun)).mp fits
    have own := minted.before.mono limit
    have more := List.forall_mem_cons.mpr ⟨own, old⟩
    exact (init.computes statics more le (inside _ rfl)).declares own
  | silent idle =>
    obtain ⟨span, name, init, storage⟩ := decl
    cases storage with
    | automatic =>
      cases init with
      | none => exact .nil
      | some init => exact (idle.elim nofun fun other => other rfl).elim
    | static | external => exact .nil

theorem ForInit.Lowered.does (statics : ∀ name, world.static name = true → Before base name)
    (old : AllBefore base known) {init : ForInit} (lowered : init.Lowered first last code) (le : base ≤ first)
    (limit : bound ≤ base) (fits : init.Bound bound known) : Does world base (init.run world) code := by
  cases lowered with
  | none => exact .nil
  | var decl => exact decl.does statics old le limit fits
  | expr value => exact (value.computes statics old le fits).does

theorem GuardLowered.guards (statics : ∀ name, world.static name = true → Before base name)
    (old : AllBefore base known) {id : String} {cond : Option Expr} (lowered : GuardLowered id cond first last code)
    (le : base ≤ first) (uses : ∀ value ∈ cond, value.Uses known) :
    Guards world base (testOptional world cond) (breakTarget id) code := by
  cases lowered with
  | none =>
    constructor
    rintro body rest next - - - memory after before holds ⟨⟩ agrees
    exact .now agrees rfl
  | some cond => exact (cond.computes statics old le (uses _ rfl)).guards

theorem PostLowered.does (statics : ∀ name, world.static name = true → Before base name)
    (old : AllBefore base known) {post : Option Expr} (lowered : PostLowered post first last code) (le : base ≤ first)
    (uses : ∀ value ∈ post, value.Uses known) : Does world base (runOptional world post) code := by
  cases lowered with
  | none => exact .nil
  | some post => exact (post.computes statics old le (uses _ rfl)).does

end Parts

mutual

/-- The code of a statement does what every run of it does. -/
theorem Stmt.Lowered.realizes {world : World} {base bound : Nat} {known : List String} {loop : Option String}
    (statics : ∀ name, world.static name = true → Before base name) (limit : bound ≤ base)
    (old : AllBefore base known) {stmt : Stmt} {first last : Nat} {code : List Instr} :
    stmt.Lowered first last code → base ≤ first → stmt.Bound bound known → stmt.Labelled loop →
      Realizes world base loop (stmt.Runs world) code
  | .ret value, le, fits, _ => (value.computes statics old le fits).ret
  | .expr value, le, fits, _ => .does (value.computes statics old le fits).does
  | .ifThen cond yes, le, fits, labelled => by
    have past := Nat.le_trans le (Nat.le_succ_of_le cond.le)
    exact .ifThen (cond.computes statics old le fits.1).guards (yes.realizes statics limit old past fits.2 labelled)
  | .ifElse cond yes no, le, fits, labelled => by
    have past := Nat.le_trans le (Nat.le_succ_of_le cond.le)
    have beyond := Nat.le_trans past (Nat.le_succ_of_le yes.le)
    exact .ifElse (cond.computes statics old le fits.1).guards (yes.realizes statics limit old past fits.2.1 labelled.1)
      (no.realizes statics limit old beyond fits.2.2 labelled.2)
  | .block items, le, fits, labelled => items.realizes statics limit old le fits labelled
  | .breakLoop, _, _, labelled => by
    cases labelled
    exact .breaks
  | .continueLoop, _, _, labelled => by
    cases labelled
    exact .continues
  | .whileLoop _ cond body, le, fits, labelled => by
    have past := Nat.le_trans le cond.le
    rw [List.append_assoc [_]]
    exact .whileLoop (cond.computes statics old le fits.1).guards (body.realizes statics limit old past fits.2 labelled)
  | .doLoop _ body cond, le, fits, labelled => by
    have past := Nat.le_trans le (Nat.le_of_succ_le body.le)
    exact .doLoop (cond.computes statics old past fits.2)
      (body.realizes statics limit old (Nat.le_succ_of_le le) fits.1 labelled)
  | .forLoop _ init cond body post, le, fits, labelled => by
    obtain ⟨initFits, condUses, postUses, bodyFits⟩ := fits
    have more := List.forall_mem_append.mpr ⟨ForInit.Bound.before initFits limit, old⟩
    have past := Nat.le_trans le (Nat.le_of_succ_le init.le)
    have beyond := Nat.le_trans past cond.le
    exact .forLoop (init.does statics old (Nat.le_succ_of_le le) limit initFits) (cond.guards statics more past condUses)
      (body.realizes statics limit more beyond bodyFits labelled)
      (post.does statics more (Nat.le_trans beyond body.le) postUses)
  | .empty, _, _, _ => .nil

theorem ItemsLowered.realizes {world : World} {base bound : Nat} {known : List String} {loop : Option String}
    (statics : ∀ name, world.static name = true → Before base name) (limit : bound ≤ base)
    (old : AllBefore base known) {items : List Item} {first last : Nat} {code : List Instr} :
    ItemsLowered items first last code → base ≤ first → itemsBound bound known items → itemsLabelled loop items →
      Realizes world base loop (itemsRun world items) code
  | .nil, _, _, _ => .nil
  | .func rest, le, fits, labelled =>
    rest.realizes statics limit (List.forall_mem_cons.mpr ⟨fits.1.1.before _, old⟩) le fits.2 labelled
  | .var decl rest, le, fits, labelled => by
    have more := List.forall_mem_cons.mpr ⟨VarDecl.Bound.before fits.1 limit, old⟩
    exact .after (decl.does statics old le limit fits.1)
      (rest.realizes statics limit more (Nat.le_trans le decl.le) fits.2 labelled)
  | .stmt stmt rest, le, fits, labelled =>
    .seq (stmt.realizes statics limit old le fits.1 labelled.1)
      (rest.realizes statics limit old (Nat.le_trans le stmt.le) fits.2 labelled.2)

end

/-- The code of a body, with a return of zero behind it, returns what the body returns. -/
theorem Realizes.returns {body : Block} {code : List Instr}
    (realizes : Realizes world base none (body.Runs world) code)
    (distinct : (labels (code ++ [Instr.ret (.const 0)])).Nodup) {start final : Memory} {value : Word}
    (returns : body.Returns world start value final) :
    ∃ last, Tac.Returns world (code ++ [Instr.ret (.const 0)]) start value last ∧ Agrees base final last := by
  have within : Within (code ++ [Instr.ret (.const 0)]) none (code ++ [Instr.ret (.const 0)]) [] [] :=
    ⟨distinct, List.suffix_rfl, nofun, nofun⟩
  have same : Agrees base start start := ⟨fun _ _ => rfl, rfl⟩
  rcases returns with returned | ⟨ended, rfl⟩
  · obtain ⟨⟨rest, last⟩, steps, agrees, done⟩ := realizes.run within returned same
    exact ⟨last, ⟨rest, steps, done⟩, agrees⟩
  · obtain ⟨⟨rest, last⟩, steps, agrees, rfl⟩ := realizes.run within ended same
    exact ⟨last, ⟨_, steps, rfl⟩, agrees⟩

/-- Whatever calls do, a function returns what its definition returns, in agreement on all names from
before the base. -/
def Preserves (static : String → Bool) (base : Nat) (body : Block) (func : Tac.Func) : Prop :=
  ∀ answer start value final, body.Returns ⟨static, answer⟩ start value final →
    ∃ last, Tac.Returns ⟨static, answer⟩ func.body start value last ∧ Agrees base final last

section Accepted
variable {bound : Nat} {program : Program} {symbols : SymbolTable}

theorem Accepted.statics (accepted : Accepted bound program symbols) :
    ∀ name, symbols.isStatic name = true → Before bound name := by
  intro name static
  unfold SymbolTable.isStatic at static
  split at static
  · next found => exact (accepted.sound name _ found).2
  · cases static

theorem Accepted.preserves {made : FuncDecl × Block} {func : Tac.Func} {first last : Nat}
    (accepted : Accepted bound program symbols) (member : made ∈ definitions program.items)
    (lowered : FuncDecl.Lowered symbols made first last func) (le : bound ≤ first) :
    func.name = made.1.name ∧ func.params = made.1.params.map Param.name ∧
      Preserves symbols.isStatic bound made.2 func := by
  obtain ⟨among, defined⟩ := mem_definitions.mp member
  obtain ⟨known, old, fits⟩ := accepted.scope among defined
  obtain ⟨marked, -, -⟩ := accepted.labelled made.1 among made.2 defined
  have distinct := (accepted.sound_func member lowered le).1.distinct
  cases lowered with
  | made _ body =>
    refine ⟨rfl, rfl, fun answer start value final returns => ?_⟩
    have realizes : Realizes ⟨symbols.isStatic, answer⟩ _ _ _ _ :=
      body.realizes accepted.statics le_rfl old le fits marked
    exact realizes.returns distinct returns

theorem Accepted.lower_preserves (accepted : Accepted bound program symbols) (names : NameSupply)
    (le : bound ≤ names.next) :
    Pass.Meets (program.lower symbols) names (fun code _ => List.Forall₂ (fun made func =>
      func.name = made.1.name ∧ func.params = made.1.params.map Param.name ∧
      Preserves symbols.isStatic bound made.2 func) (definitions program.items) code.funcs) fun _ => False := by
  refine (accepted.lower_meets names).mono fun code after lowered => ?_
  exact lowered.forall₂ fun one member func start stop later here =>
    accepted.preserves member here (Nat.le_trans le later)

end Accepted

end IntC
