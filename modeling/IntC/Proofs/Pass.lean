import IntC.Pass
import IntC.Tree.Parser

namespace IntC

/-- A failure that is due to the source, not to a broken promise between two passes. -/
def Error.isUser (error : Error) : Bool :=
  match error.cause with
  | .unsupportedInstruction _ => false
  | cause => cause.kind? ≠ some .internal

theorem Error.isUser_iff {error : Error} : error.isUser = true ↔
    error.cause.kind? ≠ some .internal ∧ ∀ shown, error.cause ≠ .unsupportedInstruction shown := by
  obtain ⟨cause, span⟩ := error
  cases cause with
  | unsupportedInstruction shown =>
    refine ⟨nofun, fun both => ?_⟩
    exact absurd rfl (both.2 shown)
  | _ => simp [Error.isUser, Cause.kind?]

abbrev Error.IsUser (error : Error) : Prop := error.isUser = true

/-- An outcome is as wanted: its result if it has one, and else its error. -/
def Meets {α : Type} (outcome : Except Error α) (done : α → Prop) (failed : Error → Prop) : Prop :=
  match outcome with
  | .ok a => done a
  | .error error => failed error

section Except
variable {α β : Type} {done : α → Prop} {failed : Error → Prop}

@[simp] theorem meets_ok {a : α} : Meets (.ok a) done failed ↔ done a := Iff.rfl

@[simp] theorem meets_pure {a : α} : Meets (pure a) done failed ↔ done a := Iff.rfl

@[simp] theorem meets_bind {outcome : Except Error β} {f : β → Except Error α} :
    Meets (outcome >>= f) done failed ↔ Meets outcome (fun b => Meets (f b) done failed) failed := by
  cases outcome <;> rfl

theorem Meets.mono {outcome : Except Error α} {more : α → Prop} (meets : Meets outcome done failed)
    (weaker : ∀ a, done a → more a) : Meets outcome more failed := by
  cases outcome with
  | ok a => exact weaker a meets
  | error error => exact meets

theorem Meets.imp {outcome : Except Error α} {more : α → Prop} {worse : Error → Prop} (meets : Meets outcome done failed)
    (result : ∀ a, done a → more a) (failure : ∀ error, failed error → worse error) : Meets outcome more worse := by
  cases outcome with
  | ok a => exact result a meets
  | error error => exact failure error meets

theorem eq_ok_of_toOption {outcome : Except Error α} {a : α} (found : outcome.toOption = some a) : outcome = .ok a := by
  cases outcome with
  | error => cases found
  | ok => exact congrArg Except.ok (Option.some.inj found)

end Except

/-- A step of a pass, taken in a state, turns out as wanted. -/
def Pass.Meets {σ α : Type} (pass : Pass σ α) (state : σ) (done : α → σ → Prop) (failed : Error → Prop) : Prop :=
  IntC.Meets (pass state).1 (fun a => done a (pass state).2) failed

namespace Pass
variable {σ α β : Type} {state : σ} {done : α → σ → Prop} {failed : Error → Prop}

variable {f : β → Pass σ α} {pass : Pass σ α}

@[simp] theorem meets_pure {a : α} : Meets (pure a) state done failed ↔ done a state := Iff.rfl

@[simp] theorem meets_fail {cause : Cause} {span : Span} :
    Meets (fail cause span) state done failed ↔ failed ⟨cause, span⟩ := Iff.rfl

@[simp] theorem meets_check {outcome : Except Error α} :
    Meets (check outcome) state done failed ↔ IntC.Meets outcome (done · state) failed := by
  cases outcome <;> rfl

@[simp] theorem meets_lift {step : StateM σ α} :
    Meets (liftM step) state done failed ↔ done (step state).1 (step state).2 := Iff.rfl

@[simp] theorem meets_get {done : σ → σ → Prop} : Meets get state done failed ↔ done state state := Iff.rfl

@[simp] theorem meets_modify {f : σ → σ} {done : Unit → σ → Prop} :
    Meets (modify f) state done failed ↔ done () (f state) := Iff.rfl

@[simp] theorem meets_modifyGet {f : σ → α × σ} :
    Meets (modifyGet f) state done failed ↔ done (f state).1 (f state).2 := Iff.rfl

@[simp] theorem meets_bind {pass : Pass σ β} :
    Meets (pass >>= f) state done failed ↔
      Meets pass state (fun b after => Meets (f b) after done failed) failed := by
  simp only [Meets, bind, ExceptT.bind, ExceptT.mk, StateT.bind]
  rcases pass state with ⟨_ | _, _⟩ <;> rfl

@[simp] theorem meets_map {pass : Pass σ β} {f : β → α} :
    Meets (f <$> pass) state done failed ↔ Meets pass state (fun b after => done (f b) after) failed := by
  rw [map_eq_pure_bind, meets_bind]
  rfl

theorem Meets.mono {pass : Pass σ α} {more : α → σ → Prop} (meets : Meets pass state done failed)
    (weaker : ∀ a after, done a after → more a after) : Meets pass state more failed :=
  IntC.Meets.mono meets fun a => weaker a _

theorem Meets.bind {pass : Pass σ β} {first : β → σ → Prop} (meets : Meets pass state first failed)
    (later : ∀ b after, first b after → Meets (f b) after done failed) : Meets (pass >>= f) state done failed :=
  meets_bind.mpr (meets.mono later)

/-- A step has a result if the first part of it has one, and then what follows. -/
theorem bind_eq_ok {pass : Pass σ β} {a : α} {after : σ} :
    (pass >>= f) state = (.ok a, after) ↔ ∃ b middle, pass state = (.ok b, middle) ∧ f b middle = (.ok a, after) := by
  simp only [bind, ExceptT.bind, ExceptT.mk, StateT.bind]
  rcases pass state with ⟨error | b, middle⟩
  · constructor
    · intro same
      cases same
    · rintro ⟨_, _, ⟨⟩, _⟩
  · constructor
    · exact fun same => ⟨b, middle, rfl, same⟩
    · rintro ⟨_, _, ⟨⟩, same⟩
      exact same

theorem Meets.exists_ok (meets : Meets pass state done fun _ => False) :
    ∃ a after, pass state = (.ok a, after) ∧ done a after := by
  unfold Meets at meets
  rcases outcome : pass state with ⟨error | a, after⟩ <;> rw [outcome] at meets
  · exact meets.elim
  · exact ⟨a, after, rfl, meets⟩

theorem Meets.relax (meets : Meets pass state done fun _ => False) : Meets pass state done failed := by
  obtain ⟨a, after, outcome, fine⟩ := meets.exists_ok
  unfold Meets
  rw [outcome]
  exact fine

theorem Meets.of_ok {a : α} {after : σ} (meets : Meets pass state done failed) (outcome : pass state = (.ok a, after)) :
    done a after := by
  unfold Meets at meets
  rw [outcome] at meets
  exact meets

theorem Meets.and {more : α → σ → Prop} (meets : Meets pass state done failed)
    (meetsToo : Meets pass state more fun _ => True) :
    Meets pass state (fun a after => done a after ∧ more a after) failed := by
  unfold Meets at meets meetsToo ⊢
  cases outcome : (pass state).1 <;> rw [outcome] at meets meetsToo
  · exact meets
  · exact ⟨meets, meetsToo⟩

theorem Meets.imp {pass : Pass σ α} {more : α → σ → Prop} {worse : Error → Prop} (meets : Meets pass state done failed)
    (result : ∀ a after, done a after → more a after) (failure : ∀ error, failed error → worse error) :
    Meets pass state more worse := by
  unfold Meets at meets ⊢
  cases outcome : (pass state).1 <;> rw [outcome] at meets
  · exact failure _ meets
  · exact result _ _ meets

/-- A step that ends in one way if a condition holds, and fails otherwise. -/
theorem Meets.eq_ok_iff {pass : Pass σ Unit} {last : σ} {good : Prop}
    (meets : Meets pass state (fun _ after => good ∧ after = last) fun _ => ¬good) (after : σ) :
    pass state = (.ok (), after) ↔ good ∧ after = last := by
  unfold Meets at meets
  rcases outcome : pass state with ⟨error | _, middle⟩ <;> rw [outcome] at meets
  · exact ⟨nofun, fun both => (meets both.1).elim⟩
  · obtain ⟨fine, rfl⟩ := meets
    constructor
    · rintro ⟨⟩
      exact ⟨fine, rfl⟩
    · rintro ⟨-, rfl⟩
      rfl

/-- A list is worked off if each of its elements is, in whatever state it is come to. -/
theorem meets_mapM {xs : List β} (each : ∀ b ∈ xs, ∀ state, Meets (f b) state (fun _ _ => True) failed) (state : σ) :
    Meets (xs.mapM f) state (fun _ _ => True) failed := by
  induction xs generalizing state with
  | nil => trivial
  | cons b rest ih =>
    obtain ⟨here, later⟩ := List.forall_mem_cons.mp each
    rw [List.mapM_cons]
    exact (here state).bind fun _ after _ => (ih later after).bind fun _ _ _ => trivial

end Pass

/-- A step of the parser, taken at a cursor, turns out as wanted. -/
def Parse.Meets {α : Type} (parse : Parse α) (cursor : Cursor) (done : α → Cursor → Prop) (failed : Error → Prop) :
    Prop :=
  IntC.Meets (parse cursor) (fun result => done result.1 result.2) failed

namespace Parse
variable {α β : Type} {cursor : Cursor} {done : α → Cursor → Prop} {failed : Error → Prop}

variable {parse : Parse β}

@[simp] theorem meets_pure {a : α} : Meets (pure a) cursor done failed ↔ done a cursor := Iff.rfl

@[simp] theorem meets_fail {cause : Cause} {span : Span} :
    Meets (fail cause span) cursor done failed ↔ failed ⟨cause, span⟩ := Iff.rfl

@[simp] theorem meets_current {done : Token → Cursor → Prop} :
    Meets current cursor done failed ↔ done cursor.current cursor := Iff.rfl

@[simp] theorem meets_advance {done : Unit → Cursor → Prop} :
    Meets advance cursor done failed ↔ done () cursor.advance := Iff.rfl

@[simp] theorem meets_get {done : Cursor → Cursor → Prop} :
    Meets get cursor done failed ↔ done cursor cursor := Iff.rfl

@[simp] theorem meets_set {after : Cursor} {done : PUnit → Cursor → Prop} :
    Meets (set after) cursor done failed ↔ done () after := Iff.rfl

@[simp] theorem meets_lift {outcome : Except Error α} :
    Meets (liftM outcome) cursor done failed ↔ IntC.Meets outcome (done · cursor) failed := by
  cases outcome <;> rfl

@[simp] theorem meets_bind {f : β → Parse α} :
    Meets (parse >>= f) cursor done failed ↔
      Meets parse cursor (fun b after => Meets (f b) after done failed) failed := by
  simp only [Meets, bind, StateT.bind]
  cases parse cursor <;> rfl

@[simp] theorem meets_map {f : β → α} :
    Meets (f <$> parse) cursor done failed ↔ Meets parse cursor (fun b after => done (f b) after) failed := by
  rw [map_eq_pure_bind, meets_bind]
  rfl

theorem Meets.mono {parse : Parse α} {more : α → Cursor → Prop} (meets : Meets parse cursor done failed)
    (weaker : ∀ a after, done a after → more a after) : Meets parse cursor more failed :=
  IntC.Meets.mono meets fun result => weaker result.1 result.2

theorem Meets.bind {f : β → Parse α} {first : β → Cursor → Prop} (meets : Meets parse cursor first failed)
    (later : ∀ b after, first b after → Meets (f b) after done failed) : Meets (parse >>= f) cursor done failed :=
  meets_bind.mpr (meets.mono later)

end Parse

end IntC
