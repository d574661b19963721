import IntC.Pass

namespace IntC

/-- Two outcomes go together: both are results, or both are errors. -/
def Alike {α β : Type} (left : Except Error α) (right : Except Error β) (done : α → β → Prop)
    (failed : Error → Error → Prop) : Prop :=
  match left, right with
  | .ok a, .ok b => done a b
  | .error e, .error f => failed e f
  | _, _ => False

section Except
variable {α β γ δ : Type} {done : α → β → Prop} {failed : Error → Error → Prop}

@[simp] theorem alike_pure {a : α} {b : β} : Alike (pure a) (pure b) done failed ↔ done a b := Iff.rfl

theorem Alike.bind {left : Except Error γ} {right : Except Error δ} {f : γ → Except Error α} {g : δ → Except Error β}
    {first : γ → δ → Prop} (alike : Alike left right first failed)
    (later : ∀ c d, first c d → Alike (f c) (g d) done failed) : Alike (left >>= f) (right >>= g) done failed := by
  cases left <;> cases right
  · exact alike
  · exact alike.elim
  · exact alike.elim
  · exact later _ _ alike

theorem Alike.mono {left : Except Error α} {right : Except Error β} {more : α → β → Prop}
    (alike : Alike left right done failed) (weaker : ∀ a b, done a b → more a b) : Alike left right more failed := by
  cases left <;> cases right
  · exact alike
  · exact alike.elim
  · exact alike.elim
  · exact weaker _ _ alike

theorem Alike.refl {outcome : Except Error α} {done : α → α → Prop} (fine : ∀ a, done a a)
    (bad : ∀ error, failed error error) : Alike outcome outcome done failed := by
  cases outcome with
  | ok a => exact fine a
  | error error => exact bad error

end Except

/-- Two steps, each taken in a state of its own, go together: both have a result or both fail, and what they have
done to their states is as wanted either way. -/
def Pass.Alike {σ τ α β : Type} (left : Pass σ α) (right : Pass τ β) (state : σ) (other : τ)
    (done : α → σ → β → τ → Prop) (failed : Error → σ → Error → τ → Prop) : Prop :=
  IntC.Alike (left state).1 (right other).1 (fun a b => done a (left state).2 b (right other).2)
    fun e f => failed e (left state).2 f (right other).2

namespace Pass
variable {σ τ α β γ δ : Type} {state : σ} {other : τ} {done : α → σ → β → τ → Prop}
  {failed : Error → σ → Error → τ → Prop}

variable {left : Pass σ α}

theorem alike_check {left : Except Error α} {right : Except Error β}
    (alike : IntC.Alike left right (fun a b => done a state b other) fun e f => failed e state f other) :
    Alike (check left) (check right) state other done failed := by
  cases left <;> cases right
  · exact alike
  · exact alike.elim
  · exact alike.elim
  · exact alike

theorem Alike.bind {left : Pass σ γ} {right : Pass τ δ} {f : γ → Pass σ α} {g : δ → Pass τ β}
    {first : γ → σ → δ → τ → Prop} (alike : Alike left right state other first failed)
    (later : ∀ c after d beyond, first c after d beyond → Alike (f c) (g d) after beyond done failed) :
    Alike (left >>= f) (right >>= g) state other done failed := by
  unfold Alike at alike ⊢
  simp only [Bind.bind, ExceptT.bind, ExceptT.mk, StateT.bind]
  generalize left state = result at alike ⊢
  generalize right other = result' at alike ⊢
  obtain ⟨_ | c, after⟩ := result <;> obtain ⟨_ | d, beyond⟩ := result'
  · exact alike
  · exact alike.elim
  · exact alike.elim
  · exact later c after d beyond alike

theorem alike_get_right {right : τ → Pass τ β} :
    Alike left (get >>= right) state other done failed ↔ Alike left (right other) state other done failed := Iff.rfl

theorem alike_modify_right {change : τ → τ} {right : PUnit → Pass τ β} :
    Alike left (modify change >>= right) state other done failed ↔
      Alike left (right ()) state (change other) done failed := Iff.rfl

theorem Alike.mono {right : Pass τ β} {more : α → σ → β → τ → Prop} (alike : Alike left right state other done failed)
    (weaker : ∀ a after b beyond, done a after b beyond → more a after b beyond) :
    Alike left right state other more failed :=
  IntC.Alike.mono alike fun a b => weaker a _ b _

end Pass

/-- Errors of the same kind at the same place. The names in their messages may differ. -/
def Error.Like (error other : Error) : Prop := other.cause.kind? = error.cause.kind? ∧ other.span = error.span

theorem Error.Like.refl (error : Error) : error.Like error := ⟨rfl, rfl⟩

/-- One step follows another if it does the same to the image of a state: it has the image of the result, or it fails
with an error like the other one, and either way it leaves the image of the state behind. -/
def Pass.Follows {σ τ α β : Type} (left : Pass σ α) (right : Pass τ β) (state : σ) (move : σ → τ) (image : α → β) : Prop :=
  Alike left right state (move state) (fun a after b beyond => b = image a ∧ beyond = move after)
    fun e after f beyond => e.Like f ∧ beyond = move after

namespace Pass
variable {σ τ α β γ δ : Type} {state : σ} {move : σ → τ} {image : α → β}

variable {left : Pass σ γ} {right : Pass τ δ} {view : γ → δ}

theorem follows_pure {a : α} {b : β} (same : b = image a) : Follows (pure a) (pure b) state move image := ⟨same, rfl⟩

theorem follows_fail {cause cause' : Cause} {span : Span} (kind : cause'.kind? = cause.kind?) :
    Follows (fail cause span) (fail cause' span) state move image := ⟨⟨kind, rfl⟩, rfl⟩

theorem follows_breach {what what' : Breach} : Follows (breach what) (breach what') state move image :=
  ⟨⟨rfl, rfl⟩, rfl⟩

theorem follows_check {left : Except Error α} {right : Except Error β}
    (alike : IntC.Alike left right (fun a b => b = image a) Error.Like) :
    Follows (check left) (check right) state move image := by
  cases left <;> cases right
  · exact ⟨alike, rfl⟩
  · exact alike.elim
  · exact alike.elim
  · exact ⟨alike, rfl⟩

theorem follows_get {f : σ → Pass σ α} {g : τ → Pass τ β}
    (later : Follows (f state) (g (move state)) state move image) :
    Follows (get >>= f) (get >>= g) state move image := later

theorem follows_modify {change : σ → σ} {change' : τ → τ} (same : change' (move state) = move (change state)) :
    Follows (modify change) (modify change') state move id := ⟨rfl, same⟩

/-- What stands behind two steps that go together, where the second is known to follow the first. -/
theorem Follows.andThen {f : γ → Pass σ α} {g : δ → Pass τ β} {done : α → σ → β → τ → Prop}
    (follows : Follows left right state move view)
    (later : ∀ c after, left state = (.ok c, after) → Alike (f c) (g (view c)) after (move after) done
      fun e last f beyond => e.Like f ∧ beyond = move last) :
    Alike (left >>= f) (right >>= g) state (move state) done fun e after f beyond => e.Like f ∧ beyond = move after := by
  unfold Follows Alike at follows
  unfold Alike at later ⊢
  simp only [Bind.bind, ExceptT.bind, ExceptT.mk, StateT.bind]
  generalize outcome : left state = result at follows ⊢
  generalize right (move state) = result' at follows ⊢
  obtain ⟨_ | c, after⟩ := result <;> obtain ⟨_ | d, beyond⟩ := result'
  · exact follows
  · exact follows.elim
  · exact follows.elim
  · obtain ⟨rfl, rfl⟩ := follows
    exact later c after outcome

theorem Follows.bind {f : γ → Pass σ α} {g : δ → Pass τ β} (follows : Follows left right state move view)
    (later : ∀ c after, left state = (.ok c, after) → Follows (f c) (g (view c)) after move image) :
    Follows (left >>= f) (right >>= g) state move image := follows.andThen later

theorem Follows.map {f : γ → α} {g : δ → β} (follows : Follows left right state move view)
    (same : ∀ c, g (view c) = image (f c)) : Follows (do return f (← left)) (do return g (← right)) state move image :=
  follows.bind fun c _ _ => follows_pure (same c)

/-- What comes behind a test is come to only if the test does not fail. -/
theorem follows_guard {cond cond' : Prop} [Decidable cond] [Decidable cond'] {cause cause' : Cause} {span : Span}
    {rest : PUnit → Pass σ α} {rest' : PUnit → Pass τ β} (same : cond' ↔ cond) (kind : cause'.kind? = cause.kind?)
    (later : ¬cond → Follows (rest ()) (rest' ()) state move image) :
    Follows (if cond then fail cause span >>= rest else rest ()) (if cond' then fail cause' span >>= rest' else rest' ())
      state move image := by
  by_cases holds : cond
  · rw [if_pos holds, if_pos (same.mpr holds)]
    exact ⟨⟨kind, rfl⟩, rfl⟩
  · rw [if_neg holds, if_neg (mt same.mp holds)]
    exact later holds

/-- A step that is one part of a state's work: it has the outcome of the part, and the rest of the state goes along. -/
theorem Follows.within {ρ υ : Type} {left : Pass σ α} {right : Pass τ β} {outer : Pass ρ α} {outer' : Pass υ β} {whole : ρ}
    {wide : ρ → υ} (follows : Follows left right state move image) (same : (outer whole).1 = (left state).1)
    (same' : (outer' (wide whole)).1 = (right (move state)).1)
    (along : (right (move state)).2 = move (left state).2 → (outer' (wide whole)).2 = wide (outer whole).2) :
    Follows outer outer' whole wide image := by
  unfold Follows Alike at follows ⊢
  rw [same, same']
  cases one : (left state).1 <;> cases two : (right (move state)).1 <;> rw [one, two] at follows
  · exact ⟨follows.1, along follows.2⟩
  · exact follows.elim
  · exact follows.elim
  · exact ⟨follows.1, along follows.2⟩

end Pass

end IntC
