import IntC.Proofs.Name
import IntC.Proofs.Pass

namespace IntC

namespace NameSupply

def advance (supply : NameSupply) (count : Nat) : NameSupply := ⟨supply.next + count⟩

/-- The names given out for the stems, one after the other. -/
def give (supply : NameSupply) (stems : List String) : List String := supply.run (stems.map some)

theorem give_cons (supply : NameSupply) (stem : String) (rest : List String) :
    supply.give (stem :: rest) = (supply.fresh stem).1 :: (supply.advance 1).give rest := rfl

theorem advance_add (supply : NameSupply) (count more : Nat) :
    (supply.advance count).advance more = supply.advance (count + more) := by
  rw [advance, advance, advance, Nat.add_assoc]

theorem give_append (supply : NameSupply) (stems more : List String) :
    supply.give (stems ++ more) = supply.give stems ++ (supply.advance stems.length).give more := by
  induction stems generalizing supply with
  | nil => rfl
  | cons stem rest ih =>
    rw [List.cons_append, give_cons, give_cons, ih, advance_add, List.cons_append, List.length_cons, Nat.add_comm 1]

@[simp] theorem length_give (supply : NameSupply) (stems : List String) : (supply.give stems).length = stems.length := by
  induction stems generalizing supply with
  | nil => rfl
  | cons stem rest ih => rw [give_cons, List.length_cons, List.length_cons, ih]

theorem fresh_give (supply : NameSupply) (stems : List String) :
    Fresh supply.next (supply.next + stems.length) (supply.give stems) := by
  induction stems generalizing supply with
  | nil => exact .nil Nat.le.refl
  | cons stem rest ih =>
    have later := ih (supply.advance 1)
    rw [List.length_cons, Nat.add_comm rest.length, ← Nat.add_assoc]
    exact later.cons stem

end NameSupply

/-- A step asks for names with the given stems. If it has a result, it has been given all of them, and the result is as
wanted; if it fails, it has been given the first few. -/
def Pass.Draws {σ α : Type} (view : σ → NameSupply) (pass : Pass σ α) (state : σ) (stems : List String)
    (done : α → List String → σ → Prop) : Prop :=
  match (pass state).1 with
  | .ok a => view (pass state).2 = (view state).advance stems.length ∧ done a ((view state).give stems) (pass state).2
  | .error _ => ∃ count, count ≤ stems.length ∧ view (pass state).2 = (view state).advance count

namespace Pass
variable {σ α β : Type} {view : σ → NameSupply} {state : σ} {stems more : List String}
  {done : α → List String → σ → Prop}

theorem draws_pure {a : α} (fine : done a [] state) : Draws view (pure a) state [] done := ⟨rfl, fine⟩

theorem draws_fail (cause : Cause) (span : Span) : Draws view (fail cause span) state stems done :=
  ⟨0, Nat.zero_le _, rfl⟩

theorem draws_breach (what : Breach) : Draws view (breach what) state stems done :=
  ⟨0, Nat.zero_le _, rfl⟩

theorem Draws.mono {pass : Pass σ α} {done' : α → List String → σ → Prop} (draws : Draws view pass state stems done)
    (weaker : ∀ a given after, done a given after → done' a given after) : Draws view pass state stems done' := by
  unfold Draws at draws ⊢
  generalize pass state = result at draws ⊢
  obtain ⟨_ | a, after⟩ := result
  · exact draws
  · exact ⟨draws.1, weaker _ _ _ draws.2⟩

theorem Draws.bind {pass : Pass σ β} {f : β → Pass σ α} {first : β → List String → σ → Prop}
    (draws : Draws view pass state stems first)
    (later : ∀ b given after, first b given after →
      Draws view (f b) after more fun a others last => done a (given ++ others) last) :
    Draws view (pass >>= f) state (stems ++ more) done := by
  unfold Draws at draws ⊢
  simp only [Bind.bind, ExceptT.bind, ExceptT.mk, StateT.bind]
  generalize pass state = result at draws ⊢
  obtain ⟨error | b, after⟩ := result
  · obtain ⟨count, few, same⟩ := draws
    exact ⟨count, by rw [List.length_append]; omega, same⟩
  · obtain ⟨moved, fine⟩ := draws
    have rest := later b _ after fine
    unfold Draws at rest
    rw [moved] at rest
    simp only [ExceptT.bindCont]
    generalize f b after = result at rest ⊢
    obtain ⟨error | a, last⟩ := result
    · obtain ⟨count, few, same⟩ := rest
      refine ⟨stems.length + count, by rw [List.length_append]; omega, ?_⟩
      rw [← NameSupply.advance_add]
      exact same
    · rw [NameSupply.advance_add, ← List.length_append] at rest
      refine ⟨rest.1, ?_⟩
      rw [NameSupply.give_append]
      exact rest.2

theorem Draws.map {pass : Pass σ β} {f : β → α} (draws : Draws view pass state stems fun b => done (f b)) :
    Draws view (pass >>= fun b => pure (f b)) state stems done := by
  rw [← List.append_nil stems]
  refine draws.bind fun b given after fine => draws_pure ?_
  rwa [List.append_nil]

theorem draws_check {outcome : Except Error β} {f : β → Pass σ α} {first : β → Prop}
    (meets : IntC.Meets outcome first fun _ => True) (later : ∀ b, first b → Draws view (f b) state stems done) :
    Draws view (check outcome >>= f) state stems done := by
  cases outcome with
  | error error => exact ⟨0, Nat.zero_le _, rfl⟩
  | ok b => exact later b meets

/-- In the same way where nothing is needed of the result but where it comes from. -/
theorem draws_check_self {outcome : Except Error β} {f : β → Pass σ α}
    (later : ∀ b, outcome = .ok b → Draws view (f b) state stems done) :
    Draws view (check outcome >>= f) state stems done := by
  cases outcome with
  | error error => exact ⟨0, Nat.zero_le _, rfl⟩
  | ok b => exact later b rfl

/-- What comes behind a test is come to only if the test does not fail. -/
theorem draws_guard {cond : Prop} [Decidable cond] {cause : Cause} {span : Span} {rest : PUnit → Pass σ α}
    (later : ¬cond → Draws view (rest ()) state stems done) :
    Draws view (if cond then fail cause span >>= rest else rest ()) state stems done := by
  split
  · exact draws_fail cause span
  · exact later ‹_›

theorem Draws.of_ok {pass : Pass σ α} {a : α} {after : σ} (draws : Draws view pass state stems done)
    (outcome : pass state = (.ok a, after)) :
    view after = (view state).advance stems.length ∧ done a ((view state).give stems) after := by
  unfold Draws at draws
  rw [outcome] at draws
  exact draws

/-- However a step ends, the names it was given are the first few of those it asks for. -/
theorem Draws.exists_count {pass : Pass σ α} (draws : Draws view pass state stems done) :
    ∃ count, count ≤ stems.length ∧ view (pass state).2 = (view state).advance count := by
  unfold Draws at draws
  generalize pass state = result at draws ⊢
  obtain ⟨error | a, after⟩ := result
  · exact draws
  · exact ⟨stems.length, Nat.le.refl, draws.1⟩

end Pass

theorem draws_fresh {α : Type} {f : String → Pass NameSupply α} {names : NameSupply} {stem : String}
    {stems : List String} {done : α → List String → NameSupply → Prop}
    (later : ∀ name, Pass.Draws id (f name) (names.advance 1) stems fun a others => done a (name :: others)) :
    Pass.Draws id (modifyGet (fun names => NameSupply.fresh names stem) >>= f) names (stem :: stems) done := by
  have one : Pass.Draws id (modifyGet fun names => NameSupply.fresh names stem : Pass NameSupply String) names [stem]
      fun name given after => given = [name] ∧ after = names.advance 1 := ⟨rfl, rfl, rfl⟩
  change Pass.Draws id _ names ([stem] ++ stems) done
  refine one.bind ?_
  rintro name _ _ ⟨rfl, rfl⟩
  exact later name

end IntC
