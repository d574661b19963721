import Mathlib.Data.List.Forall2
import Mathlib.Logic.Relation

namespace IntC

/-- One system follows another: whatever step the first makes from a related state, the second gets in
some steps to a state related to the next one. -/
def Follows {α β : Type*} (related : α → β → Prop) (step : α → α → Prop) (move : β → β → Prop) : Prop :=
  ∀ ⦃a b next⦄, related a b → step a next → ∃ after, Relation.ReflTransGen move b after ∧ related next after

/-- A run of the first system, as the list of its states, has a companion: a list of states of the
second one, each reached from the one before, that is related to it state by state. -/
theorem Follows.run {α β : Type*} {related : α → β → Prop} {step : α → α → Prop} {move : β → β → Prop}
    (follows : Follows related step move) {a : α} {b : β} (start : related a b) {states : List α}
    (run : (a :: states).IsChain step) :
    ∃ companions, (b :: companions).IsChain (Relation.ReflTransGen move) ∧
      List.Forall₂ related (a :: states) (b :: companions) := by
  induction states generalizing a b with
  | nil => exact ⟨[], .singleton b, .cons start .nil⟩
  | cons next rest ih =>
    obtain ⟨first, others⟩ := List.isChain_cons_cons.mp run
    obtain ⟨after, moves, still⟩ := follows start first
    obtain ⟨companions, chain, pointwise⟩ := ih still others
    exact ⟨after :: companions, .cons_cons moves chain, .cons start pointwise⟩

/-- A state that a system never leaves. -/
def Final {β : Type*} (move : β → β → Prop) (b : β) : Prop := ∀ after, ¬move b after

theorem Final.eq_of_reach {β : Type*} {move : β → β → Prop} {last after : β} (final : Final move last)
    (run : Relation.ReflTransGen move last after) : after = last := by
  rcases run.cases_head with same | ⟨next, first, _⟩
  · exact same.symm
  · exact absurd first (final next)

/-- Where no state has two successors, a run to a final state passes every state that can be reached. -/
theorem Final.reach {β : Type*} {move : β → β → Prop} {b last after : β} (final : Final move last)
    (unique : Relator.RightUnique move) (run : Relation.ReflTransGen move b last)
    (other : Relation.ReflTransGen move b after) : Relation.ReflTransGen move after last := by
  rcases Relation.ReflTransGen.total_of_right_unique unique run other with beyond | before
  · rw [final.eq_of_reach beyond]
  · exact before

theorem Final.acc {β : Type*} {move : β → β → Prop} {b last : β} (final : Final move last)
    (unique : Relator.RightUnique move) (run : Relation.ReflTransGen move b last) : Acc (fun x y => move y x) b := by
  induction run using Relation.ReflTransGen.head_induction_on with
  | refl => exact ⟨_, fun after moved => absurd moved (final after)⟩
  | head first _ ih => exact ⟨_, fun after moved => unique first moved ▸ ih⟩

/-- One system keeps up with another: it follows, and it moves with every step that does not lower the
rank. -/
def Tracks {α β : Type*} (related : α → β → Prop) (rank : α → Nat) (step : α → α → Prop) (move : β → β → Prop) : Prop :=
  ∀ ⦃a b next⦄, related a b → step a next →
    ∃ after, related next after ∧ (Relation.TransGen move b after ∨ after = b ∧ rank next < rank a)

section Tracks
variable {α β : Type*} {related : α → β → Prop} {rank : α → Nat} {step : α → α → Prop} {move : β → β → Prop}

theorem Tracks.follows (tracks : Tracks related rank step move) : Follows related step move := by
  intro a b next start first
  obtain ⟨after, still, moved | ⟨rfl, -⟩⟩ := tracks start first
  · exact ⟨after, moved.to_reflTransGen, still⟩
  · exact ⟨after, .refl, still⟩

/-- A run of the second system to a final state stems from a run of the first one that gets done, if the
first one can always go on until it is done. -/
theorem Tracks.back {done : α → Prop} (tracks : Tracks related rank step move) (unique : Relator.RightUnique move)
    {last : β} (final : Final move last)
    (progress : ∀ ⦃a b⦄, related a b → Relation.ReflTransGen move b last → (∃ next, step a next) ∨ done a)
    {a : α} {b : β} (start : related a b) (run : Relation.ReflTransGen move b last) :
    ∃ c d, Relation.ReflTransGen step a c ∧ done c ∧ related c d ∧ Relation.ReflTransGen move d last := by
  -- Every move brings the end of the run nearer, and without a move the rank goes down.
  induction (final.acc unique run).transGen generalizing a with
  | intro b _ nearer =>
    induction size : rank a using Nat.strongRecOn generalizing a with
    | ind size lower =>
      rcases progress start run with ⟨next, first⟩ | finished
      · obtain ⟨after, still, moved | ⟨rfl, less⟩⟩ := tracks start first
        · have onward := final.reach unique run moved.to_reflTransGen
          obtain ⟨c, d, reached, there⟩ := nearer after (Relation.transGen_swap.mpr moved) still onward
          exact ⟨c, d, .head first reached, there⟩
        · obtain ⟨c, d, reached, there⟩ := lower _ (size ▸ less) still rfl
          exact ⟨c, d, .head first reached, there⟩
      · exact ⟨a, b, .refl, finished, start, run⟩

end Tracks

end IntC
