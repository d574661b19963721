import Mathlib.Data.List.Forall2

namespace IntC

section Except
variable {ε α β : Type} {f : α → Except ε β} {xs : List α}

theorem bind_eq_ok {x : Except ε α} {g : α → Except ε β} {result : β} :
    (x >>= g) = .ok result ↔ ∃ a, x = .ok a ∧ g a = .ok result := by
  cases x with
  | error error => exact ⟨nofun, fun ⟨_, same, _⟩ => nomatch same⟩
  | ok a => exact ⟨fun done => ⟨a, rfl, done⟩, fun ⟨_, same, done⟩ => Except.ok.inj same ▸ done⟩

theorem pure_eq_ok {a result : α} : (pure a : Except ε α) = .ok result ↔ a = result :=
  ⟨Except.ok.inj, congrArg Except.ok⟩

theorem exists_ok_of_toBool {outcome : Except ε α} (fine : outcome.toBool = true) : ∃ a, outcome = .ok a := by
  cases outcome with
  | ok a => exact ⟨a, rfl⟩
  | error error => cases fine

theorem mapM_cons_eq_ok {a : α} {ys : List β} :
    (a :: xs).mapM f = .ok ys ↔ ∃ b bs, f a = .ok b ∧ xs.mapM f = .ok bs ∧ ys = b :: bs := by
  rw [List.mapM_cons]
  constructor
  · intro done
    obtain ⟨b, first, rest⟩ := bind_eq_ok.mp done
    obtain ⟨bs, others, same⟩ := bind_eq_ok.mp rest
    exact ⟨b, bs, first, others, (pure_eq_ok.mp same).symm⟩
  · rintro ⟨b, bs, first, others, rfl⟩
    exact bind_eq_ok.mpr ⟨b, first, bind_eq_ok.mpr ⟨bs, others, rfl⟩⟩

/-- Going through a list succeeds where each of its elements does, and gives their results. -/
theorem mapM_ok_iff {ys : List β} : xs.mapM f = .ok ys ↔ List.Forall₂ (fun a b => f a = .ok b) xs ys := by
  induction xs generalizing ys with
  | nil => rw [List.mapM_nil, pure_eq_ok, List.forall₂_nil_left_iff, eq_comm]
  | cons a rest ih => simp only [mapM_cons_eq_ok, ih, List.forall₂_cons_left_iff, exists_and_left]

theorem exists_ok_of_mapM {ys : List β} (done : xs.mapM f = .ok ys) {a : α} (member : a ∈ xs) :
    ∃ b ∈ ys, f a = .ok b := by
  obtain ⟨i, bound, rfl⟩ := List.getElem_of_mem member
  have each := mapM_ok_iff.mp done
  have within : i < ys.length := each.length_eq ▸ bound
  exact ⟨ys[i], List.getElem_mem within, each.get bound within⟩

theorem exists_of_mem_mapM {ys : List β} (done : xs.mapM f = .ok ys) {b : β} (member : b ∈ ys) :
    ∃ a ∈ xs, f a = .ok b := by
  obtain ⟨i, bound, rfl⟩ := List.getElem_of_mem member
  have each := mapM_ok_iff.mp done
  have within : i < xs.length := each.length_eq ▸ bound
  exact ⟨xs[i], List.getElem_mem within, each.get within bound⟩

theorem mapM_ok_map {g : α → β} (each : ∀ a ∈ xs, f a = .ok (g a)) : xs.mapM f = .ok (xs.map g) := by
  rw [mapM_ok_iff, List.forall₂_map_right_iff, List.forall₂_same]
  exact each

/-- The error of a list is the error of one of its elements. -/
theorem exists_of_mapM_error {error : ε} (failed : xs.mapM f = .error error) : ∃ a ∈ xs, f a = .error error := by
  induction xs with
  | nil => cases failed
  | cons a rest ih =>
    rw [List.mapM_cons] at failed
    cases first : f a with
    | error e =>
      rw [first] at failed
      cases failed
      exact ⟨a, List.mem_cons_self, first⟩
    | ok b =>
      cases others : rest.mapM f with
      | error e =>
        rw [first, others] at failed
        cases failed
        obtain ⟨x, member, same⟩ := ih others
        exact ⟨x, List.mem_cons_of_mem _ member, same⟩
      | ok bs =>
        rw [first, others] at failed
        cases failed

theorem mapM_error_iff : (∃ error, xs.mapM f = .error error) ↔ ∃ a ∈ xs, ∃ error, f a = .error error := by
  constructor
  · rintro ⟨error, failed⟩
    obtain ⟨a, member, same⟩ := exists_of_mapM_error failed
    exact ⟨a, member, error, same⟩
  · rintro ⟨a, member, error, failed⟩
    cases whole : xs.mapM f with
    | error other => exact ⟨other, rfl⟩
    | ok ys =>
      obtain ⟨b, _, fine⟩ := exists_ok_of_mapM whole member
      rw [failed] at fine
      cases fine

theorem exists_mapM_eq_ok (each : ∀ a ∈ xs, ∃ b, f a = .ok b) : ∃ ys, xs.mapM f = .ok ys := by
  cases whole : xs.mapM f with
  | ok ys => exact ⟨ys, rfl⟩
  | error error =>
    obtain ⟨a, member, other, failed⟩ := mapM_error_iff.mp ⟨error, whole⟩
    obtain ⟨b, fine⟩ := each a member
    rw [failed] at fine
    cases fine

end Except

theorem exists_of_mem_right {α β : Type} {related : α → β → Prop} {xs : List α} {ys : List β}
    (all : List.Forall₂ related xs ys) {b : β} (member : b ∈ ys) : ∃ a ∈ xs, related a b := by
  induction all with
  | nil => cases member
  | cons here _ ih =>
    rcases List.mem_cons.mp member with rfl | later
    · exact ⟨_, List.mem_cons_self, here⟩
    · obtain ⟨a, among, related⟩ := ih later
      exact ⟨a, List.mem_cons_of_mem _ among, related⟩

theorem exists_of_mem_zipWith {α β γ : Type} {f : α → β → γ} {xs : List α} {ys : List β} {c : γ}
    (member : c ∈ List.zipWith f xs ys) : ∃ a ∈ xs, ∃ b ∈ ys, c = f a b := by
  obtain ⟨i, found⟩ := List.mem_iff_getElem?.mp member
  obtain ⟨a, b, atA, atB, same⟩ := List.getElem?_zipWith_eq_some.mp found
  exact ⟨a, List.mem_of_getElem? atA, b, List.mem_of_getElem? atB, same.symm⟩

/-- Every result of going through a list with a state is the result of one element in some state. -/
theorem exists_of_mem_mapM_state {σ α β : Type} {f : α → StateM σ β} {xs : List α} {state : σ} {b : β}
    (member : b ∈ (xs.mapM f state).1) : ∃ a ∈ xs, ∃ before, b = (f a before).1 := by
  induction xs generalizing state with
  | nil => cases member
  | cons a rest ih =>
    rw [List.mapM_cons] at member
    rcases List.mem_cons.mp member with same | later
    · exact ⟨a, List.mem_cons_self, state, same⟩
    · obtain ⟨x, inside, before, same⟩ := ih later
      exact ⟨x, List.mem_cons_of_mem _ inside, before, same⟩

end IntC
