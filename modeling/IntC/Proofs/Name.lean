import IntC.Name
import Mathlib.Data.List.Basic

namespace IntC

variable {number number' first last : Nat} {name : String} {names : List String}

def Spelled (name : String) : Prop := '.' ∉ name.toList

/-- A name that was given out with the given number. -/
def Numbered (number : Nat) (name : String) : Prop := ∃ stem, name = stem ++ "." ++ toString number

/-- A name that was given out in between, from the first number up to the last one. -/
def Minted (first last : Nat) (name : String) : Prop := ∃ number, first ≤ number ∧ number < last ∧ Numbered number name

/-- A name that is not given out from the given number on. -/
def Before (bound : Nat) (name : String) : Prop := ∀ number, Numbered number name → number < bound

theorem number_toList (number : Nat) : (toString number).toList = Nat.toDigits 10 number := by
  rw [show toString number = Nat.repr number from rfl, Nat.repr_eq_ofList_toDigits, String.toList_ofList]

theorem dot_not_mem_number (number : Nat) : '.' ∉ (toString number).toList := by
  intro member
  rw [number_toList] at member
  have digit := Nat.isDigit_of_mem_toDigits (by decide) (by decide) member
  cases digit

theorem number_inj (same : (toString number).toList = (toString number').toList) : number = number' := by
  rw [number_toList, number_toList] at same
  have read := congrArg (Nat.ofDigitChars 10 · 0) same
  simpa only [Nat.ofDigitChars_toDigits (by decide : 1 < 10) (by decide : 10 ≤ 10)] using read

theorem numbered_toList (stem : String) (number : Nat) :
    (stem ++ "." ++ toString number).toList = stem.toList ++ '.' :: (toString number).toList := by
  simp [String.toList_append]

theorem append_dot_inj {before after before' after' : List Char} (free : '.' ∉ after) (free' : '.' ∉ after')
    (same : before ++ '.' :: after = before' ++ '.' :: after') : before = before' ∧ after = after' := by
  rcases List.append_eq_append_iff.mp same with ⟨middle, rfl, tails⟩ | ⟨middle, rfl, tails⟩
  · cases middle with
    | nil => exact ⟨(List.append_nil _).symm, by simpa using tails⟩
    | cons c rest =>
      rw [List.cons_append, List.cons.injEq] at tails
      exact absurd (tails.2 ▸ List.mem_append_right rest List.mem_cons_self) free
  · cases middle with
    | nil => exact ⟨List.append_nil _, by simpa using tails.symm⟩
    | cons c rest =>
      rw [List.cons_append, List.cons.injEq] at tails
      exact absurd (tails.2 ▸ List.mem_append_right rest List.mem_cons_self) free'

theorem numbered_inj {stem stem' : String} (same : stem ++ "." ++ toString number = stem' ++ "." ++ toString number') :
    stem = stem' ∧ number = number' := by
  have lists := congrArg String.toList same
  rw [numbered_toList, numbered_toList] at lists
  obtain ⟨stems, numbers⟩ := append_dot_inj (dot_not_mem_number number) (dot_not_mem_number number') lists
  exact ⟨String.toList_inj.mp stems, number_inj numbers⟩

theorem Numbered.unique (first : Numbered number name) (second : Numbered number' name) : number = number' := by
  obtain ⟨stem, rfl⟩ := first
  obtain ⟨stem', same⟩ := second
  exact (numbered_inj same).2

theorem numbered_fresh (stem : String) (supply : NameSupply) : Numbered supply.next (supply.fresh stem).1 :=
  ⟨stem, rfl⟩

theorem Numbered.not_spelled (numbered : Numbered number name) : ¬Spelled name := by
  obtain ⟨stem, rfl⟩ := numbered
  intro spelled
  apply spelled
  rw [numbered_toList]
  exact List.mem_append_right _ List.mem_cons_self

theorem Minted.not_spelled (minted : Minted first last name) : ¬Spelled name := by
  obtain ⟨number, -, -, numbered⟩ := minted
  exact numbered.not_spelled

theorem Minted.mono {first' last' : Nat} (minted : Minted first last name) (lower : first' ≤ first)
    (upper : last ≤ last') : Minted first' last' name := by
  obtain ⟨number, after, before, numbered⟩ := minted
  exact ⟨number, Nat.le_trans lower after, Nat.lt_of_lt_of_le before upper, numbered⟩

theorem Spelled.before (spelled : Spelled name) (bound : Nat) : Before bound name :=
  fun _ numbered => absurd spelled numbered.not_spelled

theorem Minted.before (minted : Minted first last name) : Before last name := by
  obtain ⟨number, -, before, numbered⟩ := minted
  intro other same
  exact numbered.unique same ▸ before

theorem Before.mono {bound bound' : Nat} (before : Before bound name) (more : bound ≤ bound') :
    Before bound' name := fun number numbered => Nat.lt_of_lt_of_le (before number numbered) more

/-- Names of which none is given out from the given number on. -/
def AllBefore (bound : Nat) (names : List String) : Prop := ∀ name ∈ names, Before bound name

theorem AllBefore.mono {bound bound' : Nat} (old : AllBefore bound names) (more : bound ≤ bound') :
    AllBefore bound' names := fun name member => (old name member).mono more

theorem Minted.ne_before {other : String} (minted : Minted first last name) (before : Before first other) :
    name ≠ other := by
  rintro rfl
  obtain ⟨number, after, -, numbered⟩ := minted
  exact absurd (before number numbered) (Nat.not_lt.mpr after)

/-- Names given out one after the other, between the first number and the last one. -/
structure Fresh (first last : Nat) (names : List String) : Prop where
  le : first ≤ last
  minted : ∀ name ∈ names, Minted first last name
  distinct : names.Nodup

theorem Fresh.nil (le : first ≤ last) : Fresh first last [] :=
  ⟨le, fun _ member => absurd member List.not_mem_nil, List.nodup_nil⟩

theorem Fresh.widen {first' last' : Nat} (fresh : Fresh first last names) (lower : first' ≤ first)
    (upper : last ≤ last') : Fresh first' last' names :=
  ⟨Nat.le_trans lower (Nat.le_trans fresh.le upper), fun name member => (fresh.minted name member).mono lower upper,
    fresh.distinct⟩

theorem Fresh.append {middle : Nat} {more : List String} (fresh : Fresh first middle names)
    (later : Fresh middle last more) : Fresh first last (names ++ more) := by
  refine ⟨Nat.le_trans fresh.le later.le, ?_, List.nodup_append.mpr ⟨fresh.distinct, later.distinct, ?_⟩⟩
  · intro name member
    rcases List.mem_append.mp member with old | new
    · exact (fresh.minted name old).mono Nat.le.refl later.le
    · exact (later.minted name new).mono fresh.le Nat.le.refl
  · intro name old other new same
    exact (later.minted other new).ne_before (fresh.minted name old).before same.symm

theorem Fresh.cons (stem : String) (later : Fresh (first + 1) last names) :
    Fresh first last ((NameSupply.fresh ⟨first⟩ stem).1 :: names) := by
  have one : Fresh first (first + 1) [(NameSupply.fresh ⟨first⟩ stem).1] := by
    refine ⟨Nat.le_succ _, ?_, by simp⟩
    rintro _ (_ | ⟨_, ⟨⟩⟩)
    exact ⟨first, Nat.le.refl, Nat.lt_succ_self _, numbered_fresh stem ⟨first⟩⟩
  exact one.append later

end IntC
