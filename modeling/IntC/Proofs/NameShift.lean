import IntC.Proofs.ScopeNames

namespace IntC

def numberOf (name : String) : Nat := Nat.ofDigitChars 10 (name.toList.drop ((stemOf name).length + 1)) 0

/-- Adds to the number of a name that was given out. Every other name stays as it is. -/
def shift (more : Nat) (name : String) : String :=
  if name = stemOf name ++ "." ++ toString (numberOf name) then
    stemOf name ++ "." ++ toString (numberOf name + more)
  else name

theorem numberOf_numbered (stem : String) (number : Nat) : numberOf (stem ++ "." ++ toString number) = number := by
  have behind : (stem.toList ++ '.' :: (toString number).toList).drop (stem.length + 1) = (toString number).toList := by
    rw [← String.length_toList, ← List.drop_drop, List.drop_left, List.drop_one, List.tail_cons]
  rw [numberOf, stemOf_numbered, numbered_toList, behind, number_toList]
  exact Nat.ofDigitChars_toDigits (by decide) (by decide)

theorem shift_numbered (more : Nat) (stem : String) (number : Nat) :
    shift more (stem ++ "." ++ toString number) = stem ++ "." ++ toString (number + more) := by
  rw [shift, stemOf_numbered, numberOf_numbered, if_pos rfl]

theorem shift_of_not_numbered {name : String} (plain : ∀ number, ¬Numbered number name) (more : Nat) :
    shift more name = name := if_neg fun same => plain _ ⟨_, same⟩

theorem Spelled.shift {name : String} (spelled : Spelled name) (more : Nat) : shift more name = name :=
  shift_of_not_numbered (fun _ numbered => numbered.not_spelled spelled) more

theorem shift_injective (more : Nat) : Function.Injective (shift more) := by
  intro name other same
  by_cases numbered : ∃ number, Numbered number name <;> by_cases numberedToo : ∃ number, Numbered number other
  · obtain ⟨number, stem, rfl⟩ := numbered
    obtain ⟨number', stem', rfl⟩ := numberedToo
    rw [shift_numbered, shift_numbered] at same
    obtain ⟨stems, numbers⟩ := numbered_inj same
    rw [stems, Nat.add_right_cancel numbers]
  · obtain ⟨number, stem, rfl⟩ := numbered
    rw [shift_numbered, shift_of_not_numbered (not_exists.mp numberedToo)] at same
    exact absurd ⟨_, _, same.symm⟩ numberedToo
  · obtain ⟨number, stem, rfl⟩ := numberedToo
    rw [shift_numbered, shift_of_not_numbered (not_exists.mp numbered)] at same
    exact absurd ⟨_, _, same⟩ numbered
  · rwa [shift_of_not_numbered (not_exists.mp numbered), shift_of_not_numbered (not_exists.mp numberedToo)] at same

/-- A supply that is ahead gives out the same names with larger numbers. -/
theorem fresh_advance (supply : NameSupply) (more : Nat) (stem : String) :
    (supply.advance more).fresh stem = (shift more (supply.fresh stem).1, (supply.fresh stem).2.advance more) := by
  refine Prod.ext ?_ ?_
  · exact (shift_numbered more stem supply.next).symm
  · exact congrArg NameSupply.mk (Nat.add_right_comm supply.next more 1)

theorem Numbered.shift_append {number : Nat} {name : String} (numbered : Numbered number name) (more : Nat)
    (before : String) : IntC.shift more (before ++ name) = before ++ IntC.shift more name := by
  obtain ⟨stem, rfl⟩ := numbered
  rw [shift_numbered, ← String.append_assoc, ← String.append_assoc, shift_numbered]
  simp only [String.append_assoc]

end IntC
