namespace IntC

/-- A set of characters, listed as closed intervals of code points. -/
abbrev Ranges := List (Nat × Nat)

def Ranges.has (table : Ranges) (c : Char) : Bool :=
  table.any fun (low, high) => low ≤ c.toNat && c.toNat ≤ high

theorem Ranges.has_iff {table : Ranges} {c : Char} :
    table.has c = true ↔ ∃ low high, (low, high) ∈ table ∧ low ≤ c.toNat ∧ c.toNat ≤ high := by
  simp [Ranges.has]

end IntC
