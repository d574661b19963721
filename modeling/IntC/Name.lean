namespace IntC

/-- A source of names that no program can spell: each holds a number of its own behind a dot. -/
structure NameSupply where
  next : Nat := 0
deriving DecidableEq, Repr, Inhabited

namespace NameSupply

def fresh (supply : NameSupply) (stem : String) : String × NameSupply :=
  (stem ++ "." ++ toString supply.next, ⟨supply.next + 1⟩)

def temp (supply : NameSupply) : String × NameSupply := supply.fresh "tmp"

/-- One name per request: for a stem, or for an intermediate value where there is none. -/
def run (supply : NameSupply) : List (Option String) → List String
  | [] => []
  | request :: rest =>
    let (name, supply) := request.elim supply.temp supply.fresh
    name :: supply.run rest

end NameSupply

end IntC
