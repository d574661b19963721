import IntC.Error

namespace IntC

/-- A step of a pass over a program. What it has done to its state stays done when it fails. -/
abbrev Pass (σ : Type) := ExceptT Error (StateM σ)

namespace Pass

def fail {σ α : Type} (cause : Cause) (span : Span) : Pass σ α := throw ⟨cause, span⟩

def breach {σ α : Type} (what : Breach) : Pass σ α := throw (.ofBreach what)

def check {σ α : Type} (outcome : Except Error α) : Pass σ α := ofExcept outcome

end Pass

end IntC
