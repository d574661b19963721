import IntC.Token

namespace IntC

inductive WarningKind where
  | shadow | implicitReturn | extra
deriving DecidableEq, Repr, Inhabited

namespace WarningKind

/-- The kinds, each at the place of its number. -/
def all : List WarningKind := [.shadow, .implicitReturn, .extra]

def name : WarningKind → String
  | .shadow => "shadow"
  | .implicitReturn => "implicit-return"
  | .extra => "extra"

def description : WarningKind → String
  | .shadow => "Warn when a local declaration hides an outer one."
  | .implicitReturn => "Warn when a function body can reach its end without a return."
  | .extra => "Enable extra miscellaneous warnings."

def ofName? (name : String) : Option WarningKind := all.find? fun kind => kind.name == name

def ofCode? : Int → Option WarningKind
  | .ofNat code => all[code]?
  | .negSucc _ => none

end WarningKind

/-- What a warning is about. -/
inductive Caution where
  | shadows (name : String)
  | fallsOffEnd (name : String)
deriving DecidableEq, Repr, Inhabited

namespace Caution

def kind : Caution → WarningKind
  | .shadows _ => .shadow
  | .fallsOffEnd _ => .implicitReturn

def message : Caution → String
  | .shadows name => "declaration of '" ++ name ++ "' shadows a previous declaration"
  | .fallsOffEnd name =>
    "control may reach the end of non-void function '" ++ name ++ "'; it returns 0"

end Caution

/-- Passes give every warning; which of them are shown is settled afterwards. -/
structure Warning where
  caution : Caution
  span : Span
deriving DecidableEq, Repr, Inhabited

end IntC
