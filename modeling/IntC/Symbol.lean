namespace IntC

/-- A value of type `int`, or a function of so many of them that returns one. -/
inductive SymbolType where
  | int
  | func (params : Int)
deriving DecidableEq, Repr, Inhabited

def SymbolType.describe : SymbolType → String
  | .int => "int"
  | .func params => "int(" ++ toString params ++ " params)"

/-- What is known about the initial value of a variable with static storage. -/
inductive Initial where
  | none | tentative
  | value (value : Int)
deriving DecidableEq, Repr, Inhabited

inductive SymbolAttr where
  | func (defined global : Bool)
  | static (init : Initial) (global : Bool)
  | automatic
deriving DecidableEq, Repr, Inhabited

structure Symbol where
  type : SymbolType
  attr : SymbolAttr
deriving DecidableEq, Repr, Inhabited

/-- The symbols by name, in the order in which the names first came. -/
structure SymbolTable where
  entries : List (String × Symbol) := []
deriving DecidableEq, Repr, Inhabited

namespace SymbolTable

def get? (table : SymbolTable) (name : String) : Option Symbol := table.entries.lookup name

/-- Replaces the first entry of a name, or adds one at the end. -/
def put (name : String) (symbol : Symbol) : List (String × Symbol) → List (String × Symbol)
  | [] => [(name, symbol)]
  | entry :: rest =>
    if entry.1 = name then (name, symbol) :: rest else entry :: put name symbol rest

/-- A name that is already there keeps its place. -/
def set (table : SymbolTable) (name : String) (symbol : Symbol) : SymbolTable :=
  ⟨put name symbol table.entries⟩

def names (table : SymbolTable) : List String := table.entries.map Prod.fst

def size (table : SymbolTable) : Nat := table.entries.length

/-- Whether a name denotes a variable with static storage. -/
def isStatic (table : SymbolTable) (name : String) : Bool :=
  match table.get? name with
  | some ⟨_, .static ..⟩ => true
  | _ => false

def ofList (entries : List (String × Symbol)) : SymbolTable :=
  entries.foldl (fun table entry => table.set entry.1 entry.2) {}

end SymbolTable

end IntC
