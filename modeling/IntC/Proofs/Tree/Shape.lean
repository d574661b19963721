import IntC.Proofs.Name
import IntC.Tac.Lowering
import IntC.Tree

namespace IntC

/-- An operator that stands before its operand. -/
def TokenKind.isUnary (op : TokenKind) : Bool := (unaryOp? op).isSome

/-- An operator that stands between two operands. -/
def TokenKind.isBinary (op : TokenKind) : Bool := (ShortCircuit.ofKind? op).isSome || (binaryOp? op).isSome

mutual

/-- An expression as it can be written down. -/
def Expr.Written : Expr → Prop
  | .number .. => True
  | .ident _ name => Spelled name
  | .assign _ target value => target.Written ∧ value.Written
  | .binary _ op left right => op.isBinary = true ∧ left.Written ∧ right.Written
  | .unary _ op operand => op.isUnary = true ∧ operand.Written
  | .conditional _ cond yes no => cond.Written ∧ yes.Written ∧ no.Written
  | .call _ name args => Spelled name ∧ argsWritten args
  | .misplaced _ => False

def argsWritten : List Expr → Prop
  | [] => True
  | arg :: rest => arg.Written ∧ argsWritten rest

end

def VarDecl.Written (decl : VarDecl) : Prop := Spelled decl.name ∧ ∀ init ∈ decl.init, init.Written

def ForInit.Written : ForInit → Prop
  | .none => True
  | .var decl => decl.Written
  | .expr value => value.Written

mutual

def Stmt.Written : Stmt → Prop
  | .ret _ value => value.Written
  | .expr _ value => value.Written
  | .branch _ cond yes none => cond.Written ∧ yes.Written
  | .branch _ cond yes (some no) => cond.Written ∧ yes.Written ∧ no.Written
  | .block body => body.Written
  | .whileLoop _ cond body _ => cond.Written ∧ body.Written
  | .doLoop _ body cond _ => body.Written ∧ cond.Written
  | .forLoop _ init cond post body _ =>
    init.Written ∧ (∀ value ∈ cond, value.Written) ∧ (∀ value ∈ post, value.Written) ∧ body.Written
  | .breakLoop .. => True
  | .continueLoop .. => True
  | .empty _ => True
  | .misplaced _ => False

def Block.Written : Block → Prop
  | ⟨_, items⟩ => itemsWritten items

def FuncDecl.Written : FuncDecl → Prop
  | ⟨_, name, params, none, _⟩ => Spelled name ∧ ∀ param ∈ params, Spelled param.name
  | ⟨_, name, params, some body, _⟩ => Spelled name ∧ (∀ param ∈ params, Spelled param.name) ∧ body.Written

def itemsWritten : List Item → Prop
  | [] => True
  | .func decl :: rest => decl.Written ∧ itemsWritten rest
  | .var decl :: rest => decl.Written ∧ itemsWritten rest
  | .stmt stmt :: rest => stmt.Written ∧ itemsWritten rest

end

theorem FuncDecl.Written.name {decl : FuncDecl} (written : decl.Written) : Spelled decl.name := by
  obtain ⟨_, _, _, _ | _, _⟩ := decl
  · exact written.1
  · exact written.1

theorem FuncDecl.Written.body {decl : FuncDecl} {body : Block} (written : decl.Written) (defined : decl.body = some body) :
    body.Written := by
  obtain ⟨_, _, _, _, _⟩ := decl
  cases defined
  exact written.2.2

/-- The declarations of a source file are functions and variables. -/
def unitWritten (items : List Item) : Prop := itemsWritten items ∧ ∀ stmt, .stmt stmt ∉ items

mutual

/-- An expression after its names are resolved: it uses known names only, and it assigns to variables. -/
def Expr.Uses (known : List String) : Expr → Prop
  | .number .. => True
  | .ident _ name => name ∈ known
  | .assign _ (.ident _ name) value => name ∈ known ∧ value.Uses known
  | .assign .. => False
  | .binary _ op left right => op.isBinary = true ∧ left.Uses known ∧ right.Uses known
  | .unary _ op operand => op.isUnary = true ∧ operand.Uses known
  | .conditional _ cond yes no => cond.Uses known ∧ yes.Uses known ∧ no.Uses known
  | .call _ name args => name ∈ known ∧ argsUse known args
  | .misplaced _ => False

def argsUse (known : List String) : List Expr → Prop
  | [] => True
  | arg :: rest => arg.Uses known ∧ argsUse known rest

end

/-- A local declaration after resolution. Only a variable with linkage keeps its spelling; the name of any
other has a number below the bound, and it is known in its own initializer. -/
def VarDecl.Bound (bound : Nat) (known : List String) (decl : VarDecl) : Prop :=
  if decl.storage = .external then Spelled decl.name
  else Minted 0 bound decl.name ∧ ∀ init ∈ decl.init, init.Uses (decl.name :: known)

theorem VarDecl.bound_of_external {bound : Nat} {known : List String} {decl : VarDecl}
    (external : decl.storage = .external) : decl.Bound bound known ↔ Spelled decl.name := by
  rw [VarDecl.Bound, if_pos external]

theorem VarDecl.bound_of_ne_external {bound : Nat} {known : List String} {decl : VarDecl}
    (other : decl.storage ≠ .external) : decl.Bound bound known ↔
      Minted 0 bound decl.name ∧ ∀ init ∈ decl.init, init.Uses (decl.name :: known) := by
  rw [VarDecl.Bound, if_neg other]

def ForInit.Bound (bound : Nat) (known : List String) : ForInit → Prop
  | .none => True
  | .var decl => decl.Bound bound known
  | .expr value => value.Uses known

/-- The names that the first part of a `for` header declares. -/
def ForInit.names : ForInit → List String
  | .var decl => [decl.name]
  | .none | .expr _ => []

mutual

def Stmt.Bound (bound : Nat) (known : List String) : Stmt → Prop
  | .ret _ value => value.Uses known
  | .expr _ value => value.Uses known
  | .branch _ cond yes none => cond.Uses known ∧ yes.Bound bound known
  | .branch _ cond yes (some no) => cond.Uses known ∧ yes.Bound bound known ∧ no.Bound bound known
  | .block body => body.Bound bound known
  | .whileLoop _ cond body _ => cond.Uses known ∧ body.Bound bound known
  | .doLoop _ body cond _ => body.Bound bound known ∧ cond.Uses known
  | .forLoop _ init cond post body _ => init.Bound bound known ∧
    (∀ value ∈ cond, value.Uses (init.names ++ known)) ∧ (∀ value ∈ post, value.Uses (init.names ++ known)) ∧
    body.Bound bound (init.names ++ known)
  | .breakLoop .. => True
  | .continueLoop .. => True
  | .empty _ => True
  | .misplaced _ => False

def Block.Bound (bound : Nat) (known : List String) : Block → Prop
  | ⟨_, items⟩ => itemsBound bound known items

/-- Every declaration adds its name for the items behind it. No function is defined in a block. -/
def itemsBound (bound : Nat) (known : List String) : List Item → Prop
  | [] => True
  | .func decl :: rest => (Spelled decl.name ∧ decl.body = none) ∧ itemsBound bound (decl.name :: known) rest
  | .var decl :: rest => decl.Bound bound known ∧ itemsBound bound (decl.name :: known) rest
  | .stmt stmt :: rest => stmt.Bound bound known ∧ itemsBound bound known rest

end

def FuncDecl.Bound (bound : Nat) (known : List String) (decl : FuncDecl) : Prop :=
  Spelled decl.name ∧ (∀ param ∈ decl.params, Minted 0 bound param.name) ∧
    ∀ body ∈ decl.body, body.Bound bound (decl.params.map Param.name ++ decl.name :: known)

/-- The declarations of a source file after resolution. -/
def unitBound (bound : Nat) (known : List String) : List Item → Prop
  | [] => True
  | .func decl :: rest => decl.Bound bound known ∧ unitBound bound (decl.name :: known) rest
  | .var decl :: rest => Spelled decl.name ∧ unitBound bound (decl.name :: known) rest
  | .stmt _ :: _ => False

mutual

/-- Each jump out of a loop carries the id of the innermost loop around it. -/
def Stmt.Labelled (loop : Option String) : Stmt → Prop
  | .breakLoop _ id => loop = some id
  | .continueLoop _ id => loop = some id
  | .branch _ _ yes none => yes.Labelled loop
  | .branch _ _ yes (some no) => yes.Labelled loop ∧ no.Labelled loop
  | .block body => body.Labelled loop
  | .whileLoop _ _ body id => body.Labelled (some id)
  | .doLoop _ body _ id => body.Labelled (some id)
  | .forLoop _ _ _ _ body id => body.Labelled (some id)
  | .ret .. => True
  | .expr .. => True
  | .empty _ => True
  | .misplaced _ => True

def Block.Labelled (loop : Option String) : Block → Prop
  | ⟨_, items⟩ => itemsLabelled loop items

def itemsLabelled (loop : Option String) : List Item → Prop
  | [] => True
  | .stmt stmt :: rest => stmt.Labelled loop ∧ itemsLabelled loop rest
  | .func _ :: rest => itemsLabelled loop rest
  | .var _ :: rest => itemsLabelled loop rest

end

mutual

def Stmt.loops : Stmt → List String
  | .branch _ _ yes none => yes.loops
  | .branch _ _ yes (some no) => yes.loops ++ no.loops
  | .block body => body.loops
  | .whileLoop _ _ body id => id :: body.loops
  | .doLoop _ body _ id => id :: body.loops
  | .forLoop _ _ _ _ body id => id :: body.loops
  | .ret .. => []
  | .expr .. => []
  | .breakLoop .. => []
  | .continueLoop .. => []
  | .empty _ => []
  | .misplaced _ => []

def Block.loops : Block → List String
  | ⟨_, items⟩ => itemsLoops items

def itemsLoops : List Item → List String
  | [] => []
  | .stmt stmt :: rest => stmt.loops ++ itemsLoops rest
  | .func _ :: rest => itemsLoops rest
  | .var _ :: rest => itemsLoops rest

end

/-- The functions that a unit defines, with their bodies. -/
def definitions : List Item → List (FuncDecl × Block)
  | [] => []
  | .func decl :: rest => (decl.body.map fun body => (decl, body)).toList ++ definitions rest
  | .var _ :: rest => definitions rest
  | .stmt _ :: rest => definitions rest

theorem mem_definitions {items : List Item} {decl : FuncDecl} {body : Block} :
    (decl, body) ∈ definitions items ↔ .func decl ∈ items ∧ decl.body = some body := by
  induction items with
  | nil => simp [definitions]
  | cons item rest ih =>
    cases item with
    | var other | stmt other => simp [definitions, ih]
    | func other =>
      simp only [definitions, List.mem_append, Option.mem_toList, Option.map_eq_some_iff,
        Prod.mk.injEq, ih, List.mem_cons, Item.func.injEq]
      constructor
      · rintro (⟨found, defined, rfl, rfl⟩ | ⟨later, defined⟩)
        · exact ⟨.inl rfl, defined⟩
        · exact ⟨.inr later, defined⟩
      · rintro ⟨rfl | later, defined⟩
        · exact .inl ⟨body, defined, rfl, rfl⟩
        · exact .inr ⟨later, defined⟩

/-- The ids of the loops of all functions of a unit. -/
def unitLoops (items : List Item) : List String := (definitions items).flatMap fun made => made.2.loops

end IntC
