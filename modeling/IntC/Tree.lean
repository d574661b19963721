import IntC.Token

namespace IntC

/-- The storage class that a declaration names, if any. -/
inductive Storage where
  | automatic | static | external
deriving DecidableEq, Repr, Inhabited

namespace Storage

def spelling : Storage → String
  | .automatic => ""
  | .static => "static"
  | .external => "extern"

def ofCode (code : Int) : Storage :=
  if code = 1 then .static else if code = 2 then .external else .automatic

end Storage

structure Param where
  span : Span := {}
  name : String
deriving DecidableEq, Repr, Inhabited

/-
Every field has the class of node that the language puts there. Trees made by hand may hold a
node of another class; it is kept as `misplaced`, and the passes report it where they meet it.
-/
mutual

inductive Expr where
  | number (span : Span) (value : Int)
  | ident (span : Span) (name : String)
  | assign (span : Span) (target value : Expr)
  | binary (span : Span) (op : TokenKind) (left right : Expr)
  | unary (span : Span) (op : TokenKind) (operand : Expr)
  | conditional (span : Span) (cond yes no : Expr)
  | call (span : Span) (name : String) (args : List Expr)
  | misplaced (node : Node)

/-- Loops, and the jumps out of them, carry the id of the loop they belong to. It is empty until
the loops are labelled. -/
inductive Stmt where
  | ret (span : Span) (value : Expr)
  | expr (span : Span) (value : Expr)
  | branch (span : Span) (cond : Expr) (yes : Stmt) (no : Option Stmt)
  | block (body : Block)
  | breakLoop (span : Span) (label : String)
  | continueLoop (span : Span) (label : String)
  | whileLoop (span : Span) (cond : Expr) (body : Stmt) (label : String)
  | doLoop (span : Span) (body : Stmt) (cond : Expr) (label : String)
  | forLoop (span : Span) (init : ForInit) (cond post : Option Expr) (body : Stmt) (label : String)
  | empty (span : Span)
  | misplaced (node : Node)

structure Block where
  span : Span
  items : List Item

structure VarDecl where
  span : Span
  name : String
  init : Option Expr
  storage : Storage

/-- A function without a body is a prototype. -/
structure FuncDecl where
  span : Span
  name : String
  params : List Param
  body : Option Block
  storage : Storage

/-- What a block is made of. At file scope only the declarations are in place. -/
inductive Item where
  | func (decl : FuncDecl)
  | var (decl : VarDecl)
  | stmt (inner : Stmt)

inductive ForInit where
  | none
  | var (decl : VarDecl)
  | expr (value : Expr)

/-- Any node at all. -/
inductive Node where
  | expr (value : Expr)
  | item (inner : Item)
  | program (span : Span) (items : List Item)

end

structure Program where
  span : Span := {}
  items : List Item

instance : Inhabited Expr := ⟨.number {} 0⟩
instance : Inhabited Stmt := ⟨.empty {}⟩
instance : Inhabited Item := ⟨.stmt default⟩
instance : Inhabited Program := ⟨⟨{}, []⟩⟩

inductive NodeKind where
  | number | ident | assign | binaryOp | unaryOp | ternary | funcCall
  | funcDecl | varDecl
  | ret | exprStmt | branch | block | breakLoop | continueLoop | whileLoop | doLoop | forLoop | empty
  | program
deriving DecidableEq, Repr, Inhabited

namespace NodeKind

/-- The kinds, each at the place of its number. -/
def all : List NodeKind := [
  .number, .ident, .assign, .binaryOp, .unaryOp, .ternary, .funcCall, .funcDecl, .varDecl,
  .ret, .exprStmt, .branch, .block, .breakLoop, .continueLoop, .whileLoop, .doLoop, .forLoop,
  .empty, .program]

def name : NodeKind → String
  | .number => "Number"
  | .ident => "Ident"
  | .assign => "Assign"
  | .binaryOp => "BinaryOp"
  | .unaryOp => "UnaryOp"
  | .ternary => "Ternary"
  | .funcCall => "FuncCall"
  | .funcDecl => "FuncDecl"
  | .varDecl => "VarDecl"
  | .ret => "Return"
  | .exprStmt => "ExprStmt"
  | .branch => "If"
  | .block => "Block"
  | .breakLoop => "Break"
  | .continueLoop => "Continue"
  | .whileLoop => "While"
  | .doLoop => "DoWhile"
  | .forLoop => "For"
  | .empty => "Null"
  | .program => "Program"

/-- The name of the kind with the given number. -/
def nameOfCode (code : Nat) : String :=
  (all[code]?.map name).getD "Node"

end NodeKind

mutual

def Expr.kind : Expr → NodeKind
  | .number .. => .number
  | .ident .. => .ident
  | .assign .. => .assign
  | .binary .. => .binaryOp
  | .unary .. => .unaryOp
  | .conditional .. => .ternary
  | .call .. => .funcCall
  | .misplaced node => node.kind

def Stmt.kind : Stmt → NodeKind
  | .ret .. => .ret
  | .expr .. => .exprStmt
  | .branch .. => .branch
  | .block .. => .block
  | .breakLoop .. => .breakLoop
  | .continueLoop .. => .continueLoop
  | .whileLoop .. => .whileLoop
  | .doLoop .. => .doLoop
  | .forLoop .. => .forLoop
  | .empty .. => .empty
  | .misplaced node => node.kind

def Item.kind : Item → NodeKind
  | .func _ => .funcDecl
  | .var _ => .varDecl
  | .stmt stmt => stmt.kind

def Node.kind : Node → NodeKind
  | .expr value => value.kind
  | .item item => item.kind
  | .program .. => .program

end

end IntC
