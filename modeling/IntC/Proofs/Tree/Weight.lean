import IntC.Tree.Parser
import Mathlib.Algebra.Ring.Nat

namespace IntC

/-- Weights for the parts of a tree that stem from single tokens. Where all of them weigh one, the tokens are
counted; where only some have a weight, a tree that weighs nothing has none of them. -/
structure Weights where
  value : Int → Nat
  name : String → Nat
  loop : String → Nat
  mark : Nat

/-- What a token weighs in the tree that is made from it. -/
def Token.weight (w : Weights) (token : Token) : Nat :=
  match token.kind with
  | .number =>
    match readConstant token.value with
    | .ok value => w.value value
    | .error _ => w.mark
  | .ident => w.name token.value
  | .kwWhile | .kwDo | .kwFor | .kwBreak | .kwContinue => w.loop ""
  | _ => w.mark

def tokensWeight (w : Weights) (tokens : List Token) : Nat := (tokens.map (Token.weight w)).sum

mutual

def Expr.weight (w : Weights) : Expr → Nat
  | .number _ value => w.value value
  | .ident _ name => w.name name
  | .assign _ target value => w.mark + target.weight w + value.weight w
  | .binary _ _ left right => w.mark + left.weight w + right.weight w
  | .unary _ _ operand => w.mark + operand.weight w
  | .conditional _ cond yes no => w.mark + cond.weight w + yes.weight w + no.weight w
  | .call _ name args => w.name name + w.mark + argsWeight w args
  | .misplaced _ => 0

def argsWeight (w : Weights) : List Expr → Nat
  | [] => 0
  | arg :: rest => arg.weight w + argsWeight w rest

end

def optionalWeight (w : Weights) : Option Expr → Nat
  | none => 0
  | some value => value.weight w

def VarDecl.weight (w : Weights) (decl : VarDecl) : Nat := w.name decl.name + optionalWeight w decl.init

def ForInit.weight (w : Weights) : ForInit → Nat
  | .none => 0
  | .var decl => decl.weight w
  | .expr value => value.weight w

def paramsWeight (w : Weights) (params : List Param) : Nat := (params.map fun param => w.name param.name).sum

mutual

def Stmt.weight (w : Weights) : Stmt → Nat
  | .ret _ value => w.mark + value.weight w
  | .expr _ value => value.weight w
  | .branch _ cond yes none => w.mark + cond.weight w + yes.weight w
  | .branch _ cond yes (some no) => w.mark + cond.weight w + yes.weight w + no.weight w
  | .block body => body.weight w
  | .breakLoop _ label => w.loop label
  | .continueLoop _ label => w.loop label
  | .whileLoop _ cond body label => w.loop label + cond.weight w + body.weight w
  | .doLoop _ body cond label => w.loop label + w.mark + body.weight w + cond.weight w
  | .forLoop _ init cond post body label =>
    w.loop label + w.mark + init.weight w + optionalWeight w cond + optionalWeight w post + body.weight w
  | .empty _ => 0
  | .misplaced _ => 0

def Block.weight (w : Weights) : Block → Nat
  | ⟨_, items⟩ => itemsWeight w items

def FuncDecl.weight (w : Weights) : FuncDecl → Nat
  | ⟨_, name, params, none, _⟩ => w.name name + w.mark + paramsWeight w params
  | ⟨_, name, params, some body, _⟩ => w.name name + w.mark + paramsWeight w params + body.weight w

def itemsWeight (w : Weights) : List Item → Nat
  | [] => 0
  | .func decl :: rest => decl.weight w + itemsWeight w rest
  | .var decl :: rest => decl.weight w + itemsWeight w rest
  | .stmt stmt :: rest => stmt.weight w + itemsWeight w rest

end

end IntC
