import IntC.Name
import IntC.Pass

namespace IntC

/-- A fresh id for a loop. -/
def loopId (stem : String) : Pass NameSupply String := modifyGet fun names => names.fresh stem

mutual

/-- Labels a statement that stands inside the loop with the given id, or inside no loop. -/
def Stmt.label (loop : Option String) : Stmt → Pass NameSupply Stmt
  | .breakLoop span _ =>
    match loop with
    | some id => return .breakLoop span id
    | none => Pass.fail .breakOutsideLoop span
  | .continueLoop span _ =>
    match loop with
    | some id => return .continueLoop span id
    | none => Pass.fail .continueOutsideLoop span
  | .branch span cond yes none => return .branch span cond (← yes.label loop) none
  | .branch span cond yes (some no) => do
    let yes ← yes.label loop
    return .branch span cond yes (some (← no.label loop))
  | .block body => return .block (← body.label loop)
  | .whileLoop span cond body _ => do
    let id ← loopId "while"
    return .whileLoop span cond (← body.label (some id)) id
  | .doLoop span body cond _ => do
    let id ← loopId "dowhile"
    return .doLoop span (← body.label (some id)) cond id
  | .forLoop span init cond post body _ => do
    let id ← loopId "for"
    return .forLoop span init cond post (← body.label (some id)) id
  | .ret span value => return .ret span value
  | .expr span value => return .expr span value
  | .empty span => return .empty span
  | .misplaced node => return .misplaced node

def Block.label (loop : Option String) : Block → Pass NameSupply Block
  | ⟨span, items⟩ => return ⟨span, ← labelItems loop items⟩

/-- Declarations are left as they are. -/
def labelItems (loop : Option String) : List Item → Pass NameSupply (List Item)
  | [] => return []
  | .stmt stmt :: rest => do
    let stmt ← stmt.label loop
    return .stmt stmt :: (← labelItems loop rest)
  | .var decl :: rest => return .var decl :: (← labelItems loop rest)
  | .func decl :: rest => return .func decl :: (← labelItems loop rest)

end

def Item.label : Item → Pass NameSupply Item
  | .func decl =>
    match decl.body with
    | none => return .func decl
    | some body => return .func { decl with body := some (← body.label none) }
  | .var decl => return .var decl
  | .stmt other => return .stmt other

/-- Gives every loop an id and binds each `break` and `continue` to the innermost loop around it. -/
def Program.label (program : Program) : Pass NameSupply Program :=
  return { program with items := ← program.items.mapM Item.label }

end IntC
