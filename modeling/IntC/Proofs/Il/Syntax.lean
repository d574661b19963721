namespace IntC.Il

/-- An operand of an instruction: a temporary or a constant. -/
inductive Operand where
  | temp (name : String)
  | const (value : Int)
deriving DecidableEq, Repr, Inhabited

/-- The operations on two words. The last six are comparisons of signed words. -/
inductive Op where
  | add | sub | mul | div | rem | xor
  | ceqw | cnew | csltw | cslew | csgtw | csgew
deriving DecidableEq, Repr, Inhabited

namespace Op

def all : List Op := [.add, .sub, .mul, .div, .rem, .xor, .ceqw, .cnew, .csltw, .cslew, .csgtw, .csgew]

def name : Op → String
  | .add => "add"
  | .sub => "sub"
  | .mul => "mul"
  | .div => "div"
  | .rem => "rem"
  | .xor => "xor"
  | .ceqw => "ceqw"
  | .cnew => "cnew"
  | .csltw => "csltw"
  | .cslew => "cslew"
  | .csgtw => "csgtw"
  | .csgew => "csgew"

def ofName? (name : String) : Option Op := all.find? (·.name = name)

end Op

/-- What a temporary can be set to. -/
inductive Result where
  | copy (source : Operand)
  | neg (source : Operand)
  | binary (op : Op) (left right : Operand)
  | load (symbol : String)
  | call (callee : String) (args : List Operand)
deriving DecidableEq, Repr, Inhabited

/-- An instruction of a function, or the name that a block begins with. -/
inductive Instr where
  | block (name : String)
  | assign (dest : String) (result : Result)
  | store (source : Operand) (symbol : String)
  | jump (target : String)
  /-- Goes to the first block if the condition is not zero, and else to the second. -/
  | branch (cond : Operand) (yes no : String)
  | ret (value : Operand)
deriving DecidableEq, Repr, Inhabited

namespace Instr

def block? : Instr → Option String
  | .block name => some name
  | _ => none

def ends : Instr → Bool
  | .jump _ | .branch .. | .ret _ => true
  | _ => false

def targets : Instr → List String
  | .jump target => [target]
  | .branch _ yes no => [yes, no]
  | _ => []

/-- Whether the block before is ended once the instruction stands behind it. Only a new block can stand behind one that
is ended. -/
def follows (ended : Bool) : Instr → Option Bool
  | .block _ => some false
  | instr => if ended then none else some instr.ends

end Instr

structure Func where
  global : Bool
  name : String
  params : List String
  body : List Instr
deriving DecidableEq, Repr, Inhabited

def blocks (body : List Instr) : List String := body.filterMap Instr.block?

/-- A body is a row of blocks with names of their own, the last of which is ended, and it goes to no other blocks. -/
def Func.isLawful (func : Func) : Bool :=
  func.body.foldlM Instr.follows true = some true ∧ (blocks func.body).Nodup ∧
    ∀ instr ∈ func.body, ∀ target ∈ instr.targets, target ∈ blocks func.body

/-- A variable with what it holds at the start: so many zero bytes, or a word. -/
structure Data where
  global : Bool
  name : String
  align : Int
  zero : Bool
  value : Int
deriving DecidableEq, Repr, Inhabited

inductive Line where
  | blank
  | data (var : Data)
  /-- The line that begins a function. -/
  | head (global : Bool) (name : String) (params : List String)
  | code (instr : Instr)
  /-- The line that ends a function. -/
  | close
deriving DecidableEq, Repr, Inhabited

/-- A word or a mark of the text. -/
inductive Atom where
  | temp (name : String)
  | symbol (name : String)
  | block (name : String)
  | number (value : Int)
  | key (word : String)
  | comma | paren | unparen | brace | unbrace
deriving DecidableEq, Repr, Inhabited

namespace Atom

def operand? : Atom → Option Operand
  | .temp name => some (.temp name)
  | .number value => some (.const value)
  | _ => none

def temp? : Atom → Option String
  | .temp name => some name
  | _ => none

def symbol? : Atom → Option String
  | .symbol name => some name
  | _ => none

end Atom

def isBlank (c : Char) : Bool := c = ' ' || c = '\t'

def mark? (c : Char) : Option Atom :=
  if c = ',' then some .comma
  else if c = '(' then some .paren
  else if c = ')' then some .unparen
  else if c = '\x7b' then some .brace
  else if c = '\x7d' then some .unbrace
  else none

def magnitude? (digits : List Char) : Option Int :=
  if digits ≠ [] ∧ digits.all Char.isDigit then some (Nat.ofDigitChars 10 digits 0) else none

def number? : List Char → Option Int
  | '-' :: digits => (magnitude? digits).map (- ·)
  | digits => magnitude? digits

def Atom.ofWord : List Char → Atom
  | '%' :: name => .temp (String.ofList name)
  | '$' :: name => .symbol (String.ofList name)
  | '@' :: name => .block (String.ofList name)
  | word => ((number? word).map Atom.number).getD (.key (String.ofList word))

def endWord (word : List Char) : List Atom := if word.isEmpty then [] else [Atom.ofWord word]

/-- The words and marks of a line, where the first characters of a word have been read already. -/
def atoms (word : List Char) : List Char → List Atom
  | [] => endWord word
  | c :: rest =>
    if isBlank c then endWord word ++ atoms [] rest
    else
      match mark? c with
      | some mark => endWord word ++ mark :: atoms [] rest
      | none => atoms (word ++ [c]) rest

section Items
variable {α : Type} (item : Atom → Option α)

/-- Words with commas between them, down to the closing parenthesis. -/
def readItems : List Atom → Option (List α × List Atom)
  | .key type :: atom :: .unparen :: rest =>
    if type = "w" then (item atom).map fun last => ([last], rest) else none
  | .key type :: atom :: .comma :: rest =>
    if type = "w" then do
      let first ← item atom
      let (more, rest) ← readItems rest
      return (first :: more, rest)
    else none
  | _ => none

def readList : List Atom → Option (List α × List Atom)
  | .unparen :: rest => some ([], rest)
  | atoms => readItems item atoms

end Items

def Result.ofAtoms : List Atom → Option Result
  | [.key name, source] =>
    if name = "copy" then source.operand?.map .copy
    else if name = "neg" then source.operand?.map .neg
    else if name = "loadw" then source.symbol?.map .load
    else none
  | [.key name, left, .comma, right] => do
    return .binary (← Op.ofName? name) (← left.operand?) (← right.operand?)
  | .key name :: .symbol callee :: .paren :: rest =>
    if name = "call" then
      (readList Atom.operand? rest).bind fun (args, rest) => if rest.isEmpty then some (.call callee args) else none
    else none
  | _ => none

def Line.definition (global : Bool) : List Atom → Option Line
  | [.key word, .symbol name, .key equals, .key align, .number size, .brace, .key type, .number value, .unbrace] =>
    if word = "data" ∧ equals = "=" ∧ align = "align" then
      if type = "z" then some (.data ⟨global, name, size, true, value⟩)
      else if type = "w" then some (.data ⟨global, name, size, false, value⟩)
      else none
    else none
  | .key word :: .key type :: .symbol name :: .paren :: rest =>
    if word = "function" ∧ type = "w" then
      (readList Atom.temp? rest).bind fun (params, rest) =>
        if rest = [.brace] then some (.head global name params) else none
    else none
  | _ => none

def Line.ofKey (word : String) (rest : List Atom) : Option Line :=
  if word = "storew" then
    match rest with
    | [source, .comma, .symbol name] => source.operand?.map fun source => .code (.store source name)
    | _ => none
  else if word = "jmp" then
    match rest with
    | [.block target] => some (.code (.jump target))
    | _ => none
  else if word = "jnz" then
    match rest with
    | [cond, .comma, .block yes, .comma, .block no] => cond.operand?.map fun cond => .code (.branch cond yes no)
    | _ => none
  else if word = "ret" then
    match rest with
    | [value] => value.operand?.map fun value => .code (.ret value)
    | _ => none
  else if word = "export" then definition true rest
  else definition false (.key word :: rest)

def Line.ofAtoms : List Atom → Option Line
  | [] => some .blank
  | [.unbrace] => some .close
  | [.block name] => some (.code (.block name))
  | .temp dest :: .key equals :: rest =>
    if equals = "=w" then (Result.ofAtoms rest).map fun result => .code (.assign dest result) else none
  | .key word :: rest => ofKey word rest
  | _ => none

def Line.read? (line : List Char) : Option Line := ofAtoms (atoms [] line)

structure Program where
  data : List Data
  funcs : List Func
deriving DecidableEq, Repr, Inhabited

/-- Puts lines together, where some lines of a function may have been read already. -/
def Program.ofLines : Option Func → List Line → Option Program
  | none, [] => some ⟨[], []⟩
  | some _, [] => none
  | current, .blank :: rest => ofLines current rest
  | none, .data var :: rest => (ofLines none rest).map fun program => { program with data := var :: program.data }
  | none, .head global name params :: rest => ofLines (some ⟨global, name, params, []⟩) rest
  | some func, .code instr :: rest => ofLines (some { func with body := func.body ++ [instr] }) rest
  | some func, .close :: rest =>
    if func.isLawful then (ofLines none rest).map fun program => { program with funcs := func :: program.funcs } else none
  | _, _ :: _ => none

def Program.read? (text : String) : Option Program :=
  (text.toList.splitOn '\n').mapM Line.read? >>= Program.ofLines none

end IntC.Il
