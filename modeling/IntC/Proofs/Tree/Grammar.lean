import IntC.Proofs.Traverse
import IntC.Proofs.Tree.Shape
import IntC.Tree.Constant

namespace IntC

variable {token : Token} {strength : Nat} {phrase : Phrase} {terminals read : List Terminal} {op : TokenKind}
  {kinds : TokenKind → Bool}

/-- What the grammar sees of a token: the name of an identifier, what a constant is read as, and of every other
token its kind alone. -/
inductive Terminal where
  | mark (kind : TokenKind)
  | name (text : String)
  | constant (value : Except ConstantFault Int)

def Token.terminal (token : Token) : Terminal :=
  match token.kind with
  | .ident => .name token.value
  | .number => .constant (readConstant token.value)
  | kind => .mark kind

def Terminal.kind : Terminal → TokenKind
  | .mark kind => kind
  | .name _ => .ident
  | .constant _ => .number

theorem Token.kind_terminal (token : Token) : token.terminal.kind = token.kind := by
  unfold Token.terminal
  split
  · rename_i found
    exact found.symm
  · rename_i found
    exact found.symm
  · rfl

/-- The kinds of tokens that stand for themselves. -/
def TokenKind.isMark : TokenKind → Bool
  | .eof | .ident | .number => false
  | _ => true

theorem TokenKind.ne_eof_of_isMark {kind : TokenKind} (mark : kind.isMark = true) : kind ≠ .eof := by
  rintro rfl
  cases mark

theorem Token.terminal_mark {kind : TokenKind} (found : token.kind = kind) (mark : kind.isMark = true) :
    token.terminal = .mark kind := by
  unfold Token.terminal
  rw [found]
  cases kind <;> first
    | rfl
    | cases mark

theorem Token.terminal_name (found : token.kind = .ident) : token.terminal = .name token.value := by
  simp only [Token.terminal, found]

theorem Token.terminal_eq_eof : token.terminal = .mark .eof ↔ token.kind = .eof := by
  unfold Token.terminal
  split <;> simp_all

theorem readConstant_bounds {text : String} {value : Int} (read : readConstant text = .ok value) :
    -2147483648 ≤ value ∧ value ≤ 2147483647 := by
  unfold readConstant at read
  split at read <;> simp only [bind_eq_ok] at read <;> obtain ⟨magnitude, -, found⟩ := read <;> split at found <;>
    cases found <;> omega

/-- How strongly the operators bind that stand between two operands and associate to the left. -/
def TokenKind.strength? : TokenKind → Option Nat
  | .star | .slash | .percent => some 50
  | .plus | .minus => some 45
  | .less | .lessEq | .greater | .greaterEq => some 35
  | .eqEq | .notEq => some 30
  | .andAnd => some 10
  | .orOr => some 5
  | _ => none

theorem TokenKind.strength?_bounds {kind : TokenKind} (found : kind.strength? = some strength) :
    5 ≤ strength ∧ strength ≤ 50 := by
  unfold TokenKind.strength? at found
  split at found <;> cases found <;> decide

/-- The specifiers of a declaration, in one of their orders. -/
def Storage.marks : Storage → List TokenKind
  | .automatic => [.kwInt]
  | .static => [.kwStatic, .kwInt]
  | .external => [.kwExtern, .kwInt]

/-- Whether the statement ends in an `if` that an `else` behind it would belong to. -/
def Stmt.isOpen : Stmt → Bool
  | .branch _ _ _ none => true
  | .branch _ _ _ (some no) => no.isOpen
  | .whileLoop _ _ body _ => body.isOpen
  | .forLoop _ _ _ _ body _ => body.isOpen
  | _ => false

/-- What the rules of the grammar are about, each with its tree. -/
inductive Phrase where
  /-- An expression whose operators outside of parentheses bind at least as strongly as `least`. -/
  | expr (least : Nat) (value : Expr)
  | args (values : List Expr)
  | optional (value : Option Expr)
  | initializer (value : Option Expr)
  | params (params : List Param)
  | decl (item : Item)
  | body (body : Option Block)
  | block (body : Block)
  | items (items : List Item)
  | forInit (init : ForInit)
  | stmt (stmt : Stmt)
  | unit (items : List Item)

/-- The grammar of the language. A phrase may be written down as each of the lists of terminals that the rules
derive from it: parentheses may enclose any expression, and specifiers come in any order. -/
inductive Derives : Phrase → List Terminal → Prop
  | number {least span value} (low : -2147483648 ≤ value) (high : value ≤ 2147483647) :
    Derives (.expr least (.number span value)) [.constant (.ok value)]
  | ident {least span name} : Derives (.expr least (.ident span name)) [.name name]
  | call {least span name args inner} : Derives (.args args) inner →
    Derives (.expr least (.call span name args)) (.name name :: .mark .lparen :: (inner ++ [.mark .rparen]))
  -- The operand binds more strongly than all operators between two operands.
  | unary {least span op operand inner} : op.isUnary = true → Derives (.expr 51 operand) inner →
    Derives (.expr least (.unary span op operand)) (.mark op :: inner)
  | binary {least span op strength left right first second} : op.strength? = some strength → least ≤ strength →
    Derives (.expr strength left) first → Derives (.expr (strength + 1) right) second →
    Derives (.expr least (.binary span op left right)) (first ++ .mark op :: second)
  | assign {least span target value first second} : least ≤ 1 →
    Derives (.expr 2 target) first → Derives (.expr 1 value) second →
    Derives (.expr least (.assign span target value)) (first ++ .mark .assign :: second)
  | conditional {least span cond yes no first second third} : least ≤ 3 →
    Derives (.expr 4 cond) first → Derives (.expr 0 yes) second → Derives (.expr 3 no) third →
    Derives (.expr least (.conditional span cond yes no))
      (first ++ .mark .question :: (second ++ .mark .colon :: third))
  | paren {least value inner} : Derives (.expr 0 value) inner →
    Derives (.expr least value) (.mark .lparen :: (inner ++ [.mark .rparen]))
  | noArgs : Derives (.args []) []
  | lastArg {arg inner} : Derives (.expr 0 arg) inner → Derives (.args [arg]) inner
  | moreArgs {arg next rest first others} : Derives (.expr 0 arg) first → Derives (.args (next :: rest)) others →
    Derives (.args (arg :: next :: rest)) (first ++ .mark .comma :: others)
  | absent : Derives (.optional none) []
  | present {value inner} : Derives (.expr 0 value) inner → Derives (.optional (some value)) inner
  | noInitializer : Derives (.initializer none) []
  | initializer {value inner} : Derives (.expr 0 value) inner →
    Derives (.initializer (some value)) (.mark .assign :: inner)
  | noParams : Derives (.params []) [.mark .kwVoid]
  | lastParam {param} : Derives (.params [param]) [.mark .kwInt, .name param.name]
  | moreParams {param next rest others} : Derives (.params (next :: rest)) others →
    Derives (.params (param :: next :: rest)) (.mark .kwInt :: .name param.name :: .mark .comma :: others)
  | var {span name init storage specifiers inner} : List.Perm specifiers (Storage.marks storage) →
    Derives (.initializer init) inner →
    Derives (.decl (.var ⟨span, name, init, storage⟩))
      (specifiers.map .mark ++ .name name :: (inner ++ [.mark .semi]))
  | func {span name params body storage specifiers inner rest} : List.Perm specifiers (Storage.marks storage) →
    Derives (.params params) inner → Derives (.body body) rest →
    Derives (.decl (.func ⟨span, name, params, body, storage⟩))
      (specifiers.map .mark ++ .name name :: .mark .lparen :: (inner ++ .mark .rparen :: rest))
  | noBody : Derives (.body none) [.mark .semi]
  | body {block inner} : Derives (.block block) inner → Derives (.body (some block)) inner
  | block {span items inner} : Derives (.items items) inner →
    Derives (.block ⟨span, items⟩) (.mark .lbrace :: (inner ++ [.mark .rbrace]))
  | noItems : Derives (.items []) []
  | declItem {item rest first others} : Derives (.decl item) first → Derives (.items rest) others →
    Derives (.items (item :: rest)) (first ++ others)
  | stmtItem {stmt rest first others} : Derives (.stmt stmt) first → Derives (.items rest) others →
    Derives (.items (.stmt stmt :: rest)) (first ++ others)
  | noForInit : Derives (.forInit .none) [.mark .semi]
  | varForInit {decl inner} : Derives (.decl (.var decl)) inner → Derives (.forInit (.var decl)) inner
  | exprForInit {value inner} : Derives (.expr 0 value) inner →
    Derives (.forInit (.expr value)) (inner ++ [.mark .semi])
  | ret {span value inner} : Derives (.expr 0 value) inner →
    Derives (.stmt (.ret span value)) (.mark .kwReturn :: (inner ++ [.mark .semi]))
  | exprStmt {span value inner} : Derives (.expr 0 value) inner →
    Derives (.stmt (.expr span value)) (inner ++ [.mark .semi])
  | ifThen {span cond yes first second} : Derives (.expr 0 cond) first → Derives (.stmt yes) second →
    Derives (.stmt (.branch span cond yes none)) (.mark .kwIf :: .mark .lparen :: (first ++ .mark .rparen :: second))
  -- An `else` belongs to the nearest `if`, so the statement before it leaves none open.
  | ifElse {span cond yes no first second third} : yes.isOpen = false →
    Derives (.expr 0 cond) first → Derives (.stmt yes) second → Derives (.stmt no) third →
    Derives (.stmt (.branch span cond yes (some no)))
      (.mark .kwIf :: .mark .lparen :: (first ++ .mark .rparen :: (second ++ .mark .kwElse :: third)))
  | blockStmt {block inner} : Derives (.block block) inner → Derives (.stmt (.block block)) inner
  | breakLoop {span} : Derives (.stmt (.breakLoop span "")) [.mark .kwBreak, .mark .semi]
  | continueLoop {span} : Derives (.stmt (.continueLoop span "")) [.mark .kwContinue, .mark .semi]
  | whileLoop {span cond body first second} : Derives (.expr 0 cond) first → Derives (.stmt body) second →
    Derives (.stmt (.whileLoop span cond body ""))
      (.mark .kwWhile :: .mark .lparen :: (first ++ .mark .rparen :: second))
  | doLoop {span body cond first second} : Derives (.stmt body) first → Derives (.expr 0 cond) second →
    Derives (.stmt (.doLoop span body cond ""))
      (.mark .kwDo :: (first ++ .mark .kwWhile :: .mark .lparen :: (second ++ [.mark .rparen, .mark .semi])))
  | forLoop {span init cond post body first second third fourth} : Derives (.forInit init) first →
    Derives (.optional cond) second → Derives (.optional post) third → Derives (.stmt body) fourth →
    Derives (.stmt (.forLoop span init cond post body "")) (.mark .kwFor :: .mark .lparen ::
      (first ++ (second ++ .mark .semi :: (third ++ .mark .rparen :: fourth))))
  | empty {span} : Derives (.stmt (.empty span)) [.mark .semi]
  | noDecls : Derives (.unit []) []
  | moreDecls {item rest first others} : Derives (.decl item) first → Derives (.unit rest) others →
    Derives (.unit (item :: rest)) (first ++ others)

mutual

/-- An expression as the parser builds it, with constants from `low` on. -/
def Expr.Shaped (low : Int) : Expr → Prop
  | .number _ value => low ≤ value ∧ value ≤ 2147483647
  | .ident .. => True
  | .assign _ target value => target.Shaped low ∧ value.Shaped low
  | .binary _ op left right => op.strength?.isSome = true ∧ left.Shaped low ∧ right.Shaped low
  | .unary _ op operand => op.isUnary = true ∧ operand.Shaped low
  | .conditional _ cond yes no => cond.Shaped low ∧ yes.Shaped low ∧ no.Shaped low
  | .call _ _ args => argsShaped low args
  | .misplaced _ => False

def argsShaped (low : Int) : List Expr → Prop
  | [] => True
  | arg :: rest => arg.Shaped low ∧ argsShaped low rest

end

def optionalShaped (low : Int) : Option Expr → Prop
  | none => True
  | some value => value.Shaped low

def ForInit.Shaped (low : Int) : ForInit → Prop
  | .none => True
  | .var decl => optionalShaped low decl.init
  | .expr value => value.Shaped low

mutual

/-- A statement as the parser builds it: its loops have no labels yet, and each `else` belongs to the nearest `if`
before it that it can belong to. -/
def Stmt.Shaped (low : Int) : Stmt → Prop
  | .ret _ value => value.Shaped low
  | .expr _ value => value.Shaped low
  | .branch _ cond yes none => cond.Shaped low ∧ yes.Shaped low
  | .branch _ cond yes (some no) => yes.isOpen = false ∧ cond.Shaped low ∧ yes.Shaped low ∧ no.Shaped low
  | .block body => body.Shaped low
  | .breakLoop _ label => label = ""
  | .continueLoop _ label => label = ""
  | .whileLoop _ cond body label => label = "" ∧ cond.Shaped low ∧ body.Shaped low
  | .doLoop _ body cond label => label = "" ∧ body.Shaped low ∧ cond.Shaped low
  | .forLoop _ init cond post body label =>
    label = "" ∧ init.Shaped low ∧ optionalShaped low cond ∧ optionalShaped low post ∧ body.Shaped low
  | .empty _ => True
  | .misplaced _ => False

def Block.Shaped (low : Int) : Block → Prop
  | ⟨_, items⟩ => itemsShaped low items

def FuncDecl.Shaped (low : Int) : FuncDecl → Prop
  | ⟨_, _, _, none, _⟩ => True
  | ⟨_, _, _, some body, _⟩ => body.Shaped low

def itemsShaped (low : Int) : List Item → Prop
  | [] => True
  | .func decl :: rest => decl.Shaped low ∧ itemsShaped low rest
  | .var decl :: rest => optionalShaped low decl.init ∧ itemsShaped low rest
  | .stmt stmt :: rest => stmt.Shaped low ∧ itemsShaped low rest

end

/-- A source file as the parser builds it, with constants from `low` on. -/
def Program.Shaped (low : Int) (program : Program) : Prop :=
  itemsShaped low program.items ∧ ∀ stmt, .stmt stmt ∉ program.items

def Phrase.Shaped (low : Int) : Phrase → Prop
  | .expr _ value => value.Shaped low
  | .args values => argsShaped low values
  | .optional value | .initializer value => optionalShaped low value
  | .params _ => True
  | .decl item => itemsShaped low [item] ∧ ∀ inner, item ≠ .stmt inner
  | .body none => True
  | .body (some inner) | .block inner => inner.Shaped low
  | .items inner => itemsShaped low inner
  | .forInit init => init.Shaped low
  | .stmt inner => inner.Shaped low
  | .unit inner => itemsShaped low inner ∧ ∀ stmt, .stmt stmt ∉ inner

theorem itemsShaped_cons {low : Int} {item : Item} {rest : List Item} (first : itemsShaped low [item])
    (others : itemsShaped low rest) : itemsShaped low (item :: rest) := by
  cases item <;> exact ⟨first.1, others⟩

/-- Only trees of the parser's shape can be written down. -/
theorem Derives.shaped (derives : Derives phrase terminals) : phrase.Shaped (-2147483648) := by
  induction derives with
  | number low high => exact ⟨low, high⟩
  | ident => trivial
  | call _ args => exact args
  | unary known _ operand => exact ⟨known, operand⟩
  | binary strength _ _ _ left right => exact ⟨Option.isSome_of_eq_some strength, left, right⟩
  | assign _ _ _ target value => exact ⟨target, value⟩
  | conditional _ _ _ _ cond yes no => exact ⟨cond, yes, no⟩
  | paren _ inner => exact inner
  | noArgs => trivial
  | lastArg _ arg => exact ⟨arg, trivial⟩
  | moreArgs _ _ arg others => exact ⟨arg, others⟩
  | absent => trivial
  | present _ value => exact value
  | noInitializer => trivial
  | initializer _ value => exact value
  | noParams | lastParam | moreParams => trivial
  | var _ _ init => exact ⟨⟨init, trivial⟩, nofun⟩
  | @func _ _ _ body _ _ _ _ _ _ _ _ inside => cases body <;> exact ⟨⟨inside, trivial⟩, nofun⟩
  | noBody => trivial
  | body _ block => exact block
  | block _ items => exact items
  | noItems => trivial
  | declItem _ _ first others => exact itemsShaped_cons first.1 others
  | stmtItem _ _ first others => exact ⟨first, others⟩
  | noForInit => trivial
  | varForInit _ decl => exact decl.1.1
  | exprForInit _ value | ret _ value | exprStmt _ value => exact value
  | ifThen _ _ cond yes => exact ⟨cond, yes⟩
  | ifElse closed _ _ _ cond yes no => exact ⟨closed, cond, yes, no⟩
  | blockStmt _ block => exact block
  | breakLoop | continueLoop => rfl
  | whileLoop _ _ cond body => exact ⟨rfl, cond, body⟩
  | doLoop _ _ body cond => exact ⟨rfl, body, cond⟩
  | forLoop _ _ _ _ init cond post body => exact ⟨rfl, init, cond, post, body⟩
  | empty => trivial
  | noDecls => exact ⟨trivial, fun _ => List.not_mem_nil⟩
  | moreDecls _ _ first others =>
    refine ⟨itemsShaped_cons first.1 others.1, fun stmt member => ?_⟩
    rcases List.mem_cons.mp member with same | later
    · exact first.2 stmt same.symm
    · exact others.2 stmt later

theorem TokenKind.isMark_of_isUnary (known : op.isUnary = true) : op.isMark = true := by
  cases op <;> first
    | rfl
    | cases known

theorem TokenKind.isMark_of_strength? (found : op.strength? = some strength) : op.isMark = true := by
  cases op <;> first
    | rfl
    | cases found

theorem TokenKind.isMark_of_isSpecifier {kind : TokenKind} (specifier : kind.isSpecifier = true) :
    kind.isMark = true := by
  cases kind <;> first
    | rfl
    | cases specifier

theorem Storage.isSpecifier_of_mem_marks {storage : Storage} {kind : TokenKind} (member : kind ∈ storage.marks) :
    kind.isSpecifier = true := by
  have all : ∀ kind ∈ storage.marks, kind.isSpecifier = true := by cases storage <;> decide
  exact all kind member

/-- Terminals of the language: the end token is no part of it, and constants can be read. -/
def Terminal.isProper : Terminal → Bool
  | .mark kind => kind.isMark
  | .name _ | .constant (.ok _) => true
  | .constant (.error _) => false

theorem Derives.proper (derives : Derives phrase terminals) : ∀ terminal ∈ terminals, terminal.isProper = true := by
  have specifiers {kinds : List TokenKind} {storage : Storage} (order : kinds.Perm storage.marks) :
      ∀ terminal ∈ kinds.map .mark, Terminal.isProper terminal = true := by
    refine List.forall_mem_map.mpr fun kind inside => ?_
    exact TokenKind.isMark_of_isSpecifier (Storage.isSpecifier_of_mem_marks (order.mem_iff.mp inside))
  induction derives <;> first
    | assumption
    | exact List.forall_mem_nil _
    | simp only [List.forall_mem_append, List.forall_mem_cons]
      and_intros <;> first
        | assumption
        | rfl
        | exact List.forall_mem_nil _
        | exact specifiers ‹_›
        | exact TokenKind.isMark_of_isUnary ‹_›
        | exact TokenKind.isMark_of_strength? ‹_›

theorem Derives.eof_notMem (derives : Derives phrase terminals) :
    .mark .eof ∉ terminals := fun member => Bool.noConfusion (derives.proper _ member)

def TokenKind.opensExpr : TokenKind → Bool
  | .number | .ident | .minus | .tilde | .bang | .lparen => true
  | _ => false

def TokenKind.opensStmt : TokenKind → Bool
  | .kwReturn | .kwIf | .semi | .lbrace | .kwBreak | .kwContinue | .kwWhile | .kwDo | .kwFor => true
  | kind => kind.opensExpr

/-- The first terminal is there and has one of the kinds. -/
def OpensWith (read : List Terminal) (kinds : TokenKind → Bool) : Prop :=
  ∃ first more, read = first :: more ∧ kinds first.kind = true

def Phrase.Opens (read : List Terminal) : Phrase → Prop
  | .expr .. => OpensWith read TokenKind.opensExpr
  | .args [] | .optional none | .initializer none => read = []
  | .args (_ :: _) | .optional (some _) => OpensWith read TokenKind.opensExpr
  | .initializer (some _) => ∃ more, read = .mark .assign :: more
  | .decl _ => OpensWith read TokenKind.isSpecifier
  | .block _ => ∃ more, read = .mark .lbrace :: more
  | .stmt _ => OpensWith read TokenKind.opensStmt
  | .items _ => read = [] ∨ OpensWith read fun kind => kind.isSpecifier || kind.opensStmt
  | .params _ | .body _ | .forInit _ | .unit _ => True

theorem OpensWith.append {more : List Terminal} (opens : OpensWith read kinds) : OpensWith (read ++ more) kinds := by
  obtain ⟨first, rest, rfl, right⟩ := opens
  exact ⟨first, rest ++ more, rfl, right⟩

theorem OpensWith.mono {wider : TokenKind → Bool} (opens : OpensWith read kinds)
    (more : ∀ kind, kinds kind = true → wider kind = true) : OpensWith read wider := by
  obtain ⟨first, rest, same, right⟩ := opens
  exact ⟨first, rest, same, more _ right⟩

theorem TokenKind.opensExpr_of_isUnary (known : op.isUnary = true) : op.opensExpr = true := by
  cases op <;> first
    | rfl
    | cases known

theorem TokenKind.opensStmt_of_opensExpr (kind : TokenKind) (opens : kind.opensExpr = true) :
    kind.opensStmt = true := by
  cases kind <;> first
    | rfl
    | cases opens

theorem TokenKind.not_isSpecifier_of_opensStmt {kind : TokenKind} (opens : kind.opensStmt = true) :
    ¬kind.isSpecifier = true := by
  intro specifier
  cases kind <;> cases specifier <;> cases opens

theorem opensWith_specifiers {storage : Storage} {specifiers : List TokenKind} {more : List Terminal}
    (order : specifiers.Perm storage.marks) : OpensWith (specifiers.map .mark ++ more) TokenKind.isSpecifier := by
  cases specifiers with
  | nil => cases storage <;> cases order.length_eq
  | cons kind rest =>
    exact ⟨.mark kind, rest.map .mark ++ more, rfl, Storage.isSpecifier_of_mem_marks (order.mem_iff.mp (.head _))⟩

theorem Derives.opens (derives : Derives phrase terminals) : phrase.Opens terminals := by
  induction derives with
  | number | ident | call | paren => exact ⟨_, _, rfl, rfl⟩
  | unary known => exact ⟨_, _, rfl, TokenKind.opensExpr_of_isUnary known⟩
  | binary _ _ _ _ left => exact left.append
  | assign _ _ _ target => exact target.append
  | conditional _ _ _ _ cond => exact cond.append
  | noArgs | absent | noInitializer => rfl
  | lastArg _ arg => exact arg
  | moreArgs _ _ arg => exact arg.append
  | present _ value => exact value
  | var order | func order => exact opensWith_specifiers order
  | initializer | block => exact ⟨_, rfl⟩
  | noItems => exact .inl rfl
  | declItem _ _ first | stmtItem _ _ first => exact .inr (first.append.mono fun kind known => by simp [known])
  | ret | ifThen | ifElse | breakLoop | continueLoop | whileLoop | doLoop | forLoop | empty =>
    exact ⟨_, _, rfl, rfl⟩
  | exprStmt _ value => exact value.append.mono TokenKind.opensStmt_of_opensExpr
  | blockStmt _ block =>
    obtain ⟨more, rfl⟩ := block
    exact ⟨_, _, rfl, rfl⟩
  | noParams | lastParam | moreParams | noBody | body | noForInit | varForInit | exprForInit | noDecls
  | moreDecls => trivial

/-- Phrases in which all names are spelled as the language asks for. -/
def Phrase.Written : Phrase → Prop
  | .expr _ value => value.Written
  | .args values => argsWritten values
  | .optional value | .initializer value => ∀ inner ∈ value, inner.Written
  | .params names => ∀ param ∈ names, Spelled param.name
  | .decl item => itemsWritten [item] ∧ ∀ inner, item ≠ .stmt inner
  | .body none => True
  | .body (some inner) | .block inner => inner.Written
  | .items inner => itemsWritten inner
  | .forInit init => init.Written
  | .stmt inner => inner.Written
  | .unit inner => unitWritten inner

theorem itemsWritten_cons {item : Item} {rest : List Item} (first : itemsWritten [item]) (others : itemsWritten rest) :
    itemsWritten (item :: rest) := by
  cases item <;> exact ⟨first.1, others⟩

theorem TokenKind.isBinary_of_strength? (found : op.strength? = some strength) : op.isBinary = true := by
  cases op <;> first
    | rfl
    | cases found

def Terminal.Plain : Terminal → Prop
  | .name text => Spelled text
  | .mark _ | .constant _ => True

@[simp] theorem Terminal.plain_name {text : String} : (Terminal.name text).Plain ↔ Spelled text := Iff.rfl

@[simp] theorem Terminal.plain_mark {kind : TokenKind} : (Terminal.mark kind).Plain := trivial

/-- A tree holds no names but those of its terminals. -/
theorem Derives.written (derives : Derives phrase terminals) (plain : ∀ terminal ∈ terminals, terminal.Plain) :
    phrase.Written := by
  induction derives with
    try simp only [List.forall_mem_cons, List.forall_mem_append, List.forall_mem_map, Terminal.plain_name,
      Terminal.plain_mark, List.not_mem_nil, false_imp_iff, implies_true, true_and, and_true] at plain
  | number => trivial
  | ident => exact plain
  | call _ args => exact ⟨plain.1, args plain.2⟩
  | unary known _ operand => exact ⟨known, operand plain⟩
  | binary strength _ _ _ left right =>
    exact ⟨TokenKind.isBinary_of_strength? strength, left plain.1, right plain.2⟩
  | assign _ _ _ target value => exact ⟨target plain.1, value plain.2⟩
  | conditional _ _ _ _ cond yes no => exact ⟨cond plain.1, yes plain.2.1, no plain.2.2⟩
  | paren _ inner => exact inner plain
  | noArgs => trivial
  | lastArg _ arg => exact ⟨arg plain, trivial⟩
  | moreArgs _ _ arg others => exact ⟨arg plain.1, others plain.2⟩
  | absent => exact nofun
  | present _ value =>
    rintro _ ⟨⟩
    exact value plain
  | noInitializer => exact nofun
  | initializer _ value =>
    rintro _ ⟨⟩
    exact value plain
  | noParams => exact nofun
  | lastParam => exact List.forall_mem_singleton.mpr plain
  | moreParams _ others => exact List.forall_mem_cons.mpr ⟨plain.1, others plain.2⟩
  | var _ _ init => exact ⟨⟨⟨plain.1, init plain.2⟩, trivial⟩, nofun⟩
  | @func _ _ _ body _ _ _ _ _ _ _ params inside =>
    cases body with
    | none => exact ⟨⟨⟨plain.1, params plain.2.1⟩, trivial⟩, nofun⟩
    | some => exact ⟨⟨⟨plain.1, params plain.2.1, inside plain.2.2⟩, trivial⟩, nofun⟩
  | noBody => trivial
  | body _ block => exact block plain
  | block _ items => exact items plain
  | noItems => trivial
  | declItem _ _ first others => exact itemsWritten_cons (first plain.1).1 (others plain.2)
  | stmtItem _ _ first others => exact ⟨first plain.1, others plain.2⟩
  | noForInit => trivial
  | varForInit _ decl => exact (decl plain).1.1
  | exprForInit _ value | ret _ value | exprStmt _ value => exact value plain
  | ifThen _ _ cond yes => exact ⟨cond plain.1, yes plain.2⟩
  | ifElse _ _ _ _ cond yes no => exact ⟨cond plain.1, yes plain.2.1, no plain.2.2⟩
  | blockStmt _ block => exact block plain
  | breakLoop | continueLoop => trivial
  | whileLoop _ _ cond body => exact ⟨cond plain.1, body plain.2⟩
  | doLoop _ _ body cond => exact ⟨body plain.1, cond plain.2⟩
  | forLoop _ _ _ _ init cond post body =>
    exact ⟨init plain.1, cond plain.2.1, post plain.2.2.1, body plain.2.2.2⟩
  | empty => trivial
  | noDecls => exact ⟨trivial, fun _ => List.not_mem_nil⟩
  | moreDecls _ _ first others =>
    have here := first plain.1
    have later := others plain.2
    refine ⟨itemsWritten_cons here.1 later.1, fun stmt member => ?_⟩
    rcases List.mem_cons.mp member with same | inside
    · exact here.2 stmt same.symm
    · exact later.2 stmt inside

end IntC
