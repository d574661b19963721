import IntC.Tree.Constant

namespace IntC

/-- The tokens still to be read: the next one and those behind it. -/
structure Cursor where
  current : Token
  rest : List Token
deriving DecidableEq, Repr, Inhabited

namespace Cursor

/-- Reads over one token. The last token is never left. -/
def advance (cursor : Cursor) : Cursor :=
  match cursor.rest with
  | [] => cursor
  | next :: rest => ⟨next, rest⟩

/-- Starts at the first token; an end token is put behind a list that does not end in one. -/
def ofTokens (tokens : List Token) : Cursor :=
  let closed :=
    match tokens.getLast? with
    | some last => if last.kind = .eof then tokens else tokens ++ [⟨.eof, "", {}⟩]
    | none => [⟨.eof, "", {}⟩]
  match closed with
  | [] => ⟨⟨.eof, "", {}⟩, []⟩
  | first :: rest => ⟨first, rest⟩

end Cursor

/-- A step of the parser: it reads from the cursor, or fails. -/
abbrev Parse := StateT Cursor (Except Error)

namespace Parse

def fail {α : Type} (cause : Cause) (span : Span) : Parse α := throw ⟨cause, span⟩

/-- The answer when the bound on the depth of the recursion is reached. -/
def exhausted {α : Type} : Parse α := throw (.ofBreach .parserExhausted)

def current : Parse Token := return (← get).current

def advance : Parse Unit := modify Cursor.advance

/-- Reads over a token of the given kind if it is next. -/
def accept (kind : TokenKind) : Parse Bool := do
  if (← current).kind = kind then
    advance
    return true
  else return false

def expect (kind : TokenKind) : Parse Token := do
  let token ← current
  if token.kind = kind then
    advance
    return token
  else fail (.expected kind token) token.span

/-- What the specifiers of a declaration have said so far. -/
structure Specifiers where
  ints : Nat := 0
  storage : Option (Storage × Span) := none

def Specifiers.add (known : Specifiers) (token : Token) : Except Error Specifiers :=
  match token.kind, known.storage with
  | .kwStatic, none => .ok { known with storage := some (.static, token.span) }
  | .kwExtern, none => .ok { known with storage := some (.external, token.span) }
  | .kwStatic, some _ | .kwExtern, some _ => .error ⟨.twoStorageClasses, token.span⟩
  | _, _ => .ok { known with ints := known.ints + 1 }

def Specifiers.read (known : Specifiers) (token : Token) :
    List Token → Except Error (Specifiers × Cursor)
  | [] => .ok (known, ⟨token, []⟩)
  | next :: rest =>
    if token.kind.isSpecifier then do
      let known ← known.add token
      known.read next rest
    else .ok (known, ⟨token, next :: rest⟩)

/-- Exactly one type and at most one storage class, in either order. -/
def specifiers : Parse Storage := do
  let cursor ← get
  let first := cursor.current
  let (found, after) ← Specifiers.read {} first cursor.rest
  set after
  match found.ints, found.storage with
  | 0, none => fail (.expectedDeclaration first) first.span
  | 0, some (_, span) => fail .typeMissing span
  | 1, none => return .automatic
  | 1, some (storage, _) => return storage
  | _, _ => fail .typeRepeated first.span

/-- The binding strength of an operator between two operands. -/
def precedence? : TokenKind → Option Nat
  | .star | .slash | .percent => some 50
  | .plus | .minus => some 45
  | .less | .lessEq | .greater | .greaterEq => some 35
  | .eqEq | .notEq => some 30
  | .andAnd => some 10
  | .orOr => some 5
  | .question => some 3
  | .assign => some 1
  | _ => none

def constant (token : Token) : Parse Expr :=
  match readConstant token.value with
  | .ok value => return .number token.span value
  | .error .tooLarge => fail (.constantTooLarge token.value) token.span
  | .error .malformed => fail (.malformedConstant token.value) token.span

/-
Each parser below takes first a bound on the depth of its recursion.
-/
mutual

/-- An expression whose operators bind at least as strongly as `least`. -/
def expression (depth least : Nat) : Parse Expr :=
  match depth with
  | 0 => exhausted
  | depth + 1 => do climb depth least (← factor depth)

/-- Reads operators and right operands behind a left operand. Assignment and the conditional
operator associate to the right, all others to the left. -/
def climb (depth least : Nat) (left : Expr) : Parse Expr :=
  match depth with
  | 0 => exhausted
  | depth + 1 => do
    let token ← current
    match precedence? token.kind with
    | none => return left
    | some strength =>
      if strength < least then return left
      else
        advance
        match token.kind with
        | .assign =>
          let right ← expression depth strength
          climb depth least (.assign token.span left right)
        | .question =>
          let middle ← expression depth 0
          let _ ← expect .colon
          let right ← expression depth strength
          climb depth least (.conditional token.span left middle right)
        | kind =>
          let right ← expression depth (strength + 1)
          climb depth least (.binary token.span kind left right)

def factor (depth : Nat) : Parse Expr :=
  match depth with
  | 0 => exhausted
  | depth + 1 => do
    let token ← current
    match token.kind with
    | .number =>
      advance
      constant token
    | .ident =>
      advance
      if ← accept .lparen then
        let args ← if (← current).kind = .rparen then pure [] else arguments depth
        let _ ← expect .rparen
        return .call token.span token.value args
      else return .ident token.span token.value
    | .minus | .tilde | .bang =>
      advance
      return .unary token.span token.kind (← factor depth)
    | .lparen =>
      advance
      let inner ← expression depth 0
      let _ ← expect .rparen
      return inner
    | _ => fail (.expectedExpression token) token.span

/-- One argument or more, with commas between them. -/
def arguments (depth : Nat) : Parse (List Expr) :=
  match depth with
  | 0 => exhausted
  | depth + 1 => do
    let first ← expression depth 0
    if ← accept .comma then return first :: (← arguments depth)
    else return [first]

end

/-- An expression, if one stands before the delimiter, and the delimiter. -/
def optionalExpression (depth : Nat) (delimiter : TokenKind) : Parse (Option Expr) := do
  if ← accept delimiter then return none
  let value ← expression depth 0
  let _ ← expect delimiter
  return some value

/-- One parameter or more, with commas between them. -/
def parameters (depth : Nat) : Parse (List Param) :=
  match depth with
  | 0 => exhausted
  | depth + 1 => do
    let _ ← expect .kwInt
    let token ← expect .ident
    let first : Param := ⟨token.span, token.value⟩
    if ← accept .comma then return first :: (← parameters depth)
    else return [first]

/-- What stands between the parentheses of a function declaration. -/
def parameterList (depth : Nat) : Parse (List Param) := do
  if ← accept .kwVoid then return [] else parameters depth

mutual

def declaration (depth : Nat) : Parse (FuncDecl ⊕ VarDecl) :=
  match depth with
  | 0 => exhausted
  | depth + 1 => do
    let storage ← specifiers
    let name ← expect .ident
    if ← accept .lparen then
      let params ← parameterList depth
      let _ ← expect .rparen
      let body ← if ← accept .semi then pure none else some <$> block depth
      return .inl ⟨name.span, name.value, params, body, storage⟩
    else
      let init ← if ← accept .assign then some <$> expression depth 0 else pure none
      let _ ← expect .semi
      return .inr ⟨name.span, name.value, init, storage⟩

def block (depth : Nat) : Parse Block :=
  match depth with
  | 0 => exhausted
  | depth + 1 => do
    let brace ← expect .lbrace
    return ⟨brace.span, ← blockItems depth⟩

/-- The items up to the closing brace, and the brace. -/
def blockItems (depth : Nat) : Parse (List Item) :=
  match depth with
  | 0 => exhausted
  | depth + 1 => do
    let token ← current
    match token.kind with
    | .rbrace =>
      advance
      return []
    | .eof => fail .unclosedBlock token.span
    | kind =>
      let item : Item ←
        if kind.isSpecifier then do
          match ← declaration depth with
          | .inl decl => pure (.func decl)
          | .inr decl => pure (.var decl)
        else .stmt <$> statement depth
      return item :: (← blockItems depth)

def statement (depth : Nat) : Parse Stmt :=
  match depth with
  | 0 => exhausted
  | depth + 1 => do
    let token ← current
    match token.kind with
    | .kwReturn =>
      advance
      let value ← expression depth 0
      let _ ← expect .semi
      return .ret token.span value
    | .kwIf =>
      advance
      let _ ← expect .lparen
      let cond ← expression depth 0
      let _ ← expect .rparen
      let yes ← statement depth
      let no ← if ← accept .kwElse then some <$> statement depth else pure none
      return .branch token.span cond yes no
    | .semi =>
      advance
      return .empty token.span
    | .lbrace => .block <$> block depth
    | .kwBreak =>
      advance
      let _ ← expect .semi
      return .breakLoop token.span ""
    | .kwContinue =>
      advance
      let _ ← expect .semi
      return .continueLoop token.span ""
    | .kwWhile =>
      advance
      let _ ← expect .lparen
      let cond ← expression depth 0
      let _ ← expect .rparen
      let body ← statement depth
      return .whileLoop token.span cond body ""
    | .kwDo =>
      advance
      let body ← statement depth
      let _ ← expect .kwWhile
      let _ ← expect .lparen
      let cond ← expression depth 0
      let _ ← expect .rparen
      let _ ← expect .semi
      return .doLoop token.span body cond ""
    | .kwFor =>
      advance
      let _ ← expect .lparen
      let init ← forInit depth
      let cond ← optionalExpression depth .semi
      let post ← optionalExpression depth .rparen
      let body ← statement depth
      return .forLoop token.span init cond post body ""
    | _ =>
      let value ← expression depth 0
      let _ ← expect .semi
      return .expr token.span value

/-- The first part of a `for` header, with its semicolon. -/
def forInit (depth : Nat) : Parse ForInit :=
  match depth with
  | 0 => exhausted
  | depth + 1 => do
    if (← current).kind.isSpecifier then
      match ← declaration depth with
      | .inl decl => fail .functionInForHeader decl.span
      | .inr decl => return .var decl
    else
      match ← optionalExpression depth .semi with
      | some value => return .expr value
      | none => return .none

end

/-- The declarations up to the first end token. -/
def declarations (depth : Nat) : Parse (List Item) :=
  match depth with
  | 0 => exhausted
  | depth + 1 => do
    if (← current).kind = .eof then return []
    match ← declaration depth with
    | .inl decl => return .func decl :: (← declarations depth)
    | .inr decl => return .var decl :: (← declarations depth)

end Parse

/-- A depth that no list of so many tokens exhausts. -/
def parseDepth (count : Nat) : Nat := 8 * (count + 2)

def parse (tokens : List Token) : Except Error Program :=
  let cursor := Cursor.ofTokens tokens
  match Parse.declarations (parseDepth tokens.length) cursor with
  | .ok (items, _) => .ok ⟨cursor.current.span, items⟩
  | .error error => .error error

end IntC
