namespace IntC

/-- Where something stands: the number of its source file, the line and column of its first
character, both counted from one, and its length. Line zero means that no place is known. -/
structure Span where
  file : Int := 0
  line : Int := 0
  column : Int := 0
  length : Int := 0
deriving DecidableEq, Repr, Inhabited

inductive TokenKind where
  | eof | ident | number
  | kwInt | kwVoid | kwReturn | kwIf | kwElse | kwDo | kwWhile | kwFor | kwBreak | kwContinue
  | kwStatic | kwExtern
  | lparen | rparen | lbrace | rbrace | semi | comma | question | colon
  | tilde | bang | minus | plus | star | slash | percent | andAnd | orOr
  | assign | eqEq | notEq | less | lessEq | greater | greaterEq
  /-- A kind that no lexeme has; only token lists made by hand hold one. -/
  | other (code : Int)
deriving DecidableEq, Repr, Inhabited

namespace TokenKind

/-- The kinds of the language, each at the place of its number. -/
def all : List TokenKind := [
  .eof, .ident, .number,
  .kwInt, .kwVoid, .kwReturn, .kwIf, .kwElse, .kwDo, .kwWhile, .kwFor, .kwBreak, .kwContinue,
  .kwStatic, .kwExtern,
  .lparen, .rparen, .lbrace, .rbrace, .semi, .comma, .question, .colon,
  .tilde, .bang, .minus, .plus, .star, .slash, .percent, .andAnd, .orOr,
  .assign, .eqEq, .notEq, .less, .lessEq, .greater, .greaterEq]

def ofCode (code : Int) : TokenKind :=
  match code with
  | .ofNat n => all.getD n (.other code)
  | .negSucc _ => .other code

/-- The one spelling of a keyword or a punctuator. -/
def spelling? : TokenKind → Option String
  | .kwInt => some "int"
  | .kwVoid => some "void"
  | .kwReturn => some "return"
  | .kwIf => some "if"
  | .kwElse => some "else"
  | .kwDo => some "do"
  | .kwWhile => some "while"
  | .kwFor => some "for"
  | .kwBreak => some "break"
  | .kwContinue => some "continue"
  | .kwStatic => some "static"
  | .kwExtern => some "extern"
  | .lparen => some "("
  | .rparen => some ")"
  | .lbrace => some "\x7b"
  | .rbrace => some "\x7d"
  | .semi => some ";"
  | .comma => some ","
  | .question => some "?"
  | .colon => some ":"
  | .tilde => some "~"
  | .bang => some "!"
  | .minus => some "-"
  | .plus => some "+"
  | .star => some "*"
  | .slash => some "/"
  | .percent => some "%"
  | .andAnd => some "&&"
  | .orOr => some "||"
  | .assign => some "="
  | .eqEq => some "=="
  | .notEq => some "!="
  | .less => some "<"
  | .lessEq => some "<="
  | .greater => some ">"
  | .greaterEq => some ">="
  | .eof | .ident | .number | .other _ => none

def describe (kind : TokenKind) : String :=
  match kind with
  | .eof => "end of file"
  | .ident => "identifier"
  | .number => "constant"
  | .other code => "token(" ++ toString code ++ ")"
  | kind => "'" ++ kind.spelling?.getD "" ++ "'"

/-- Whether the kind may start a declaration. -/
def isSpecifier : TokenKind → Bool
  | .kwInt | .kwStatic | .kwExtern => true
  | _ => false

end TokenKind

/-- The keyword that a word spells, if it spells one. -/
def keyword? (word : String) : Option TokenKind :=
  [.kwInt, .kwVoid, .kwReturn, .kwIf, .kwElse, .kwDo, .kwWhile, .kwFor, .kwBreak, .kwContinue,
    .kwStatic, .kwExtern].find? fun kind => kind.spelling? == some word

/-- The value is the text of an identifier or a constant, and empty for all other kinds. -/
structure Token where
  kind : TokenKind
  value : String := ""
  span : Span := {}
deriving DecidableEq, Repr, Inhabited

/-- How messages name a token: by its text if it has one. -/
def Token.describe (token : Token) : String :=
  if token.value.isEmpty then token.kind.describe else "'" ++ token.value ++ "'"

end IntC
