import IntC.Error
import IntC.Text.Letter

namespace IntC

/-- The place of a character in its text: how many characters stand before it, and its line and
column, both counted from one. -/
structure Position where
  offset : Nat := 0
  line : Nat := 1
  column : Nat := 1
deriving DecidableEq, Repr, Inhabited

namespace Position

def after (place : Position) (c : Char) : Position :=
  if c = '\n' then ⟨place.offset + 1, place.line + 1, 1⟩
  else ⟨place.offset + 1, place.line, place.column + 1⟩

def passing (place : Position) (text : List Char) : Position :=
  text.foldl Position.after place

/-- The span of the text from one place up to another. -/
def spanTo (start stop : Position) (file : Int) : Span where
  file := file
  line := start.line
  column := start.column
  length := stop.offset - start.offset

end Position

def isSpace (c : Char) : Bool :=
  c = ' ' || c = '\t' || c = '\n' || c = '\r' || c = '\x0b' || c = '\x0c'

def isWordStart (c : Char) : Bool := isLetter c || c = '_'

def isDigit (c : Char) : Bool := '0' ≤ c && c ≤ '9'

def isWordChar (c : Char) : Bool := isWordStart c || isDigit c

/-- Where a gap between two tokens ends. -/
inductive GapEnd where
  /-- The gap is over; the rest starts with a lexeme or is empty. -/
  | lexeme (place : Position) (rest : List Char)
  /-- The text is over inside the block comment that starts at the first place. -/
  | unclosed (start stop : Position)
deriving DecidableEq, Repr, Inhabited

/-- What surrounds the next character of a gap. -/
inductive GapState where
  | space
  | lineComment
  | blockComment (start : Position)
deriving DecidableEq, Repr, Inhabited

def skipGap (state : GapState) (place : Position) (text : List Char) : GapEnd :=
  match state, text with
  | .space, '/' :: '/' :: rest =>
    skipGap .lineComment ((place.after '/').after '/') rest
  | .space, '/' :: '*' :: rest =>
    skipGap (.blockComment place) ((place.after '/').after '*') rest
  | .space, c :: rest =>
    if isSpace c then skipGap .space (place.after c) rest else .lexeme place (c :: rest)
  | .lineComment, c :: rest =>
    if c = '\n' then skipGap .space (place.after c) rest
    else skipGap .lineComment (place.after c) rest
  | .blockComment _, '*' :: '/' :: rest =>
    skipGap .space ((place.after '*').after '/') rest
  | .blockComment start, c :: rest =>
    skipGap (.blockComment start) (place.after c) rest
  | .blockComment start, [] => .unclosed start place
  | .space, [] | .lineComment, [] => .lexeme place []

/-- The characters that a lexeme takes behind its first one, and what it is. -/
structure Lexeme where
  extra : Nat
  reading : Except Cause (TokenKind × String)

namespace Lexeme

def word (c : Char) (rest : List Char) : Lexeme :=
  let tail := rest.takeWhile isWordChar
  let text := String.ofList (c :: tail)
  ⟨tail.length, .ok (match keyword? text with
    | some kind => (kind, "")
    | none => (.ident, text))⟩

/-- Only decimal constants exist. A word that starts right behind the digits spoils them. -/
def constant (c : Char) (rest : List Char) : Lexeme :=
  let digits := rest.takeWhile isDigit
  match rest.dropWhile isDigit with
  | next :: _ =>
    if isWordStart next then
      let tail := rest.takeWhile isWordChar
      ⟨tail.length, .error (.invalidConstant (String.ofList (c :: tail)))⟩
    else ⟨digits.length, .ok (.number, String.ofList (c :: digits))⟩
  | [] => ⟨digits.length, .ok (.number, String.ofList (c :: digits))⟩

def short (kind : TokenKind) : Lexeme := ⟨0, .ok (kind, "")⟩

def long (kind : TokenKind) : Lexeme := ⟨1, .ok (kind, "")⟩

/-- Of two punctuators that start alike the longer one is read. -/
def punctuator : Char → List Char → Lexeme
  | '(', _ => short .lparen
  | ')', _ => short .rparen
  | '\x7b', _ => short .lbrace
  | '\x7d', _ => short .rbrace
  | ';', _ => short .semi
  | ',', _ => short .comma
  | '?', _ => short .question
  | ':', _ => short .colon
  | '~', _ => short .tilde
  | '+', _ => short .plus
  | '*', _ => short .star
  | '/', _ => short .slash
  | '%', _ => short .percent
  | '!', '=' :: _ => long .notEq
  | '!', _ => short .bang
  | '=', '=' :: _ => long .eqEq
  | '=', _ => short .assign
  | '<', '=' :: _ => long .lessEq
  | '<', _ => short .less
  | '>', '=' :: _ => long .greaterEq
  | '>', _ => short .greater
  | '-', '-' :: _ => ⟨1, .error .decrement⟩
  | '-', _ => short .minus
  | '&', '&' :: _ => long .andAnd
  | '&', _ => ⟨0, .error (.bitwise '&')⟩
  | '|', '|' :: _ => long .orOr
  | '|', _ => ⟨0, .error (.bitwise '|')⟩
  | c, _ => ⟨0, .error (.unexpectedCharacter c)⟩

def read (c : Char) (rest : List Char) : Lexeme :=
  if isWordStart c then word c rest
  else if isDigit c then constant c rest
  else punctuator c rest

end Lexeme

/-- A text that is being read, from its next character on. -/
structure Scanner where
  file : Int := 0
  place : Position := {}
  rest : List Char
deriving DecidableEq, Repr, Inhabited

namespace Scanner

def start (text : String) (file : Int) : Scanner := { file, rest := text.toList }

/-- Reads one token. At the end of the text that is the end token, again and again; behind an
error the scanner stands after the characters that are at fault. -/
def next (scanner : Scanner) : Except Error Token × Scanner :=
  match skipGap .space scanner.place scanner.rest with
  | .unclosed start stop =>
    (.error ⟨.unclosedComment, start.spanTo stop scanner.file⟩, ⟨scanner.file, stop, []⟩)
  | .lexeme place [] => (.ok ⟨.eof, "", place.spanTo place scanner.file⟩, ⟨scanner.file, place, []⟩)
  | .lexeme place (c :: rest) =>
    let lexeme := Lexeme.read c rest
    let stop := (place.after c).passing (rest.take lexeme.extra)
    let span := place.spanTo stop scanner.file
    (match lexeme.reading with
      | .ok (kind, value) => .ok ⟨kind, value, span⟩
      | .error cause => .error ⟨cause, span⟩,
      ⟨scanner.file, stop, rest.drop lexeme.extra⟩)

end Scanner

theorem skipGap_rest_le {state : GapState} {start place : Position} {text rest : List Char}
    (skipped : skipGap state start text = .lexeme place rest) : rest.length ≤ text.length := by
  fun_induction skipGap state start text <;> simp_all <;> grind

theorem Scanner.next_shrinks {scanner after : Scanner} {token : Token}
    (read : scanner.next = (.ok token, after)) (more : token.kind ≠ .eof) :
    after.rest.length < scanner.rest.length := by
  unfold Scanner.next at read
  split at read
  · simp at read
  · simp only [Prod.mk.injEq, Except.ok.injEq] at read
    exact absurd (read.1 ▸ rfl) more
  · rename_i place c rest skipped
    have bound := skipGap_rest_le skipped
    simp only [Prod.mk.injEq] at read
    rw [← read.2]
    simp only [List.length_drop, List.length_cons] at bound ⊢
    omega

namespace Scanner

/-- All tokens up to and including the end token, or the first error. -/
def tokens (scanner : Scanner) : Except Error (List Token) :=
  match _read : scanner.next with
  | (.error error, _) => .error error
  | (.ok token, after) =>
    if _more : token.kind = .eof then .ok [token]
    else (after.tokens).map (token :: ·)
termination_by scanner.rest.length
decreasing_by exact next_shrinks _read _more

/-- What the next so many calls of `next` give, going on after errors. -/
def steps (scanner : Scanner) : Nat → List (Except Error Token)
  | 0 => []
  | count + 1 => scanner.next.1 :: scanner.next.2.steps count

end Scanner

def tokenize (text : String) (file : Int) : Except Error (List Token) :=
  (Scanner.start text file).tokens

end IntC
