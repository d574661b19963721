import IntC.Proofs.Pass
import IntC.Proofs.Token.Lexer
import IntC.Proofs.Tree.Grammar
import Mathlib.Algebra.Ring.Nat

namespace IntC

namespace Cursor

variable {cursor : Cursor}

def tokens (cursor : Cursor) : List Token := cursor.current :: cursor.rest

def terminals (cursor : Cursor) : List Terminal := (cursor.current :: cursor.rest).map Token.terminal

def left (cursor : Cursor) : Nat := cursor.rest.length

/-- The last of the tokens still to be read is an end token. -/
def Ends (cursor : Cursor) : Prop := cursor.terminals.getLast? = some (.mark .eof)

theorem length_terminals (cursor : Cursor) : cursor.terminals.length = cursor.left + 1 := by
  simp [terminals, left]

theorem terminals_ne_nil (cursor : Cursor) : cursor.terminals ≠ [] := List.cons_ne_nil _ _

theorem Ends.of_append {after : Cursor} {read : List Terminal} (ends : cursor.Ends)
    (same : cursor.terminals = read ++ after.terminals) : after.Ends := by
  unfold Ends at ends
  rwa [same, List.getLast?_append_of_ne_nil _ after.terminals_ne_nil] at ends

theorem left_of_append {after : Cursor} {read : List Terminal} (same : cursor.terminals = read ++ after.terminals) :
    after.left + read.length = cursor.left := by
  have lengths := congrArg List.length same
  rw [List.length_append, cursor.length_terminals, after.length_terminals] at lengths
  omega

theorem Ends.advance (ends : cursor.Ends) (more : cursor.current.kind ≠ .eof) :
    cursor.terminals = [cursor.current.terminal] ++ cursor.advance.terminals := by
  obtain ⟨current, rest⟩ := cursor
  cases rest with
  | nil => exact absurd (Token.terminal_eq_eof.mp (Option.some.inj ends)) more
  | cons next rest => rfl

/-- From one place to another, before an end token still, so many tokens at least have been read over. -/
structure Passed (count : Nat) (start cursor : Cursor) : Prop where
  ends : cursor.Ends
  suffix : cursor.tokens <:+ start.tokens
  far : cursor.left + count ≤ start.left

section Passed
variable {count more : Nat} {start middle cursor : Cursor}

theorem Passed.refl (ends : cursor.Ends) : Passed 0 cursor cursor := ⟨ends, List.suffix_rfl, le_rfl⟩

theorem Passed.trans (passed : Passed count start middle) (later : Passed more middle cursor) :
    Passed (count + more) start cursor := by
  refine ⟨later.ends, later.suffix.trans passed.suffix, ?_⟩
  have first := passed.far
  have second := later.far
  omega

theorem Passed.mono (passed : Passed count start cursor) (fewer : more ≤ count) : Passed more start cursor :=
  ⟨passed.ends, passed.suffix, Nat.le_trans (Nat.add_le_add_left fewer _) passed.far⟩

theorem Passed.advance (passed : Passed count start cursor) (inside : cursor.current.kind ≠ .eof) :
    Passed (count + 1) start cursor.advance := by
  have same := passed.ends.advance inside
  have left := left_of_append same
  refine passed.trans ⟨passed.ends.of_append same, ?_, ?_⟩
  · unfold Cursor.advance
    split
    · exact List.suffix_rfl
    · rename_i next rest found
      unfold tokens
      rw [found]
      exact List.suffix_cons _ _
  · exact Nat.le_of_eq left

end Passed

end Cursor

/-- How the parser reports a constant that cannot be read. -/
def ConstantFault.cause : ConstantFault → String → Cause
  | .tooLarge => .constantTooLarge
  | .malformed => .malformedConstant

/-- The text does not follow the grammar; a constant that is found fault with is one of the tokens. -/
structure Complains (tokens : List Token) (error : Error) : Prop where
  grammar : error.cause.kind? = some .grammar
  constant : ∀ fault text, error.cause = ConstantFault.cause fault text →
    ∃ token ∈ tokens, token.kind = .number ∧ token.value = text ∧ token.span = error.span ∧
      readConstant text = .error fault

def Cause.isConstant : Cause → Bool
  | .constantTooLarge _ | .malformedConstant _ => true
  | _ => false

theorem Complains.other {tokens : List Token} {cause : Cause} {span : Span} (grammar : cause.kind? = some .grammar)
    (other : cause.isConstant = false) : Complains tokens ⟨cause, span⟩ := by
  refine ⟨grammar, fun fault text same => ?_⟩
  have same : cause = fault.cause text := same
  rw [same] at other
  cases fault <;> cases other

theorem Complains.mono {tokens more : List Token} {error : Error} (complains : Complains tokens error)
    (within : tokens <:+ more) : Complains more error := by
  refine ⟨complains.grammar, fun fault text same => ?_⟩
  obtain ⟨token, member, rest⟩ := complains.constant fault text same
  exact ⟨token, within.subset member, rest⟩

namespace Parse
open Cursor (Passed)

variable {strength : Nat} {kind : TokenKind} {caller : Call}

/-- The error of a parser whose bound is reached. -/
def exhaustion : Error := .ofBreach .parserExhausted

/-- Reads specifiers one by one, with a bound on their number. -/
def Specifiers.loop : Nat → Specifiers → Parse Specifiers
  | 0, _ => exhausted
  | depth + 1, known => do
    let token ← current
    if token.kind.isSpecifier then
      let known ← known.add token
      advance
      loop depth known
    else return known

/-- The parsers that call each other or themselves. -/
inductive Routine where
  | declarations | declaration | specifiers | parameters | block | blockItems | statement | forInit
  | expression | climb | factor | arguments
deriving DecidableEq

namespace Routine

def takes : Routine → Nat
  | .declarations | .specifiers | .climb => 0
  | _ => 1

/-- A routine that calls another one before it has read anything stands above it. -/
def level : Routine → Nat
  | .specifiers | .parameters | .block | .climb | .factor => 0
  | .declaration | .expression => 1
  | .declarations | .statement | .forInit | .arguments => 2
  | .blockItems => 3

end Routine

/-- What a routine does before it makes a call: it reads over a token, of a kind or of a class of kinds, or another part
of it comes back. -/
inductive Step where
  | read (kind : TokenKind)
  | specifier | operator | sign
  | specifiers | parameterList
  | optional (delimiter : TokenKind)
  | ran (routine : Routine)
deriving DecidableEq

def Step.takes : Step → Nat
  | .specifiers => 0
  | .ran routine => routine.takes
  | _ => 1

/-- The calls that a routine makes, each with all that is done before. -/
def Routine.calls : Routine → List (List Step × Routine)
  | .declarations => [([], .declaration), ([.ran .declaration], .declarations)]
  | .declaration => [
    ([], .specifiers),
    ([.specifiers, .read .ident, .read .assign], .expression),
    ([.specifiers, .read .ident, .read .lparen], .parameters),
    ([.specifiers, .read .ident, .read .lparen, .parameterList, .read .rparen], .block)]
  | .specifiers => [([.specifier], .specifiers)]
  | .parameters => [([.read .kwInt, .read .ident, .read .comma], .parameters)]
  | .block => [([.read .lbrace], .blockItems)]
  | .blockItems => [
    ([], .declaration), ([.ran .declaration], .blockItems),
    ([], .statement), ([.ran .statement], .blockItems)]
  | .statement => [
    ([.read .kwReturn], .expression),
    ([.read .kwIf, .read .lparen], .expression),
    ([.read .kwIf, .read .lparen, .ran .expression, .read .rparen], .statement),
    ([.read .kwIf, .read .lparen, .ran .expression, .read .rparen, .ran .statement, .read .kwElse], .statement),
    ([], .block),
    ([.read .kwWhile, .read .lparen], .expression),
    ([.read .kwWhile, .read .lparen, .ran .expression, .read .rparen], .statement),
    ([.read .kwDo], .statement),
    ([.read .kwDo, .ran .statement, .read .kwWhile, .read .lparen], .expression),
    ([.read .kwFor, .read .lparen], .forInit),
    ([.read .kwFor, .read .lparen, .ran .forInit], .expression),
    ([.read .kwFor, .read .lparen, .ran .forInit, .optional .semi], .expression),
    ([.read .kwFor, .read .lparen, .ran .forInit, .optional .semi, .optional .rparen], .statement),
    ([], .expression)]
  | .forInit => [([], .declaration), ([], .expression)]
  | .expression => [([], .factor), ([.ran .factor], .climb)]
  | .climb => [
    ([.operator], .expression),
    ([.operator, .ran .expression], .climb),
    ([.operator, .ran .expression, .read .colon], .expression),
    ([.operator, .ran .expression, .read .colon, .ran .expression], .climb)]
  | .factor => [([.sign], .factor), ([.read .lparen], .expression), ([.read .ident, .read .lparen], .arguments)]
  | .arguments => [([], .expression), ([.ran .expression, .read .comma], .arguments)]

def taken (steps : List Step) : Nat := (steps.map Step.takes).sum

/-- Before a call something has been read, or the call goes down a level. -/
theorem Routine.level_lt {r s : Routine} {steps : List Step} (listed : (steps, s) ∈ r.calls) :
    s.level < 4 * taken steps + r.level := by
  have all : ∀ call ∈ r.calls, call.2.level < 4 * taken call.1 + r.level := by cases r <;> decide
  exact all _ listed

/-- No token of the kind is an operator that binds so strongly. -/
def Stops (least : Nat) (kind : TokenKind) : Prop := ∀ strength, precedence? kind = some strength → strength < least

/-- How strongly the operators in the left operand of an operator bind at least. -/
def leftLevel (strength : Nat) : Nat := if strength < 5 then strength + 1 else strength

theorem leftLevel_le {least : Nat} (small : strength < least ∨ strength ≤ least ∧ 5 ≤ least) :
    leftLevel strength ≤ least := by
  unfold leftLevel
  split <;> omega

theorem strength?_of_precedence? (found : precedence? kind = some strength) (notAssign : kind ≠ .assign)
    (notQuestion : kind ≠ .question) : kind.strength? = some strength := by
  cases kind <;> first
    | exact found
    | exact absurd rfl notAssign
    | exact absurd rfl notQuestion

theorem isMark_of_precedence? (found : precedence? kind = some strength) : kind.isMark = true := by
  cases kind <;> first
    | rfl
    | cases found

/-- A function or a variable, whichever a declaration turns out to be. -/
def declItem : FuncDecl ⊕ VarDecl → Item := Sum.elim .func .var

/-- A routine with what it is given. -/
inductive Call where
  | declarations | declaration
  | specifiers (known : Specifiers)
  | parameters | block | blockItems | statement | forInit
  | expression (least : Nat)
  | climb (least : Nat) (left : Expr)
  | factor | arguments

namespace Call

def routine : Call → Routine
  | .declarations => .declarations
  | .declaration => .declaration
  | .specifiers _ => .specifiers
  | .parameters => .parameters
  | .block => .block
  | .blockItems => .blockItems
  | .statement => .statement
  | .forInit => .forInit
  | .expression _ => .expression
  | .climb .. => .climb
  | .factor => .factor
  | .arguments => .arguments

/-- What a call gives. -/
def Result : Call → Type
  | .declarations | .blockItems => List Item
  | .declaration => FuncDecl ⊕ VarDecl
  | .specifiers _ => Specifiers
  | .parameters => List Param
  | .block => Block
  | .statement => Stmt
  | .forInit => ForInit
  | .expression _ | .climb .. | .factor => Expr
  | .arguments => List Expr

def run (depth : Nat) : (call : Call) → Parse call.Result
  | .declarations => Parse.declarations depth
  | .declaration => Parse.declaration depth
  | .specifiers known => Specifiers.loop depth known
  | .parameters => Parse.parameters depth
  | .block => Parse.block depth
  | .blockItems => Parse.blockItems depth
  | .statement => Parse.statement depth
  | .forInit => Parse.forInit depth
  | .expression least => Parse.expression depth least
  | .climb least left => Parse.climb depth least left
  | .factor => Parse.factor depth
  | .arguments => Parse.arguments depth

/-- What a call has read over, and where the parser is then. Before it goes on with a left operand, that operand has been
read already. -/
def Wanted (cursor : Cursor) : (call : Call) → call.Result → List Terminal → Cursor → Prop
  | .declarations => fun items read after => Derives (.unit items) read ∧ after.current.kind = .eof
  | .declaration => fun decl read _ => Derives (.decl (declItem decl)) read
  | .specifiers _ => fun _ _ _ => True
  | .parameters => fun params read _ => params ≠ [] ∧ Derives (.params params) read
  | .block => fun block read _ => Derives (.block block) read
  | .blockItems => fun items read _ => ∃ inner, Derives (.items items) inner ∧ read = inner ++ [.mark .rbrace]
  | .statement => fun stmt read after =>
    Derives (.stmt stmt) read ∧ (stmt.isOpen = true → after.current.kind ≠ .kwElse)
  | .forInit => fun init read _ => Derives (.forInit init) read
  | .expression least => fun value read after => Derives (.expr least value) read ∧ Stops least after.current.kind
  | .climb least left => fun value read after => ∀ before, Derives (.expr least left) before →
    (∀ strength, precedence? cursor.current.kind = some strength → least ≤ strength →
      Derives (.expr (leftLevel strength) left) before) →
    Derives (.expr least value) (before ++ read) ∧ Stops least after.current.kind
  | .factor => fun value read _ => ∀ least, Derives (.expr least value) read
  | .arguments => fun values read _ => values ≠ [] ∧ Derives (.args values) read

end Call

/-- A call at the place where it is made. -/
abbrev Site := Call × Cursor

/-- Where a step leads if the calls in it are made with the given bound. -/
def Step.Leads (depth : Nat) (cursor after : Cursor) : Step → Prop
  | .read kind => kind ≠ .eof ∧ cursor.current.kind = kind ∧ cursor.advance = after
  | .specifier => cursor.current.kind.isSpecifier = true ∧ cursor.advance = after
  | .operator => (precedence? cursor.current.kind).isSome = true ∧ cursor.advance = after
  | .sign => cursor.current.kind.isUnary = true ∧ cursor.advance = after
  | .specifiers => ∃ storage, Parse.specifiers cursor = .ok (storage, after)
  | .parameterList => ∃ params, Parse.parameterList depth cursor = .ok (params, after)
  | .optional delimiter =>
    delimiter.isMark = true ∧ ∃ value, optionalExpression depth delimiter cursor = .ok (value, after)
  | .ran routine => ∃ call value, Call.routine call = routine ∧ call.run depth cursor = .ok (value, after)

inductive Path (depth : Nat) (start : Cursor) : List Step → Cursor → Prop
  | nil : Path depth start [] start
  | snoc {steps : List Step} {step : Step} {cursor after : Cursor} : Path depth start steps cursor →
    step.Leads depth cursor after → Path depth start (steps ++ [step]) after

/-- The calls that a call makes if its bound leaves `depth` to them. -/
def CallsAt (depth : Nat) (site next : Site) : Prop :=
  ∃ steps, (steps, next.1.routine) ∈ site.1.routine.calls ∧ Path depth site.2 steps next.2

def RunsOut (depth : Nat) (site : Site) : Prop := site.1.run depth site.2 = .error exhaustion

/-- Within the call, another one reaches its bound. -/
def Starves (depth : Nat) (site : Site) : Prop := ∃ next, CallsAt depth site next ∧ RunsOut depth next

/-- The parser goes on over so many tokens at least and gives what is wanted of the terminals that it has read over, or
the source is to blame, or else the bound is reached and there is a reason for it. -/
def Walks {α : Type} (start : Cursor) (count : Nat) (reason : Prop) (parse : Parse α) (cursor : Cursor)
    (wanted : α → List Terminal → Cursor → Prop) : Prop :=
  Meets parse cursor
    (fun a after => Passed count start after ∧ ∃ read, cursor.terminals = read ++ after.terminals ∧ wanted a read after)
    fun error => Complains start.tokens error ∨ error = exhaustion ∧ reason

/-- What is known of every call with the given bound. -/
def Walked (depth : Nat) : Prop :=
  ∀ (call : Call) (cursor : Cursor), cursor.Ends →
    Walks cursor call.routine.takes True (call.run depth) cursor (call.Wanted cursor)

/-- The steps have led here, and over the tokens that they take. -/
structure Reached (depth : Nat) (start : Cursor) (steps : List Step) (cursor : Cursor) : Prop
    extends Passed (taken steps) start cursor where
  path : Path depth start steps cursor

section Rules
variable {α β γ : Type} {depth count : Nat} {start cursor : Cursor} {steps : List Step} {reason : Prop}
  {wanted : α → List Terminal → Cursor → Prop}

theorem Reached.nil (ends : start.Ends) : Reached depth start [] start := ⟨.refl ends, .nil⟩

theorem Reached.snoc {step : Step} {after : Cursor} (here : Reached depth start steps cursor)
    (passed : Passed step.takes cursor after) (leads : step.Leads depth cursor after) :
    Reached depth start (steps ++ [step]) after := by
  refine ⟨?_, here.path.snoc leads⟩
  have sum : taken (steps ++ [step]) = taken steps + step.takes := by simp [taken]
  rw [sum]
  exact here.trans passed

theorem Walks.passed {parse : Parse α} {after : Cursor} {a : α} (walks : Walks start count reason parse cursor wanted)
    (came : parse cursor = .ok (a, after)) : Passed count start after := by
  unfold Walks Meets at walks
  rw [came] at walks
  exact walks.1

theorem Walks.done {a : α} (here : Reached depth start steps cursor) (enough : count ≤ taken steps)
    (right : wanted a [] cursor) : Walks start count reason (pure a) cursor wanted :=
  ⟨here.mono enough, [], rfl, right⟩

theorem Walks.fail {cause : Cause} {span : Span} (grammar : cause.kind? = some .grammar)
    (other : cause.isConstant = false) : Walks start count reason (Parse.fail cause span) cursor wanted :=
  .inl (.other grammar other)

theorem Walks.mono {parse : Parse α} {more : α → List Terminal → Cursor → Prop}
    (walks : Walks start count reason parse cursor wanted)
    (weaker : ∀ a read after, wanted a read after → more a read after) : Walks start count reason parse cursor more :=
  Meets.mono walks fun a after found => found.imp_right fun rest => rest.imp fun read right =>
    ⟨right.1, weaker a read after right.2⟩

theorem Walks.current {f : Token → Parse α} (later : Walks start count reason (f cursor.current) cursor wanted) :
    Walks start count reason (Parse.current >>= f) cursor wanted := later

theorem Walks.map {parse : Parse β} {f : β → α} (walks : Walks start count reason parse cursor fun b => wanted (f b)) :
    Walks start count reason (f <$> parse) cursor wanted := meets_map.mpr walks

theorem Walks.behind {parse : Parse α} {after : Cursor} {read : List Terminal}
    (same : cursor.terminals = read ++ after.terminals)
    (walks : Walks start count reason parse after fun a more => wanted a (read ++ more)) :
    Meets parse after (fun a last => Passed count start last ∧
      ∃ read, cursor.terminals = read ++ last.terminals ∧ wanted a read last)
      fun error => Complains start.tokens error ∨ error = exhaustion ∧ reason := by
  refine Meets.mono walks ?_
  rintro a last ⟨passed, more, rest, fine⟩
  exact ⟨passed, read ++ more, by rw [same, rest, List.append_assoc], fine⟩

theorem Walks.token {f : Unit → Parse α} (step : Step) (here : Reached depth start steps cursor)
    (inside : cursor.current.kind ≠ .eof) (leads : step.Leads depth cursor cursor.advance) (one : step.takes = 1)
    (later : ∀ after, Reached depth start (steps ++ [step]) after →
      Walks start count reason (f ()) after fun a rest => wanted a (cursor.current.terminal :: rest)) :
    Walks start count reason (Parse.advance >>= f) cursor wanted := by
  refine meets_bind.mpr (meets_advance.mpr (Walks.behind (here.ends.advance inside) (later _ (here.snoc ?_ leads))))
  rw [one]
  exact (Passed.refl here.ends).advance inside

theorem Walks.advance {f : Unit → Parse α} (here : Reached depth start steps cursor)
    (found : cursor.current.kind = kind) (mark : kind.isMark = true)
    (later : ∀ after, Reached depth start (steps ++ [.read kind]) after →
      Walks start count reason (f ()) after fun a rest => wanted a (.mark kind :: rest)) :
    Walks start count reason (Parse.advance >>= f) cursor wanted := by
  have inside := TokenKind.ne_eof_of_isMark mark
  refine Walks.token (.read kind) here (found ▸ inside) ⟨inside, found, rfl⟩ rfl ?_
  rwa [Token.terminal_mark found mark]

theorem Walks.accept {f : Bool → Parse α} (here : Reached depth start steps cursor) (mark : kind.isMark = true)
    (absent : cursor.current.kind ≠ kind → Walks start count reason (f false) cursor wanted)
    (present : cursor.current.kind = kind → ∀ after, Reached depth start (steps ++ [.read kind]) after →
      Walks start count reason (f true) after fun a rest => wanted a (.mark kind :: rest)) :
    Walks start count reason (Parse.accept kind >>= f) cursor wanted := by
  by_cases found : cursor.current.kind = kind
  · have step : Walks start count reason (Parse.advance >>= fun _ => f true) cursor wanted :=
      .advance here found mark (present found)
    unfold Walks Parse.accept
    simp only [meets_bind, meets_current, if_pos found]
    exact step
  · unfold Walks Parse.accept
    simp only [meets_bind, meets_current, if_neg found]
    exact absent found

theorem Walks.expect_token {f : Token → Parse α} {kind : TokenKind} (here : Reached depth start steps cursor)
    (inside : kind ≠ .eof)
    (later : cursor.current.kind = kind → ∀ after, Reached depth start (steps ++ [.read kind]) after →
      Walks start count reason (f cursor.current) after fun a rest => wanted a (cursor.current.terminal :: rest)) :
    Walks start count reason (Parse.expect kind >>= f) cursor wanted := by
  by_cases found : cursor.current.kind = kind
  · have step : Walks start count reason (Parse.advance >>= fun _ => f cursor.current) cursor wanted :=
      .token (.read kind) here (found ▸ inside) ⟨inside, found, rfl⟩ rfl (later found)
    unfold Walks Parse.expect
    simp only [meets_bind, meets_current, if_pos found]
    exact step
  · unfold Walks Parse.expect
    simp only [meets_bind, meets_current, if_neg found]
    exact .inl (.other rfl rfl)

theorem Walks.expect {f : Token → Parse α} {kind : TokenKind} (here : Reached depth start steps cursor)
    (mark : kind.isMark = true) (later : ∀ token after, Reached depth start (steps ++ [.read kind]) after →
      Walks start count reason (f token) after fun a rest => wanted a (.mark kind :: rest)) :
    Walks start count reason (Parse.expect kind >>= f) cursor wanted := by
  refine Walks.expect_token here (TokenKind.ne_eof_of_isMark mark) fun found => ?_
  rw [Token.terminal_mark found mark]
  exact later cursor.current

theorem Walks.expect_name {f : Token → Parse α} (here : Reached depth start steps cursor)
    (later : ∀ token after, Reached depth start (steps ++ [.read .ident]) after →
      Walks start count reason (f token) after fun a rest => wanted a (.name token.value :: rest)) :
    Walks start count reason (Parse.expect .ident >>= f) cursor wanted := by
  refine Walks.expect_token here (by decide) fun found => ?_
  rw [Token.terminal_name found]
  exact later cursor.current

/-- A part of the routine comes back, or the source is to blame for it, or else there is a reason within it. -/
theorem Walks.part {within : Prop} {parse : Parse β} {f : β → Parse α} {first : β → List Terminal → Cursor → Prop}
    (step : Step) (here : Reached depth start steps cursor) (walks : Walks cursor step.takes within parse cursor first)
    (why : within → reason) (leads : ∀ b after, parse cursor = .ok (b, after) → step.Leads depth cursor after)
    (later : ∀ b after read, Reached depth start (steps ++ [step]) after → first b read after →
      Walks start count reason (f b) after fun a more => wanted a (read ++ more)) :
    Walks start count reason (parse >>= f) cursor wanted := by
  unfold Walks at walks ⊢
  rw [meets_bind]
  unfold Meets at walks ⊢
  cases outcome : parse cursor with
  | ok result =>
    rw [outcome] at walks
    obtain ⟨passed, read, same, right⟩ := walks
    exact Walks.behind same (later result.1 result.2 read (here.snoc passed (leads _ _ outcome)) right)
  | error error =>
    rw [outcome] at walks
    exact Or.imp (fun complains => complains.mono here.suffix) (fun reached => ⟨reached.1, why reached.2⟩) walks

theorem Walked.walks (below : Walked depth) (call : Call) (ends : cursor.Ends) :
    Walks cursor call.routine.takes (RunsOut depth (call, cursor)) (call.run depth) cursor (call.Wanted cursor) := by
  have walks := below call cursor ends
  unfold Walks Meets at walks ⊢
  cases outcome : call.run depth cursor with
  | ok result =>
    rw [outcome] at walks
    exact walks
  | error error =>
    rw [outcome] at walks
    refine Or.imp_right ?_ walks
    rintro ⟨rfl, -⟩
    exact ⟨rfl, outcome⟩

theorem Walks.call (below : Walked depth) (call : Call) {f : call.Result → Parse α}
    (here : Reached depth start steps cursor) (listed : (steps, call.routine) ∈ caller.routine.calls)
    (later : ∀ b after read, Reached depth start (steps ++ [.ran call.routine]) after → call.Wanted cursor b read after →
      Walks start count (Starves depth (caller, start)) (f b) after fun a more => wanted a (read ++ more)) :
    Walks start count (Starves depth (caller, start)) (call.run depth >>= f) cursor wanted := by
  refine .part (.ran call.routine) here (below.walks call here.ends) (fun out => ?_)
    (fun b _ came => ⟨call, b, rfl, came⟩) later
  exact ⟨(call, cursor), ⟨steps, listed, here.path⟩, out⟩

theorem Walks.call_map (below : Walked depth) (call : Call) {g : call.Result → β} {f : β → Parse α}
    (here : Reached depth start steps cursor) (listed : (steps, call.routine) ∈ caller.routine.calls)
    (later : ∀ b after read, Reached depth start (steps ++ [.ran call.routine]) after → call.Wanted cursor b read after →
      Walks start count (Starves depth (caller, start)) (f (g b)) after fun a more => wanted a (read ++ more)) :
    Walks start count (Starves depth (caller, start)) (g <$> call.run depth >>= f) cursor wanted := by
  rw [bind_map_left]
  exact .call below call here listed later

theorem Walks.last (below : Walked depth) (call : Call) {wanted : call.Result → List Terminal → Cursor → Prop}
    (here : Reached depth start steps cursor) (listed : (steps, call.routine) ∈ caller.routine.calls)
    (enough : count ≤ taken (steps ++ [.ran call.routine]))
    (right : ∀ b read after, call.Wanted cursor b read after → wanted b read after) :
    Walks start count (Starves depth (caller, start)) (call.run depth) cursor wanted := by
  have whole : Walks start count (Starves depth (caller, start)) (call.run depth >>= pure) cursor wanted := by
    refine .call below call here listed fun b after read there got => .done there enough ?_
    rw [List.append_nil]
    exact right b read after got
  rwa [bind_pure] at whole

theorem Walks.lift {outcome : Except Error β} {f : β → Parse α}
    (complains : IntC.Meets outcome (fun _ => True) (Complains start.tokens))
    (later : ∀ b, Walks start count reason (f b) cursor wanted) :
    Walks start count reason (liftM outcome >>= f) cursor wanted := by
  unfold Walks
  rw [meets_bind, meets_lift]
  cases outcome with
  | ok b => exact later b
  | error error => exact .inl complains

end Rules

end Parse

end IntC
