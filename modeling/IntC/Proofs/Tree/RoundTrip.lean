import IntC.Proofs.Tree.Parser
import IntC.Proofs.Tree.Printer
import Mathlib.Data.List.Permutation

namespace IntC

mutual

/-- The expression without the places it was read from. -/
def Expr.bare : Expr → Expr
  | .number _ value => .number {} value
  | .ident _ name => .ident {} name
  | .assign _ target value => .assign {} target.bare value.bare
  | .binary _ op left right => .binary {} op left.bare right.bare
  | .unary _ op operand => .unary {} op operand.bare
  | .conditional _ cond yes no => .conditional {} cond.bare yes.bare no.bare
  | .call _ name args => .call {} name (argsBare args)
  | .misplaced node => .misplaced node

def argsBare : List Expr → List Expr
  | [] => []
  | arg :: rest => arg.bare :: argsBare rest

end

def VarDecl.bare (decl : VarDecl) : VarDecl := ⟨{}, decl.name, decl.init.map Expr.bare, decl.storage⟩

def ForInit.bare : ForInit → ForInit
  | .none => .none
  | .var decl => .var decl.bare
  | .expr value => .expr value.bare

def Param.bare (param : Param) : Param := ⟨{}, param.name⟩

mutual

def Stmt.bare : Stmt → Stmt
  | .ret _ value => .ret {} value.bare
  | .expr _ value => .expr {} value.bare
  | .branch _ cond yes none => .branch {} cond.bare yes.bare none
  | .branch _ cond yes (some no) => .branch {} cond.bare yes.bare (some no.bare)
  | .block body => .block body.bare
  | .breakLoop _ label => .breakLoop {} label
  | .continueLoop _ label => .continueLoop {} label
  | .whileLoop _ cond body label => .whileLoop {} cond.bare body.bare label
  | .doLoop _ body cond label => .doLoop {} body.bare cond.bare label
  | .forLoop _ init cond post body label =>
    .forLoop {} init.bare (cond.map Expr.bare) (post.map Expr.bare) body.bare label
  | .empty _ => .empty {}
  | .misplaced node => .misplaced node

def Block.bare : Block → Block
  | ⟨_, items⟩ => ⟨{}, itemsBare items⟩

def FuncDecl.bare : FuncDecl → FuncDecl
  | ⟨_, name, params, none, storage⟩ => ⟨{}, name, params.map Param.bare, none, storage⟩
  | ⟨_, name, params, some body, storage⟩ => ⟨{}, name, params.map Param.bare, some body.bare, storage⟩

def itemsBare : List Item → List Item
  | [] => []
  | .func decl :: rest => .func decl.bare :: itemsBare rest
  | .var decl :: rest => .var decl.bare :: itemsBare rest
  | .stmt stmt :: rest => .stmt stmt.bare :: itemsBare rest

end

theorem FuncDecl.bare_eq (decl : FuncDecl) :
    decl.bare = ⟨{}, decl.name, decl.params.map Param.bare, decl.body.map Block.bare, decl.storage⟩ := by
  obtain ⟨_, _, _, _ | _, _⟩ := decl <;> rfl

theorem itemsBare_cons (item : Item) (rest : List Item) :
    itemsBare (item :: rest) = itemsBare [item] ++ itemsBare rest := by
  cases item <;> rfl

/-- The source file without the places its nodes were read from. -/
def Program.bare (program : Program) : Program := ⟨{}, itemsBare program.items⟩

theorem Token.value_of_terminal {token : Token} {text : String} (found : token.terminal = .name text) :
    token.value = text := by
  unfold Token.terminal at found
  split at found <;> cases found
  rfl

theorem Token.constant_of_terminal {token : Token} {value : Except ConstantFault Int}
    (found : token.terminal = .constant value) : readConstant token.value = value := by
  unfold Token.terminal at found
  split at found <;> cases found
  rfl

section Cursor
variable {cursor : Cursor} {next : Terminal} {rest : List Terminal}

theorem Cursor.current_terminal (stands : cursor.terminals = next :: rest) : cursor.current.terminal = next :=
  (List.cons.inj stands).1

theorem Cursor.current_kind (stands : cursor.terminals = next :: rest) : cursor.current.kind = next.kind := by
  rw [← cursor.current.kind_terminal, Cursor.current_terminal stands]

theorem Cursor.terminals_advance (stands : cursor.terminals = next :: rest) (more : rest ≠ []) :
    cursor.advance.terminals = rest := by
  obtain ⟨current, others⟩ := cursor
  cases others with
  | nil => exact absurd (List.cons.inj stands).2.symm more
  | cons => exact (List.cons.inj stands).2

end Cursor

namespace Parse

variable {depth least strength : Nat} {op : TokenKind} {next : Terminal} {rest : List Terminal} {cursor : Cursor}
  {span : Span} {cond : Expr} {name : String} {params : List Param} {body : Stmt} {items : List Item} {item : Item}

/-- The parser gives what is wanted unless its depth is exhausted. -/
def Finds {α : Type} (parse : Parse α) (cursor : Cursor) (wanted : α → Cursor → Prop) : Prop :=
  Meets parse cursor wanted fun error => error = .ofBreach .parserExhausted

section Rules
variable {α β : Type} {cursor : Cursor} {wanted : α → Cursor → Prop} {next : Terminal} {rest : List Terminal}
  {kind : TokenKind}

theorem Finds.exhausted : Finds Parse.exhausted cursor wanted := rfl

theorem Finds.bind {parse : Parse β} {f : β → Parse α} {first : β → Cursor → Prop} (finds : Finds parse cursor first)
    (later : ∀ b after, first b after → Finds (f b) after wanted) : Finds (parse >>= f) cursor wanted :=
  Meets.bind finds later

theorem Finds.mono {parse : Parse α} {more : α → Cursor → Prop} (finds : Finds parse cursor wanted)
    (weaker : ∀ a after, wanted a after → more a after) : Finds parse cursor more :=
  Meets.mono finds weaker

theorem Finds.bind_map {γ : Type} {parse : Parse γ} {g : γ → β} {f : β → Parse α} {first : γ → Cursor → Prop}
    (finds : Finds parse cursor first) (later : ∀ c after, first c after → Finds (f (g c)) after wanted) :
    Finds (g <$> parse >>= f) cursor wanted := by
  rw [bind_map_left]
  exact finds.bind later

theorem Finds.map {parse : Parse β} {f : β → α} (finds : Finds parse cursor fun b => wanted (f b)) :
    Finds (f <$> parse) cursor wanted :=
  meets_map.mpr finds

theorem Finds.current {f : Token → Parse α} (later : Finds (f cursor.current) cursor wanted) :
    Finds (Parse.current >>= f) cursor wanted := later

/-- A parser that goes by the terminal before it, unless its depth is exhausted. -/
theorem Finds.look {parse : Nat → Parse α} {f : Nat → Token → Parse α} (stands : cursor.terminals = next :: rest)
    (later : ∀ depth value span, Token.terminal ⟨next.kind, value, span⟩ = next →
      Finds (f depth ⟨next.kind, value, span⟩) cursor wanted) (ends : parse 0 = Parse.exhausted)
    (looks : ∀ depth, parse (depth + 1) = Parse.current >>= f depth) : Finds (parse depth) cursor wanted := by
  obtain _ | depth := depth
  · rw [ends]
    exact .exhausted
  · have same := Cursor.current_terminal stands
    have told := later depth cursor.current.value cursor.current.span
    rw [← Cursor.current_kind stands] at told
    rw [looks]
    exact told same

theorem Finds.advance {f : Unit → Parse α} (stands : cursor.terminals = next :: rest) (more : rest ≠ [])
    (later : ∀ after : Cursor, after.terminals = rest → Finds (f ()) after wanted) :
    Finds (Parse.advance >>= f) cursor wanted :=
  later cursor.advance (Cursor.terminals_advance stands more)

theorem Finds.accept {f : Bool → Parse α} (stands : cursor.terminals = .mark kind :: rest) (more : rest ≠ [])
    (later : ∀ after : Cursor, after.terminals = rest → Finds (f true) after wanted) :
    Finds (Parse.accept kind >>= f) cursor wanted := by
  have same : cursor.current.kind = kind := Cursor.current_kind stands
  unfold Finds Parse.accept
  simp only [meets_bind, meets_current, if_pos same]
  exact later cursor.advance (Cursor.terminals_advance stands more)

theorem Finds.accept_not {f : Bool → Parse α} (stands : cursor.terminals = next :: rest) (other : next.kind ≠ kind)
    (later : Finds (f false) cursor wanted) : Finds (Parse.accept kind >>= f) cursor wanted := by
  rw [← Cursor.current_kind stands] at other
  unfold Finds Parse.accept
  simp only [meets_bind, meets_current, if_neg other]
  exact later

theorem Finds.expect {f : Token → Parse α} (stands : cursor.terminals = next :: rest) (same : next.kind = kind)
    (more : rest ≠ []) (later : ∀ token : Token, ∀ after : Cursor, token.terminal = next → after.terminals = rest →
      Finds (f token) after wanted) :
    Finds (Parse.expect kind >>= f) cursor wanted := by
  rw [← Cursor.current_kind stands] at same
  unfold Finds Parse.expect
  simp only [meets_bind, meets_current, if_pos same]
  exact later cursor.current cursor.advance (Cursor.current_terminal stands) (Cursor.terminals_advance stands more)

end Rules

section Climbing
variable {cursor : Cursor} {wanted : Expr → Cursor → Prop} {next : Terminal} {rest : List Terminal}
  {depth least strength : Nat} {left : Expr}

/-- Where no operator of the wanted strength stands next, the left operand is all. -/
theorem Finds.climb_stops (stands : cursor.terminals = next :: rest) (stops : Stops least next.kind) :
    Finds (climb depth least left) cursor fun found after => found = left ∧ after.terminals = next :: rest := by
  rw [← Cursor.current_kind stands] at stops
  obtain _ | depth := depth
  · exact .exhausted
  refine Finds.current ?_
  split
  · exact ⟨rfl, stands⟩
  · rename_i strength found
    rw [if_pos (stops strength found)]
    exact ⟨rfl, stands⟩

/-- An operator that is strong enough is taken. -/
theorem Finds.strong {weak onward : Parse Expr} (strong : least ≤ strength) (later : Finds onward cursor wanted) :
    Finds (if strength < least then weak else onward) cursor wanted := by
  rwa [if_neg (Nat.not_lt.mpr strong)]

theorem Finds.climb_binary (stands : cursor.terminals = .mark op :: rest) (known : op.strength? = some strength)
    (strong : least ≤ strength)
    (later : Finds (Parse.advance >>= fun _ => expression depth (strength + 1) >>= fun right =>
      climb depth least (.binary cursor.current.span op left right)) cursor wanted) :
    Finds (climb (depth + 1) least left) cursor wanted := by
  have same : cursor.current.kind = op := Cursor.current_kind stands
  refine Finds.current ?_
  rw [same]
  cases op <;> cases known <;> exact .strong strong later

theorem Finds.climb_assign (stands : cursor.terminals = .mark .assign :: rest) (strong : least ≤ 1)
    (later : Finds (Parse.advance >>= fun _ => expression depth 1 >>= fun right =>
      climb depth least (.assign cursor.current.span left right)) cursor wanted) :
    Finds (climb (depth + 1) least left) cursor wanted := by
  have same : cursor.current.kind = .assign := Cursor.current_kind stands
  refine Finds.current ?_
  rw [same]
  exact .strong strong later

theorem Finds.climb_conditional (stands : cursor.terminals = .mark .question :: rest) (strong : least ≤ 3)
    (later : Finds (Parse.advance >>= fun _ => expression depth 0 >>= fun middle => Parse.expect .colon >>= fun _ =>
      expression depth 3 >>= fun right => climb depth least (.conditional cursor.current.span left middle right))
      cursor wanted) :
    Finds (climb (depth + 1) least left) cursor wanted := by
  have same : cursor.current.kind = .question := Cursor.current_kind stands
  refine Finds.current ?_
  rw [same]
  exact .strong strong later

end Climbing

/-- The terminal may stand behind an operand whose operators bind at least as strongly as `least`. -/
structure Follows (least : Nat) (next : Terminal) : Prop where
  noCall : next.kind ≠ .lparen
  weaker : ∀ strength, precedence? next.kind = some strength → leftLevel strength ≤ least

theorem Follows.mono {level : Nat} (follows : Follows least next) (above : least ≤ level) : Follows level next :=
  ⟨follows.noCall, fun strength found => (follows.weaker strength found).trans above⟩

theorem Follows.stops {level : Nat} (follows : Follows least next) (above : least < level ∨ least ≤ level ∧ level < 5) :
    Stops level next.kind := by
  intro strength found
  have weaker := follows.weaker strength found
  unfold leftLevel at weaker
  split at weaker <;> omega

theorem follows_operator (found : precedence? op = some strength) (above : leftLevel strength ≤ least) :
    Follows least (.mark op) where
  noCall := by
    rintro rfl
    cases found
  weaker other same := by
    cases found.symm.trans same
    exact above

theorem follows_binary (known : op.strength? = some strength) : Follows strength (.mark op) := by
  have found : precedence? op = some strength := by cases op <;> cases known <;> rfl
  exact follows_operator found (leftLevel_le (.inr ⟨le_rfl, (TokenKind.strength?_bounds known).1⟩))

/-- What the parsers of expressions make of the terminals of an expression. Behind a left operand they go on to the
operators that follow; `chain` says that they do so as if the operand had been read as a whole. -/
structure FindsExpression (least : Nat) (value : Expr) (read : List Terminal) : Prop where
  operand : 50 < least → ∀ next rest depth cursor, next.kind ≠ .lparen → cursor.terminals = read ++ next :: rest →
    Finds (factor depth) cursor fun found after => found.bare = value.bare ∧ after.terminals = next :: rest
  chain : ∀ next rest level depth cursor wanted, Follows least next → level ≤ least →
    cursor.terminals = read ++ next :: rest →
    (∀ depth found after, found.bare = value.bare → after.terminals = next :: rest →
      Finds (climb depth level found) after wanted) →
    Finds (expression depth level) cursor wanted

section Expressions
variable {least : Nat} {read first second third : List Terminal}

/-- An expression that is one operand is found where an expression is looked for. -/
theorem FindsExpression.of_factor {value : Expr}
    (found : ∀ next rest depth cursor, next.kind ≠ .lparen → cursor.terminals = read ++ next :: rest →
      Finds (factor depth) cursor fun found after => found.bare = value.bare ∧ after.terminals = next :: rest) :
    FindsExpression least value read where
  operand _ := found
  chain next rest level depth cursor wanted follows _ stands later := by
    obtain _ | depth := depth
    · exact .exhausted
    refine (found next rest depth cursor follows.noCall stands).bind ?_
    rintro value after ⟨same, behind⟩
    exact later depth value after same behind

theorem FindsExpression.whole {value : Expr} (finds : FindsExpression least value read) (follows : Follows least next)
    (stops : Stops least next.kind) (stands : cursor.terminals = read ++ next :: rest) :
    Finds (expression depth least) cursor fun found after =>
      found.bare = value.bare ∧ after.terminals = next :: rest := by
  refine finds.chain next rest least depth cursor _ follows le_rfl stands ?_
  intro depth found after same behind
  refine (Finds.climb_stops behind stops).mono ?_
  rintro _ last ⟨rfl, still⟩
  exact ⟨same, still⟩

theorem FindsExpression.value {value : Expr} (finds : FindsExpression 0 value read)
    (noOperator : precedence? next.kind = none) (noCall : next.kind ≠ .lparen)
    (stands : cursor.terminals = read ++ next :: rest) :
    Finds (expression depth 0) cursor fun found after =>
      found.bare = value.bare ∧ after.terminals = next :: rest := by
  refine finds.whole ⟨noCall, fun strength found => ?_⟩ (fun strength found => ?_) stands
  · rw [noOperator] at found
    cases found
  · rw [noOperator] at found
    cases found

theorem findsExpression_binary {left right : Expr} (known : op.strength? = some strength) (weak : least ≤ strength)
    (findsLeft : FindsExpression strength left first) (findsRight : FindsExpression (strength + 1) right second) :
    FindsExpression least (.binary span op left right) (first ++ .mark op :: second) where
  operand tight := by
    have bounds := TokenKind.strength?_bounds known
    omega
  chain next rest level depth cursor wanted follows below stands later := by
    rw [List.append_assoc, List.cons_append] at stands
    refine findsLeft.chain (.mark op) (second ++ next :: rest) level depth cursor wanted (follows_binary known)
      (by omega) stands fun depth leftFound after sameLeft behind => ?_
    obtain _ | depth := depth
    · exact .exhausted
    refine Finds.climb_binary behind known (by omega) ?_
    refine Finds.advance behind (by simp) fun operator onward => ?_
    refine (findsRight.whole (follows.mono (by omega)) (follows.stops (by omega)) onward).bind ?_
    rintro rightFound last ⟨sameRight, still⟩
    exact later depth _ last (congrArg₂ (Expr.binary {} op) sameLeft sameRight) still

theorem findsExpression_assign {target value : Expr} (weak : least ≤ 1) (findsTarget : FindsExpression 2 target first)
    (findsValue : FindsExpression 1 value second) :
    FindsExpression least (.assign span target value) (first ++ .mark .assign :: second) where
  operand tight := by omega
  chain next rest level depth cursor wanted follows below stands later := by
    rw [List.append_assoc, List.cons_append] at stands
    refine findsTarget.chain (.mark .assign) (second ++ next :: rest) level depth cursor wanted
      (follows_operator rfl (by decide)) (by omega) stands fun depth targetFound after sameTarget behind => ?_
    obtain _ | depth := depth
    · exact .exhausted
    refine Finds.climb_assign behind (by omega) ?_
    refine Finds.advance behind (by simp) fun operator onward => ?_
    refine (findsValue.whole (follows.mono (by omega)) (follows.stops (by omega)) onward).bind ?_
    rintro valueFound last ⟨sameValue, still⟩
    exact later depth _ last (congrArg₂ (Expr.assign {}) sameTarget sameValue) still

theorem findsExpression_conditional {yes no : Expr} (weak : least ≤ 3) (findsCond : FindsExpression 4 cond first)
    (findsYes : FindsExpression 0 yes second) (findsNo : FindsExpression 3 no third) :
    FindsExpression least (.conditional span cond yes no)
      (first ++ .mark .question :: (second ++ .mark .colon :: third)) where
  operand tight := by omega
  chain next rest level depth cursor wanted follows below stands later := by
    simp only [List.append_assoc, List.cons_append] at stands
    refine findsCond.chain (.mark .question) _ level depth cursor wanted (follows_operator rfl (by decide)) (by omega)
      stands fun depth condFound after sameCond behind => ?_
    obtain _ | depth := depth
    · exact .exhausted
    refine Finds.climb_conditional behind (by omega) ?_
    refine Finds.advance behind (by simp) fun operator onward => ?_
    refine (findsYes.value rfl (by decide) onward).bind ?_
    rintro yesFound middle ⟨sameYes, colon⟩
    refine Finds.expect colon rfl (by simp) fun _ behindColon _ onward => ?_
    refine (findsNo.whole (follows.mono (by omega)) (follows.stops (by omega)) onward).bind ?_
    rintro noFound last ⟨sameNo, still⟩
    have whole := congr (congrArg₂ (Expr.conditional {}) sameCond sameYes) sameNo
    exact later depth _ last whole still

theorem findsExpression_number {value : Int} : FindsExpression least (.number span value) [.constant (.ok value)] := by
  refine .of_factor fun next rest depth cursor _ stands => ?_
  refine Finds.look stands (fun depth _ _ told => ?_) rfl fun _ => rfl
  have value := Token.constant_of_terminal told
  refine Finds.advance stands (by simp) fun after behind => ?_
  unfold constant
  simp only [value]
  exact ⟨rfl, behind⟩

theorem findsExpression_ident : FindsExpression least (.ident span name) [.name name] := by
  refine .of_factor fun next rest depth cursor noCall stands => ?_
  refine Finds.look stands (fun depth text _ told => ?_) rfl fun _ => rfl
  obtain rfl : text = name := Token.value_of_terminal told
  refine Finds.advance stands (by simp) fun after behind => ?_
  exact Finds.accept_not behind noCall ⟨rfl, behind⟩

theorem findsExpression_unary {operand : Expr} (known : op.isUnary = true) (finds : FindsExpression 51 operand read) :
    FindsExpression least (.unary span op operand) (.mark op :: read) := by
  refine .of_factor fun next rest depth cursor noCall stands => ?_
  refine Finds.look stands (fun depth _ place _ => ?_) rfl fun _ => rfl
  have step : Finds (do advance; return Expr.unary place op (← factor depth)) cursor
      fun found after => found.bare = (Expr.unary span op operand).bare ∧ after.terminals = next :: rest := by
    refine Finds.advance stands (by simp) fun after behind => ?_
    refine (finds.operand (by decide) next rest depth after noCall behind).bind ?_
    rintro found last ⟨same, still⟩
    exact ⟨congrArg (Expr.unary {} op) same, still⟩
  cases op <;> first
    | exact step
    | cases known

theorem findsExpression_paren {value : Expr} (finds : FindsExpression 0 value read) :
    FindsExpression least value (.mark .lparen :: (read ++ [Terminal.mark .rparen])) := by
  refine .of_factor fun next rest depth cursor _ stands => ?_
  simp only [List.cons_append, List.append_assoc, List.nil_append] at stands
  refine Finds.look stands (fun depth _ _ _ => ?_) rfl fun _ => rfl
  refine Finds.advance stands (by simp) fun after behind => ?_
  refine (finds.value rfl (by decide) behind).bind ?_
  rintro found later ⟨same, closing⟩
  exact Finds.expect closing rfl (by simp) fun _ last _ still => ⟨same, still⟩

def FindsArguments (values : List Expr) (read : List Terminal) : Prop :=
  ∀ rest depth cursor, values ≠ [] → cursor.terminals = read ++ .mark .rparen :: rest →
    Finds (arguments depth) cursor fun found after =>
      argsBare found = argsBare values ∧ after.terminals = .mark .rparen :: rest

theorem findsArguments_last {arg : Expr} (finds : FindsExpression 0 arg read) : FindsArguments [arg] read := by
  intro rest depth cursor _ stands
  obtain _ | depth := depth
  · exact .exhausted
  refine (finds.value rfl (by decide) stands).bind ?_
  rintro found after ⟨same, behind⟩
  refine Finds.accept_not behind (by decide) ?_
  exact ⟨congrArg (List.cons · []) same, behind⟩

theorem findsArguments_more {arg next : Expr} {others : List Expr} (finds : FindsExpression 0 arg first)
    (findsOthers : FindsArguments (next :: others) second) :
    FindsArguments (arg :: next :: others) (first ++ .mark .comma :: second) := by
  intro rest depth cursor _ stands
  rw [List.append_assoc, List.cons_append] at stands
  obtain _ | depth := depth
  · exact .exhausted
  refine (finds.value rfl (by decide) stands).bind ?_
  rintro found after ⟨same, comma⟩
  refine Finds.accept comma (by simp) fun behind onward => ?_
  refine (findsOthers rest depth behind (List.cons_ne_nil _ _) onward).bind ?_
  rintro following last ⟨sameOthers, still⟩
  exact ⟨congrArg₂ List.cons same sameOthers, still⟩

theorem findsExpression_call {args : List Expr} (opens : Phrase.Opens read (.args args))
    (finds : FindsArguments args read) :
    FindsExpression least (.call span name args) (.name name :: .mark .lparen :: (read ++ [Terminal.mark .rparen])) := by
  refine .of_factor fun next rest depth cursor _ stands => ?_
  simp only [List.cons_append, List.append_assoc, List.nil_append] at stands
  refine Finds.look stands (fun depth text place told => ?_) rfl fun _ => rfl
  obtain rfl : text = name := Token.value_of_terminal told
  refine Finds.advance stands (by simp) fun after behind => ?_
  refine Finds.accept behind (by simp) fun inside onward => ?_
  have finish : ∀ found last, argsBare found = argsBare args →
      Cursor.terminals last = .mark .rparen :: next :: rest →
      Finds (expect .rparen >>= fun _ => pure (Expr.call place text found)) last
        fun found after => found.bare = (Expr.call span text args).bare ∧ after.terminals = next :: rest := by
    intro found last same closing
    exact Finds.expect closing rfl (by simp) fun _ final _ still => ⟨congrArg (Expr.call {} text) same, still⟩
  refine Finds.current ?_
  cases args with
  | nil =>
    cases opens
    have closing : inside.current.kind = .rparen := Cursor.current_kind onward
    rw [if_pos closing]
    exact finish [] inside rfl onward
  | cons arg others =>
    obtain ⟨opening, more, rfl, kinds⟩ := opens
    have other : inside.current.kind ≠ .rparen := by
      intro closing
      rw [← Cursor.current_kind onward, closing] at kinds
      cases kinds
    rw [if_neg other]
    refine (finds _ depth inside (List.cons_ne_nil _ _) onward).bind ?_
    rintro found last ⟨same, closing⟩
    exact finish found last same closing

end Expressions

section Parts
variable {read : List Terminal}

def FindsOptional (value : Option Expr) (read : List Terminal) : Prop :=
  ∀ delimiter rest depth cursor, delimiter = .semi ∨ delimiter = .rparen → rest ≠ [] →
    cursor.terminals = read ++ .mark delimiter :: rest →
    Finds (optionalExpression depth delimiter) cursor fun found after =>
      found.map Expr.bare = value.map Expr.bare ∧ after.terminals = rest

theorem findsOptional_none : FindsOptional none [] := by
  intro delimiter rest depth cursor _ more stands
  exact Finds.accept stands more fun after behind => ⟨rfl, behind⟩

theorem findsOptional_some {value : Expr} (opens : OpensWith read TokenKind.opensExpr)
    (finds : FindsExpression 0 value read) : FindsOptional (some value) read := by
  intro delimiter rest depth cursor known more stands
  obtain ⟨opening, others, rfl, kinds⟩ := opens
  refine Finds.accept_not stands ?_ ?_
  · rintro rfl
    rcases known with same | same <;> rw [same] at kinds <;> cases kinds
  · have ends : precedence? (Terminal.mark delimiter).kind = none ∧ (Terminal.mark delimiter).kind ≠ .lparen := by
      rcases known with rfl | rfl <;> exact ⟨rfl, by decide⟩
    refine (finds.value ends.1 ends.2 stands).bind ?_
    rintro found after ⟨same, closing⟩
    refine Finds.expect closing rfl more fun _ last _ still => ⟨?_, still⟩
    simp only [Option.map_some, same]

/-- What stands behind the name of a variable, whatever is done with it. -/
def FindsInitializer (value : Option Expr) (read : List Terminal) : Prop :=
  ∀ rest depth cursor (go : Option Expr → Parse (FuncDecl ⊕ VarDecl)) wanted,
    cursor.terminals = read ++ .mark .semi :: rest →
    (∀ found after, found.map Expr.bare = value.map Expr.bare → after.terminals = .mark .semi :: rest →
      Finds (go found) after wanted) →
    Finds (accept .assign >>= fun given => if given = true then some <$> expression depth 0 >>= go else pure none >>= go)
      cursor wanted

theorem findsInitializer_none : FindsInitializer none [] := by
  intro rest depth cursor go wanted stands later
  exact Finds.accept_not stands (by decide) (later none cursor rfl stands)

theorem findsInitializer_some {value : Expr} (finds : FindsExpression 0 value read) :
    FindsInitializer (some value) (.mark .assign :: read) := by
  intro rest depth cursor go wanted stands later
  refine Finds.accept stands (by simp) fun after behind => ?_
  refine (finds.value rfl (by decide) behind).bind_map ?_
  rintro found last ⟨same, still⟩
  exact later (some found) last (by simp only [Option.map_some, same]) still

theorem finds_parameters (derives : Derives (.params params) read) (some : params ≠ [])
    (stands : cursor.terminals = read ++ .mark .rparen :: rest) :
    Finds (parameters depth) cursor fun found after =>
      found.map Param.bare = params.map Param.bare ∧ after.terminals = .mark .rparen :: rest := by
  induction params generalizing read depth cursor with
  | nil => exact absurd rfl some
  | cons param others ih =>
    obtain _ | depth := depth
    · exact .exhausted
    cases derives with
    | lastParam =>
      refine Finds.expect stands rfl (by simp) fun _ after _ behind => ?_
      refine Finds.expect behind rfl (by simp) fun token onward terminal closing => ?_
      have text := Token.value_of_terminal terminal
      refine Finds.accept_not closing (by decide) ?_
      exact ⟨by simp only [List.map_cons, List.map_nil, Param.bare, text], closing⟩
    | moreParams following =>
      refine Finds.expect stands rfl (by simp) fun _ after _ behind => ?_
      refine Finds.expect behind rfl (by simp) fun token onward terminal comma => ?_
      have text := Token.value_of_terminal terminal
      refine Finds.accept comma (by simp) fun inside further => ?_
      refine (ih following (List.cons_ne_nil _ _) further).bind ?_
      rintro found last ⟨same, still⟩
      exact ⟨by rw [List.map_cons, List.map_cons, same, Param.bare, Param.bare, text], still⟩

theorem finds_parameterList (derives : Derives (.params params) read)
    (stands : cursor.terminals = read ++ .mark .rparen :: rest) :
    Finds (parameterList depth) cursor fun found after =>
      found.map Param.bare = params.map Param.bare ∧ after.terminals = .mark .rparen :: rest := by
  cases derives with
  | noParams => exact Finds.accept stands (by simp) fun after behind => ⟨rfl, behind⟩
  | lastParam =>
    exact Finds.accept_not stands (by decide) (finds_parameters .lastParam (List.cons_ne_nil _ _) stands)
  | moreParams following =>
    exact Finds.accept_not stands (by decide) (finds_parameters (.moreParams following) (List.cons_ne_nil _ _) stands)

section Specifiers
variable {known : Specifiers} {token : Token} {others : List Token} {rest : List Terminal}
  {done : Specifiers × Cursor → Prop} {failed : Error → Prop}

theorem Specifiers.meets_read_mark {kind : TokenKind} {add : String → Span → Specifiers}
    (stands : Cursor.terminals ⟨token, others⟩ = .mark kind :: rest) (more : rest ≠ [])
    (specifier : kind.isSpecifier = true) (adds : ∀ value span, known.add ⟨kind, value, span⟩ = .ok (add value span))
    (later : ∀ value span next others, Cursor.terminals ⟨next, others⟩ = rest →
      IntC.Meets ((add value span).read next others) done failed) :
    IntC.Meets (known.read token others) done failed := by
  have same : token.kind = kind := Cursor.current_kind stands
  obtain ⟨_, value, span⟩ := token
  cases same
  cases others with
  | nil => exact absurd (List.cons.inj stands).2.symm more
  | cons next others =>
    rw [Specifiers.read, if_pos specifier, adds]
    exact later value span next others (List.cons.inj stands).2

theorem Specifiers.meets_read_name (stands : Cursor.terminals ⟨token, others⟩ = .name name :: rest)
    (right : done (known, ⟨token, others⟩)) : IntC.Meets (known.read token others) done failed := by
  have other : token.kind = .ident := Cursor.current_kind stands
  cases others with
  | nil => exact right
  | cons next others =>
    rw [Specifiers.read, other]
    exact right

theorem Specifiers.read_marks {storage : Storage} {kinds : List TokenKind} (order : kinds.Perm storage.marks)
    (stands : Cursor.terminals ⟨token, others⟩ = kinds.map .mark ++ .name name :: rest) :
    IntC.Meets (Specifiers.read {} token others) (fun found => found.1.ints = 1 ∧
      (found.1.storage.map Prod.fst).getD .automatic = storage ∧ found.2.terminals = .name name :: rest) failed := by
  cases storage with
  | automatic =>
    cases List.perm_singleton.mp order
    refine meets_read_mark stands (by simp) rfl (fun _ _ => rfl) fun _ _ next others stands => ?_
    exact meets_read_name stands ⟨rfl, rfl, stands⟩
  | static | external =>
    rcases List.perm_pair.mp order with rfl | rfl
    all_goals
      refine meets_read_mark stands (by simp) rfl (fun _ _ => rfl) fun _ _ next others stands => ?_
      refine meets_read_mark stands (by simp) rfl (fun _ _ => rfl) fun _ _ next others stands => ?_
      exact meets_read_name stands ⟨rfl, rfl, stands⟩

end Specifiers

theorem finds_specifiers {storage : Storage} {kinds : List TokenKind} (order : kinds.Perm storage.marks)
    (stands : cursor.terminals = kinds.map .mark ++ .name name :: rest) :
    Finds specifiers cursor fun found after => found = storage ∧ after.terminals = .name name :: rest := by
  unfold Finds specifiers
  simp only [meets_bind, meets_get, meets_lift, meets_set]
  refine IntC.Meets.mono (Specifiers.read_marks order stands) ?_
  rintro ⟨⟨ints, storage⟩, after⟩ ⟨rfl, rfl, behind⟩
  cases storage <;> exact ⟨rfl, behind⟩

end Parts

def FindsBlock (block : Block) (read : List Terminal) : Prop :=
  ∀ rest depth cursor, rest ≠ [] → cursor.terminals = read ++ rest →
    Finds (Parse.block depth) cursor fun found after => found.bare = block.bare ∧ after.terminals = rest

/-- What stands behind the parameters of a function, whatever is done with it. -/
def FindsBody (body : Option Block) (read : List Terminal) : Prop :=
  ∀ rest depth cursor (go : Option Block → Parse (FuncDecl ⊕ VarDecl)) wanted, rest ≠ [] →
    cursor.terminals = read ++ rest →
    (∀ found after, found.map Block.bare = body.map Block.bare → after.terminals = rest →
      Finds (go found) after wanted) →
    Finds (accept .semi >>= fun given => if given = true then pure none >>= go else some <$> Parse.block depth >>= go)
      cursor wanted

def FindsDeclaration (item : Item) (read : List Terminal) : Prop :=
  ∀ rest depth cursor, rest ≠ [] → cursor.terminals = read ++ rest →
    Finds (declaration depth) cursor fun found after =>
      itemsBare [declItem found] = itemsBare [item] ∧ after.terminals = rest

def FindsItems (items : List Item) (read : List Terminal) : Prop :=
  ∀ rest depth cursor, rest ≠ [] → cursor.terminals = read ++ .mark .rbrace :: rest →
    Finds (blockItems depth) cursor fun found after => itemsBare found = itemsBare items ∧ after.terminals = rest

def FindsForInit (init : ForInit) (read : List Terminal) : Prop :=
  ∀ rest depth cursor, rest ≠ [] → cursor.terminals = read ++ rest →
    Finds (forInit depth) cursor fun found after => found.bare = init.bare ∧ after.terminals = rest

/-- A statement is found, unless an `else` behind it would belong to it. -/
def FindsStatement (stmt : Stmt) (read : List Terminal) : Prop :=
  ∀ next rest depth cursor, (stmt.isOpen = true → next.kind ≠ .kwElse) → cursor.terminals = read ++ next :: rest →
    Finds (statement depth) cursor fun found after => found.bare = stmt.bare ∧ after.terminals = next :: rest

section Declarations
variable {read first second : List Terminal} {span : Span} {name : String} {storage : Storage}
  {specifiers : List TokenKind}

theorem findsBody_none : FindsBody none [.mark .semi] := by
  intro rest depth cursor go wanted more stands later
  exact Finds.accept stands more fun after behind => later none after rfl behind

theorem findsBody_some {block : Block} (opens : Phrase.Opens read (.block block)) (finds : FindsBlock block read) :
    FindsBody (some block) read := by
  intro rest depth cursor go wanted more stands later
  obtain ⟨others, rfl⟩ := opens
  refine Finds.accept_not stands (by decide) ?_
  refine (finds rest depth cursor more stands).bind_map ?_
  rintro found after ⟨same, behind⟩
  exact later (some found) after (by simp only [Option.map_some, same]) behind

theorem findsDeclaration_var {init : Option Expr} (order : specifiers.Perm storage.marks)
    (opens : Phrase.Opens read (.initializer init)) (finds : FindsInitializer init read) :
    FindsDeclaration (.var ⟨span, name, init, storage⟩)
      (specifiers.map .mark ++ .name name :: (read ++ [Terminal.mark .semi])) := by
  intro rest depth cursor more stands
  simp only [List.append_assoc, List.cons_append, List.nil_append] at stands
  obtain _ | depth := depth
  · exact .exhausted
  refine (finds_specifiers order stands).bind ?_
  rintro _ after ⟨rfl, behind⟩
  refine Finds.expect behind rfl (by simp) fun token later terminal onward => ?_
  have text := Token.value_of_terminal terminal
  obtain ⟨opening, others, whole, noCall⟩ : ∃ opening others,
      read ++ .mark .semi :: rest = opening :: others ∧ opening.kind ≠ .lparen := by
    cases init with
    | none =>
      cases opens
      exact ⟨_, _, rfl, by decide⟩
    | some value =>
      obtain ⟨inner, rfl⟩ := opens
      exact ⟨_, _, rfl, by decide⟩
  refine Finds.accept_not (onward.trans whole) noCall ?_
  refine finds rest depth later _ _ onward fun found last same closing => ?_
  refine Finds.expect closing rfl more fun _ final _ still => ⟨?_, still⟩
  exact congrArg₂ (fun name init => [Item.var ⟨{}, name, init, _⟩]) text same

theorem findsDeclaration_func {body : Option Block} (order : specifiers.Perm storage.marks)
    (list : Derives (.params params) first) (finds : FindsBody body second) :
    FindsDeclaration (.func ⟨span, name, params, body, storage⟩)
      (specifiers.map .mark ++ .name name :: .mark .lparen :: (first ++ .mark .rparen :: second)) := by
  intro rest depth cursor more stands
  simp only [List.append_assoc, List.cons_append] at stands
  obtain _ | depth := depth
  · exact .exhausted
  refine (finds_specifiers order stands).bind ?_
  rintro _ after ⟨rfl, behind⟩
  refine Finds.expect behind rfl (by simp) fun token later terminal onward => ?_
  have text := Token.value_of_terminal terminal
  refine Finds.accept onward (by simp) fun inside further => ?_
  refine (finds_parameterList list further).bind ?_
  rintro names last ⟨sameParams, closing⟩
  refine Finds.expect closing rfl (by simp [more]) fun _ final _ still => ?_
  refine finds rest depth final _ _ more still fun found ending sameBody behind => ⟨?_, behind⟩
  have bare : ∀ decl, itemsBare [.func decl] = [.func decl.bare] := fun _ => rfl
  simp only [declItem, Sum.elim_inl, bare, FuncDecl.bare_eq, text, sameParams, sameBody]

theorem findsBlock (finds : FindsItems items read) :
    FindsBlock ⟨span, items⟩ (.mark .lbrace :: (read ++ [Terminal.mark .rbrace])) := by
  intro rest depth cursor more stands
  simp only [List.append_assoc, List.cons_append, List.nil_append] at stands
  obtain _ | depth := depth
  · exact .exhausted
  refine Finds.expect stands rfl (by simp) fun _ after _ behind => ?_
  refine (finds rest depth after more behind).bind ?_
  rintro found last ⟨same, still⟩
  exact ⟨congrArg (Block.mk {}) same, still⟩

theorem findsItems_nil : FindsItems [] [] := by
  intro rest depth cursor more stands
  refine Finds.look stands (fun depth _ _ _ => ?_) rfl fun _ => rfl
  exact Finds.advance stands more fun after behind => ⟨rfl, behind⟩

theorem FindsItems.behind (finds : FindsItems items read) (more : rest ≠ []) {found : Item}
    (same : itemsBare [found] = itemsBare [item]) (stands : cursor.terminals = read ++ .mark .rbrace :: rest) :
    Finds (blockItems depth >>= fun others => pure (found :: others)) cursor fun found after =>
      itemsBare found = itemsBare (item :: items) ∧ after.terminals = rest := by
  refine (finds rest depth cursor more stands).bind ?_
  rintro others last ⟨sameOthers, still⟩
  refine ⟨?_, still⟩
  rw [itemsBare_cons, itemsBare_cons item, same, sameOthers]

theorem findsItems_decl (opens : OpensWith first TokenKind.isSpecifier) (finds : FindsDeclaration item first)
    (findsOthers : FindsItems items second) : FindsItems (item :: items) (first ++ second) := by
  intro rest depth cursor more stands
  rw [List.append_assoc] at stands
  obtain ⟨opening, others, rfl, specifier⟩ := opens
  refine Finds.look stands (fun depth _ _ _ => ?_) rfl fun _ => rfl
  split
  · rename_i found
    cases (show opening.kind = _ from found) ▸ specifier
  · rename_i found
    cases (show opening.kind = _ from found) ▸ specifier
  · rw [if_pos specifier]
    refine (finds _ depth cursor (by simp) stands).bind ?_
    rintro (decl | decl) after ⟨same, behind⟩
    all_goals exact findsOthers.behind more same behind

theorem findsItems_stmt {stmt : Stmt} (opens : OpensWith first TokenKind.opensStmt)
    (opensOthers : Phrase.Opens second (.items items)) (finds : FindsStatement stmt first)
    (findsOthers : FindsItems items second) : FindsItems (.stmt stmt :: items) (first ++ second) := by
  intro rest depth cursor more stands
  rw [List.append_assoc] at stands
  -- No `else` stands behind a statement of a block.
  obtain ⟨next, following, whole, noElse⟩ : ∃ next following,
      second ++ .mark .rbrace :: rest = next :: following ∧ next.kind ≠ .kwElse := by
    rcases opensOthers with rfl | ⟨next, following, rfl, kinds⟩
    · exact ⟨_, _, rfl, by decide⟩
    · refine ⟨next, _, rfl, fun isElse => ?_⟩
      rw [isElse] at kinds
      cases kinds
  obtain ⟨opening, others, rfl, opens⟩ := opens
  refine Finds.look stands (fun depth _ _ _ => ?_) rfl fun _ => rfl
  split
  · rename_i found
    cases (show opening.kind = _ from found) ▸ opens
  · rename_i found
    cases (show opening.kind = _ from found) ▸ opens
  · rw [if_neg (TokenKind.not_isSpecifier_of_opensStmt opens)]
    rw [whole] at stands
    refine (finds next following depth cursor (fun _ => noElse) stands).bind_map ?_
    rintro found after ⟨same, behind⟩
    exact findsOthers.behind more (congrArg (fun stmt => [Item.stmt stmt]) same) (behind.trans whole.symm)

theorem findsForInit_none : FindsForInit .none [.mark .semi] := by
  intro rest depth cursor more stands
  refine Finds.look stands (fun depth _ _ _ => ?_) rfl fun _ => rfl
  refine (findsOptional_none .semi rest depth cursor (.inl rfl) more stands).bind ?_
  rintro (_ | value) after ⟨same, behind⟩
  · exact ⟨rfl, behind⟩
  · cases same

theorem findsForInit_var {decl : VarDecl} (opens : OpensWith read TokenKind.isSpecifier)
    (finds : FindsDeclaration (.var decl) read) : FindsForInit (.var decl) read := by
  intro rest depth cursor more stands
  obtain ⟨opening, others, rfl, specifier⟩ := opens
  refine Finds.look stands (fun depth _ _ _ => ?_) rfl fun _ => rfl
  rw [if_pos specifier]
  refine (finds rest depth cursor more stands).bind ?_
  rintro (found | found) after ⟨same, behind⟩
  · cases same
  · exact ⟨congrArg ForInit.var (Item.var.inj (List.cons.inj same).1), behind⟩

theorem findsForInit_expr {value : Expr} (opens : OpensWith read TokenKind.opensExpr)
    (finds : FindsExpression 0 value read) : FindsForInit (.expr value) (read ++ [Terminal.mark .semi]) := by
  intro rest depth cursor more stands
  rw [List.append_assoc] at stands
  have optional := findsOptional_some opens finds
  obtain ⟨opening, others, rfl, opens⟩ := opens
  have other := TokenKind.not_isSpecifier_of_opensStmt (TokenKind.opensStmt_of_opensExpr _ opens)
  refine Finds.look stands (fun depth _ _ _ => ?_) rfl fun _ => rfl
  rw [if_neg other]
  refine (optional .semi rest depth cursor (.inl rfl) more stands).bind ?_
  rintro (_ | found) after ⟨same, behind⟩
  · cases same
  · exact ⟨congrArg ForInit.expr (Option.some.inj same), behind⟩

end Declarations

section Statements
variable {read first second third fourth : List Terminal} {span : Span}

theorem findsStatement_ret {value : Expr} (finds : FindsExpression 0 value read) :
    FindsStatement (.ret span value) (.mark .kwReturn :: (read ++ [Terminal.mark .semi])) := by
  intro next rest depth cursor _ stands
  simp only [List.cons_append, List.append_assoc, List.nil_append] at stands
  refine Finds.look stands (fun depth _ _ _ => ?_) rfl fun _ => rfl
  refine Finds.advance stands (by simp) fun after behind => ?_
  refine (finds.value rfl (by decide) behind).bind ?_
  rintro found later ⟨same, closing⟩
  exact Finds.expect closing rfl (by simp) fun _ last _ still => ⟨congrArg (Stmt.ret {}) same, still⟩

theorem findsStatement_expr {value : Expr} (opens : OpensWith read TokenKind.opensExpr)
    (finds : FindsExpression 0 value read) : FindsStatement (.expr span value) (read ++ [Terminal.mark .semi]) := by
  intro next rest depth cursor _ stands
  simp only [List.append_assoc, List.cons_append, List.nil_append] at stands
  have step (depth : Nat) (place : Span) : Finds (expression depth 0 >>= fun value => expect .semi >>= fun _ =>
      pure (Stmt.expr place value)) cursor fun found after =>
        found.bare = (Stmt.expr span value).bare ∧ after.terminals = next :: rest := by
    refine (finds.value rfl (by decide) stands).bind ?_
    rintro found later ⟨same, closing⟩
    exact Finds.expect closing rfl (by simp) fun _ last _ still => ⟨congrArg (Stmt.expr {}) same, still⟩
  obtain ⟨opening, others, rfl, opens⟩ := opens
  refine Finds.look stands (fun depth _ place _ => ?_) rfl fun _ => rfl
  split <;> first
    | exact step depth place
    | rename_i found
      cases (show opening.kind = _ from found) ▸ opens

theorem findsStatement_ifThen {yes : Stmt} (findsCond : FindsExpression 0 cond first)
    (findsYes : FindsStatement yes second) :
    FindsStatement (.branch span cond yes none)
      (.mark .kwIf :: .mark .lparen :: (first ++ .mark .rparen :: second)) := by
  intro next rest depth cursor follow stands
  simp only [List.cons_append, List.append_assoc] at stands
  have noElse : next.kind ≠ .kwElse := follow rfl
  refine Finds.look stands (fun depth _ _ _ => ?_) rfl fun _ => rfl
  refine Finds.advance stands (by simp) fun after₁ behind => ?_
  refine Finds.expect behind rfl (by simp) fun _ after₂ _ behind => ?_
  refine (findsCond.value rfl (by decide) behind).bind ?_
  rintro condFound after₃ ⟨sameCond, behind⟩
  refine Finds.expect behind rfl (by simp) fun _ after₄ _ behind => ?_
  refine (findsYes next rest depth after₄ (fun _ => noElse) behind).bind ?_
  rintro yesFound after₅ ⟨sameYes, behind⟩
  exact Finds.accept_not behind noElse ⟨congrArg₂ (Stmt.branch {} · · none) sameCond sameYes, behind⟩

theorem findsStatement_ifElse {yes no : Stmt} (closed : yes.isOpen = false) (findsCond : FindsExpression 0 cond first)
    (findsYes : FindsStatement yes second) (findsNo : FindsStatement no third) :
    FindsStatement (.branch span cond yes (some no))
      (.mark .kwIf :: .mark .lparen :: (first ++ .mark .rparen :: (second ++ .mark .kwElse :: third))) := by
  intro next rest depth cursor follow stands
  simp only [List.cons_append, List.append_assoc] at stands
  refine Finds.look stands (fun depth _ _ _ => ?_) rfl fun _ => rfl
  refine Finds.advance stands (by simp) fun after₁ behind => ?_
  refine Finds.expect behind rfl (by simp) fun _ after₂ _ behind => ?_
  refine (findsCond.value rfl (by decide) behind).bind ?_
  rintro condFound after₃ ⟨sameCond, behind⟩
  refine Finds.expect behind rfl (by simp) fun _ after₄ _ behind => ?_
  refine (findsYes _ _ depth after₄ (fun isOpen => by simp [closed] at isOpen) behind).bind ?_
  rintro yesFound after₅ ⟨sameYes, behind⟩
  refine Finds.accept behind (by simp) fun after₆ behind => ?_
  refine (findsNo next rest depth after₆ follow behind).bind_map ?_
  rintro noFound after₇ ⟨sameNo, behind⟩
  have whole := congr (congrArg₂ (Stmt.branch {}) sameCond sameYes) (congrArg some sameNo)
  exact ⟨whole, behind⟩

theorem findsStatement_block {block : Block} (opens : Phrase.Opens read (.block block))
    (finds : FindsBlock block read) : FindsStatement (.block block) read := by
  intro next rest depth cursor _ stands
  obtain _ | depth := depth
  · exact .exhausted
  obtain ⟨others, rfl⟩ := opens
  have kind : cursor.current.kind = .lbrace := Cursor.current_kind stands
  refine Finds.current ?_
  simp only [kind]
  refine Finds.map ((finds (next :: rest) depth cursor (List.cons_ne_nil _ _) stands).mono ?_)
  rintro found after ⟨same, behind⟩
  exact ⟨congrArg Stmt.block same, behind⟩

theorem findsStatement_break : FindsStatement (.breakLoop span "") [.mark .kwBreak, .mark .semi] := by
  intro next rest depth cursor _ stands
  refine Finds.look stands (fun depth _ _ _ => ?_) rfl fun _ => rfl
  refine Finds.advance stands (by simp) fun after behind => ?_
  exact Finds.expect behind rfl (by simp) fun _ last _ still => ⟨rfl, still⟩

theorem findsStatement_continue : FindsStatement (.continueLoop span "") [.mark .kwContinue, .mark .semi] := by
  intro next rest depth cursor _ stands
  refine Finds.look stands (fun depth _ _ _ => ?_) rfl fun _ => rfl
  refine Finds.advance stands (by simp) fun after behind => ?_
  exact Finds.expect behind rfl (by simp) fun _ last _ still => ⟨rfl, still⟩

theorem findsStatement_empty : FindsStatement (.empty span) [.mark .semi] := by
  intro next rest depth cursor _ stands
  refine Finds.look stands (fun depth _ _ _ => ?_) rfl fun _ => rfl
  exact Finds.advance stands (by simp) fun after behind => ⟨rfl, behind⟩

theorem findsStatement_while (findsCond : FindsExpression 0 cond first) (findsBody : FindsStatement body second) :
    FindsStatement (.whileLoop span cond body "")
      (.mark .kwWhile :: .mark .lparen :: (first ++ .mark .rparen :: second)) := by
  intro next rest depth cursor follow stands
  simp only [List.cons_append, List.append_assoc] at stands
  refine Finds.look stands (fun depth _ _ _ => ?_) rfl fun _ => rfl
  refine Finds.advance stands (by simp) fun after₁ behind => ?_
  refine Finds.expect behind rfl (by simp) fun _ after₂ _ behind => ?_
  refine (findsCond.value rfl (by decide) behind).bind ?_
  rintro condFound after₃ ⟨sameCond, behind⟩
  refine Finds.expect behind rfl (by simp) fun _ after₄ _ behind => ?_
  refine (findsBody next rest depth after₄ follow behind).bind ?_
  rintro bodyFound after₅ ⟨sameBody, behind⟩
  exact ⟨congrArg₂ (Stmt.whileLoop {} · · "") sameCond sameBody, behind⟩

theorem findsStatement_do (findsBody : FindsStatement body first) (findsCond : FindsExpression 0 cond second) :
    FindsStatement (.doLoop span body cond "")
      (.mark .kwDo :: (first ++ .mark .kwWhile :: .mark .lparen ::
        (second ++ [Terminal.mark .rparen, Terminal.mark .semi]))) := by
  intro next rest depth cursor _ stands
  simp only [List.cons_append, List.append_assoc, List.nil_append] at stands
  refine Finds.look stands (fun depth _ _ _ => ?_) rfl fun _ => rfl
  refine Finds.advance stands (by simp) fun after₁ behind => ?_
  refine (findsBody _ _ depth after₁ (fun _ => by decide) behind).bind ?_
  rintro bodyFound after₂ ⟨sameBody, behind⟩
  refine Finds.expect behind rfl (by simp) fun _ after₃ _ behind => ?_
  refine Finds.expect behind rfl (by simp) fun _ after₄ _ behind => ?_
  refine (findsCond.value rfl (by decide) behind).bind ?_
  rintro condFound after₅ ⟨sameCond, behind⟩
  refine Finds.expect behind rfl (by simp) fun _ after₆ _ behind => ?_
  exact Finds.expect behind rfl (by simp) fun _ after₇ _ behind =>
    ⟨congrArg₂ (Stmt.doLoop {} · · "") sameBody sameCond, behind⟩

theorem findsStatement_for {init : ForInit} {cond post : Option Expr} (findsInit : FindsForInit init first)
    (findsCond : FindsOptional cond second) (findsPost : FindsOptional post third)
    (findsBody : FindsStatement body fourth) :
    FindsStatement (.forLoop span init cond post body "") (.mark .kwFor :: .mark .lparen ::
      (first ++ (second ++ .mark .semi :: (third ++ .mark .rparen :: fourth)))) := by
  intro next rest depth cursor follow stands
  simp only [List.cons_append, List.append_assoc] at stands
  refine Finds.look stands (fun depth _ _ _ => ?_) rfl fun _ => rfl
  refine Finds.advance stands (by simp) fun after₁ behind => ?_
  refine Finds.expect behind rfl (by simp) fun _ after₂ _ behind => ?_
  refine (findsInit _ depth after₂ (by simp) behind).bind ?_
  rintro initFound after₃ ⟨sameInit, behind⟩
  refine (findsCond .semi _ depth after₃ (.inl rfl) (by simp) behind).bind ?_
  rintro condFound after₄ ⟨sameCond, behind⟩
  refine (findsPost .rparen _ depth after₄ (.inr rfl) (by simp) behind).bind ?_
  rintro postFound after₅ ⟨samePost, behind⟩
  refine (findsBody next rest depth after₅ follow behind).bind ?_
  rintro bodyFound after₆ ⟨sameBody, behind⟩
  have header := congr (congrArg₂ (Stmt.forLoop {}) sameInit sameCond) samePost
  exact ⟨congrArg (· "") (congr header sameBody), behind⟩

end Statements

def FindsUnit (items : List Item) (read : List Terminal) : Prop :=
  ∀ rest depth cursor, cursor.terminals = read ++ .mark .eof :: rest →
    Finds (declarations depth) cursor fun found _ => itemsBare found = itemsBare items

theorem findsUnit_nil : FindsUnit [] [] := by
  intro rest depth cursor stands
  refine Finds.look stands (fun _ _ _ _ => ?_) rfl fun _ => rfl
  exact rfl

theorem findsUnit_cons {first second : List Terminal} (opens : OpensWith first TokenKind.isSpecifier)
    (finds : FindsDeclaration item first) (findsOthers : FindsUnit items second) :
    FindsUnit (item :: items) (first ++ second) := by
  intro rest depth cursor stands
  rw [List.append_assoc] at stands
  have finish : ∀ depth found last, itemsBare [found] = itemsBare [item] →
      Cursor.terminals last = second ++ .mark .eof :: rest →
      Finds (declarations depth >>= fun others => pure (found :: others)) last fun found _ =>
        itemsBare found = itemsBare (item :: items) := by
    intro depth found last same behind
    refine (findsOthers rest depth last behind).bind fun others final sameOthers => ?_
    change itemsBare (found :: others) = itemsBare (item :: items)
    rw [itemsBare_cons, itemsBare_cons item, same, sameOthers]
  obtain ⟨opening, others, rfl, specifier⟩ := opens
  have more : opening.kind ≠ .eof := TokenKind.ne_eof_of_isMark (TokenKind.isMark_of_isSpecifier specifier)
  refine Finds.look stands (fun depth _ _ _ => ?_) rfl fun _ => rfl
  rw [if_neg more]
  refine (finds _ depth cursor (by simp) stands).bind ?_
  rintro (decl | decl) after ⟨same, behind⟩
  · exact finish depth (.func decl) after same behind
  · exact finish depth (.var decl) after same behind

/-- What the parser makes of the terminals of a phrase. -/
def Found (read : List Terminal) : Phrase → Prop
  | .expr least value => FindsExpression least value read
  | .args values => FindsArguments values read
  | .optional value => FindsOptional value read
  | .initializer value => FindsInitializer value read
  | .params _ => True
  | .decl item => FindsDeclaration item read
  | .body body => FindsBody body read
  | .block block => FindsBlock block read
  | .items items => FindsItems items read
  | .forInit init => FindsForInit init read
  | .stmt stmt => FindsStatement stmt read
  | .unit items => FindsUnit items read

end Parse

/-- Whatever the grammar derives from a phrase, the parser finds the phrase in it. -/
theorem Derives.found {phrase : Phrase} {read : List Terminal} (derives : Derives phrase read) :
    Parse.Found read phrase := by
  induction derives with
  | number => exact Parse.findsExpression_number
  | ident => exact Parse.findsExpression_ident
  | call args finds => exact Parse.findsExpression_call args.opens finds
  | unary known _ operand => exact Parse.findsExpression_unary known operand
  | binary known weak _ _ left right => exact Parse.findsExpression_binary known weak left right
  | assign weak _ _ target value => exact Parse.findsExpression_assign weak target value
  | conditional weak _ _ _ cond yes no => exact Parse.findsExpression_conditional weak cond yes no
  | paren _ inner => exact Parse.findsExpression_paren inner
  | noArgs => exact fun _ _ _ some => absurd rfl some
  | lastArg _ arg => exact Parse.findsArguments_last arg
  | moreArgs _ _ arg others => exact Parse.findsArguments_more arg others
  | absent => exact Parse.findsOptional_none
  | present value finds => exact Parse.findsOptional_some value.opens finds
  | noInitializer => exact Parse.findsInitializer_none
  | initializer _ value => exact Parse.findsInitializer_some value
  | noParams | lastParam | moreParams => trivial
  | var order init finds => exact Parse.findsDeclaration_var order init.opens finds
  | func order params _ _ body => exact Parse.findsDeclaration_func order params body
  | noBody => exact Parse.findsBody_none
  | body block finds => exact Parse.findsBody_some block.opens finds
  | block _ items => exact Parse.findsBlock items
  | noItems => exact Parse.findsItems_nil
  | declItem decl _ finds others => exact Parse.findsItems_decl decl.opens finds others
  | stmtItem stmt rest finds others => exact Parse.findsItems_stmt stmt.opens rest.opens finds others
  | noForInit => exact Parse.findsForInit_none
  | varForInit decl finds => exact Parse.findsForInit_var decl.opens finds
  | exprForInit value finds => exact Parse.findsForInit_expr value.opens finds
  | ret _ value => exact Parse.findsStatement_ret value
  | exprStmt value finds => exact Parse.findsStatement_expr value.opens finds
  | ifThen _ _ cond yes => exact Parse.findsStatement_ifThen cond yes
  | ifElse closed _ _ _ cond yes no => exact Parse.findsStatement_ifElse closed cond yes no
  | blockStmt block finds => exact Parse.findsStatement_block block.opens finds
  | breakLoop => exact Parse.findsStatement_break
  | continueLoop => exact Parse.findsStatement_continue
  | whileLoop _ _ cond body => exact Parse.findsStatement_while cond body
  | doLoop _ _ body cond => exact Parse.findsStatement_do body cond
  | forLoop _ _ _ _ init cond post body => exact Parse.findsStatement_for init cond post body
  | empty => exact Parse.findsStatement_empty
  | noDecls => exact Parse.findsUnit_nil
  | moreDecls decl _ finds others => exact Parse.findsUnit_cons decl.opens finds others

/-- Every list of tokens that the grammar derives is parsed, and it is parsed as it is derived. -/
theorem parse_of_derives {items : List Item} {read : List Terminal} {tokens : List Token}
    (derives : Derives (.unit items) read) (written : tokens.map Token.terminal = read ++ [.mark .eof]) :
    ∃ program, parse tokens = .ok program ∧ itemsBare program.items = itemsBare items := by
  obtain ⟨tail, -, same, -⟩ := Cursor.ofTokens_eq tokens
  have stands : (Cursor.ofTokens tokens).terminals = read ++ .mark .eof :: tail.map Token.terminal := by
    rw [Cursor.terminals, same, List.map_append, written, List.append_assoc]
    rfl
  have finds := derives.found _ (parseDepth tokens.length) _ stands
  have blamed := parse_takes tokens
  unfold Parse.Finds Parse.Meets at finds
  unfold parse at blamed ⊢
  simp only at blamed ⊢
  cases outcome : Parse.declarations (parseDepth tokens.length) (Cursor.ofTokens tokens) with
  | error error =>
    rw [outcome] at finds blamed
    cases finds
    cases blamed
  | ok result =>
    rw [outcome] at finds
    exact ⟨_, rfl, finds⟩

/-- Parsing undoes writing: whatever places and spellings of marks the tokens have, and however their constants are
written, the tree that is read from them is the one that was written down. -/
theorem parse_undoes_write {program : Program} (shaped : program.Shaped 0) {tokens : List Token}
    (written : tokens.map Token.terminal = program.write.map Token.terminal) :
    ∃ parsed, parse tokens = .ok parsed ∧ parsed.bare = program.bare := by
  rw [Program.write, List.map_append] at written
  obtain ⟨parsed, fine, same⟩ := parse_of_derives (writeUnit_derives shaped.1 shaped.2) written
  exact ⟨parsed, fine, congrArg (Program.mk {}) same⟩

/-- Operands that need parentheses on either side of their operators, and an `else` behind a statement that holds an
`if` without one. -/
def tangledProgram : Program where
  items := [
    .var ⟨{}, "n", some (.conditional {} (.assign {} (.ident {} "m") (.number {} 2147483647)) (.number {} 0)
      (.conditional {} (.ident {} "m") (.ident {} "m") (.assign {} (.ident {} "m") (.number {} 1)))), .static⟩,
    .func ⟨{}, "f", [⟨{}, "a"⟩, ⟨{}, "b"⟩], some ⟨{}, [
      .stmt (.branch {} (.ident {} "a")
        (.doLoop {} (.branch {} (.ident {} "b") (.empty {}) none) (.number {} 1) "")
        (some (.ret {} (.binary {} .star (.binary {} .minus (.ident {} "a") (.ident {} "b"))
          (.unary {} .minus (.binary {} .star (.ident {} "a") (.call {} "f" [])))))))]⟩, .external⟩]

theorem parse_undoes_write_tangled : tangledProgram.Shaped 0 ∧
    ∃ parsed, parse tangledProgram.write = .ok parsed ∧ parsed.bare = tangledProgram.bare := by
  have shaped : tangledProgram.Shaped 0 := by
    simp [tangledProgram, Program.Shaped, itemsShaped, optionalShaped, FuncDecl.Shaped, Block.Shaped, Stmt.Shaped,
      Expr.Shaped, argsShaped, Stmt.isOpen, TokenKind.strength?, TokenKind.isUnary, unaryOp?]
  exact ⟨shaped, parse_undoes_write shaped rfl⟩

end IntC
