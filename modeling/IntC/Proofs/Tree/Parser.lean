import IntC.Proofs.Tree.ParserCalls

namespace IntC

variable {tokens : List Token}

namespace Parse
open Cursor (Passed)

variable {depth : Nat} {cursor : Cursor} {site : Site}

def Specifiers.kinds (known : Specifiers) : List TokenKind :=
  (known.storage.elim [] fun found => found.1.marks.erase .kwInt) ++ List.replicate known.ints .kwInt

theorem Specifiers.add_kinds (known : Specifiers) {token : Token} (specifier : token.kind.isSpecifier = true)
    (tokens : List Token) :
    IntC.Meets (known.add token) (fun later => later.kinds.Perm (token.kind :: known.kinds)) (Complains tokens) := by
  obtain ⟨kind, value, span⟩ := token
  obtain ⟨ints, storage⟩ := known
  cases kind with
  | kwInt => exact List.perm_middle
  | kwStatic | kwExtern =>
    cases storage with
    | none => exact List.Perm.refl _
    | some => exact .other rfl rfl
  | _ => cases specifier

theorem Specifiers.read_kinds (known : Specifiers) (cursor : Cursor) (ends : cursor.Ends) :
    IntC.Meets (known.read cursor.current cursor.rest) (fun found => Passed 0 cursor found.2 ∧
      ∃ kinds : List TokenKind, cursor.terminals = kinds.map .mark ++ found.2.terminals ∧
        (kinds ++ known.kinds).Perm found.1.kinds) (Complains cursor.tokens) := by
  obtain ⟨token, rest⟩ := cursor
  induction rest generalizing known token with
  | nil => exact ⟨.refl ends, [], rfl, List.Perm.refl _⟩
  | cons next rest ih =>
    unfold Specifiers.read
    split
    · rename_i specifier
      have mark := TokenKind.isMark_of_isSpecifier specifier
      have here := (Passed.refl ends).advance (TokenKind.ne_eof_of_isMark mark)
      rw [IntC.meets_bind]
      refine (known.add_kinds specifier _).mono fun later added => ?_
      refine IntC.Meets.imp (ih later next here.ends) ?_ fun error complains => complains.mono here.suffix
      rintro found ⟨there, kinds, same, all⟩
      refine ⟨(here.trans there).mono (Nat.zero_le _), token.kind :: kinds, ?_, ?_⟩
      · change token.terminal :: Cursor.terminals ⟨next, rest⟩ = _
        rw [Token.terminal_mark rfl mark, same]
        rfl
      · exact (List.perm_middle.symm.trans (added.symm.append_left kinds)).trans all
    · exact ⟨.refl ends, [], rfl, List.Perm.refl _⟩

theorem Specifiers.loop_succ (depth : Nat) (known : Specifiers) (cursor : Cursor) :
    Specifiers.loop (depth + 1) known cursor = if cursor.current.kind.isSpecifier = true then
      (do Specifiers.loop depth (← known.add cursor.current) cursor.advance) else .ok (known, cursor) := by
  change (if cursor.current.kind.isSpecifier = true then _ else _ : Parse Specifiers) cursor = _
  split
  · cases known.add cursor.current <;> rfl
  · rfl

/-- Reading specifiers one by one, up to a token that is none, is reading them all. -/
theorem Specifiers.loop_eq_read (known : Specifiers) (cursor : Cursor) (ends : cursor.Ends)
    (deep : cursor.left < depth) : Specifiers.loop depth known cursor = known.read cursor.current cursor.rest := by
  induction depth generalizing known cursor with
  | zero => exact absurd deep (Nat.not_lt_zero _)
  | succ depth ih =>
    obtain ⟨token, rest⟩ := cursor
    by_cases specifier : token.kind.isSpecifier = true
    · have inside := TokenKind.ne_eof_of_isMark (TokenKind.isMark_of_isSpecifier specifier)
      have here := (Passed.refl ends).advance inside
      cases rest with
      | nil =>
        have far := here.far
        exact absurd far (Nat.not_succ_le_zero _)
      | cons next rest =>
        have later := fun more => ih more ⟨next, rest⟩ here.ends (Nat.lt_of_succ_lt_succ deep)
        rw [loop_succ, if_pos specifier, Specifiers.read, if_pos specifier]
        exact congrArg _ (funext later)
    · rw [loop_succ, if_neg specifier]
      cases rest with
      | nil => rfl
      | cons next rest => rw [Specifiers.read, if_neg specifier]

section Parts
variable {depth : Nat} {cursor : Cursor} (ends : cursor.Ends)
include ends

theorem walks_specifiers (reason : Prop) : Walks cursor 0 reason specifiers cursor fun storage read _ =>
    ∃ kinds : List TokenKind, kinds.Perm storage.marks ∧ read = kinds.map .mark := by
  unfold Walks specifiers
  simp only [meets_bind, meets_get, meets_lift, meets_set]
  refine IntC.Meets.imp (Specifiers.read_kinds {} cursor ends) ?_ fun error => .inl
  rintro ⟨⟨ints, storage⟩, after⟩ ⟨passed, kinds, same, all⟩
  rw [show Specifiers.kinds {} = [] from rfl, List.append_nil] at all
  split
  · exact .inl (.other rfl rfl)
  · exact .inl (.other rfl rfl)
  · rename_i one none
    cases one
    cases none
    exact ⟨passed, _, same, kinds, all, rfl⟩
  · rename_i storage span one found
    cases one
    cases found
    refine ⟨passed, _, same, kinds, all.trans ?_, rfl⟩
    cases storage <;> exact List.Perm.refl _
  · exact .inl (.other rfl rfl)

variable (below : Walked depth)
include below

theorem walks_optionalExpression {delimiter : TokenKind} (mark : delimiter.isMark = true) :
    Walks cursor 1 (RunsOut depth (.expression 0, cursor)) (optionalExpression depth delimiter) cursor
      fun value read _ => ∃ inner, Derives (.optional value) inner ∧ read = inner ++ [Terminal.mark delimiter] := by
  have start : Reached depth cursor [] cursor := .nil ends
  refine Walks.accept start mark (fun _ => ?_) fun _ after here => .done here (Nat.le_refl 1) ⟨[], .absent, rfl⟩
  refine Walks.part (.ran .expression) start (below.walks (.expression 0) ends) id
    (fun value _ came => ⟨.expression 0, value, rfl, came⟩) ?_
  rintro value middle inner here ⟨derives, -⟩
  exact Walks.expect here mark fun _ after there => .done there (Nat.le_succ 1) ⟨inner, .present derives, rfl⟩

theorem walks_parameterList : Walks cursor 1 (RunsOut depth (.parameters, cursor)) (parameterList depth) cursor
    fun params read _ => Derives (.params params) read := by
  have start : Reached depth cursor [] cursor := .nil ends
  refine Walks.accept start rfl (fun _ => ?_) fun _ after here => .done here (Nat.le_refl 1) .noParams
  exact (below.walks .parameters ends).mono fun _ _ _ => And.right

end Parts

theorem Walks.optional {α : Type} {count : Nat} {start : Cursor} {steps : List Step} {caller : Call}
    {delimiter : TokenKind} {f : Option Expr → Parse α} {wanted : α → List Terminal → Cursor → Prop}
    (below : Walked depth) (here : Reached depth start steps cursor) (mark : delimiter.isMark = true)
    (listed : (steps, .expression) ∈ caller.routine.calls)
    (later : ∀ value after inner, Reached depth start (steps ++ [Step.optional delimiter]) after →
      Derives (.optional value) inner → Walks start count (Starves depth (caller, start)) (f value) after
        fun a more => wanted a (inner ++ [Terminal.mark delimiter] ++ more)) :
    Walks start count (Starves depth (caller, start)) (optionalExpression depth delimiter >>= f) cursor wanted := by
  refine .part (.optional delimiter) here (walks_optionalExpression here.ends below mark) (fun out => ?_)
    (fun value _ came => ⟨mark, value, came⟩) ?_
  · exact ⟨(.expression 0, cursor), ⟨steps, listed, here.path⟩, out⟩
  · rintro value after _ there ⟨inner, derives, rfl⟩
    exact later value after inner there derives

section Steps
variable {depth : Nat} (below : Walked depth) {c : Cursor} (ends : c.Ends)
include below ends

theorem walks_declarations :
    Walks c 0 (Starves depth (.declarations, c)) (declarations (depth + 1)) c (Call.Wanted c .declarations) := by
  have start : Reached depth c [] c := .nil ends
  refine Walks.current ?_
  split
  · rename_i eof
    exact .done start le_rfl ⟨.noDecls, eof⟩
  · refine Walks.call below .declaration start (by decide) fun decl c₁ first here derives => ?_
    have finish (item : Item) (derives : Derives (.decl item) first) : Walks c 0 (Starves depth (.declarations, c))
        (declarations depth >>= fun rest => pure (item :: rest)) c₁
        fun items read after => Derives (.unit items) (first ++ read) ∧ after.current.kind = .eof := by
      refine Walks.call below .declarations here (by decide) ?_
      rintro rest c₂ others here ⟨following, eof⟩
      refine .done here (Nat.zero_le _) ⟨?_, eof⟩
      rw [List.append_nil]
      exact .moreDecls derives following
    cases decl with
    | inl decl => exact finish (.func decl) derives
    | inr decl => exact finish (.var decl) derives

theorem walks_specifierLoop (known : Specifiers) :
    Walks c 0 (Starves depth (.specifiers known, c)) (Specifiers.loop (depth + 1) known) c
      (Call.Wanted c (.specifiers known)) := by
  have start : Reached depth c [] c := .nil ends
  have listed : ([] ++ [Step.specifier], .specifiers) ∈ Routine.calls .specifiers := by decide
  refine Walks.current ?_
  split
  · rename_i specifier
    have inside := TokenKind.ne_eof_of_isMark (TokenKind.isMark_of_isSpecifier specifier)
    refine Walks.lift ((known.add_kinds specifier _).mono fun _ _ => trivial) fun more => ?_
    refine Walks.token .specifier start inside ⟨specifier, rfl⟩ rfl fun c₁ here => ?_
    exact .last below (.specifiers more) here listed (Nat.zero_le _) fun _ _ _ _ => trivial
  · exact .done start le_rfl trivial

theorem walks_declaration :
    Walks c 1 (Starves depth (.declaration, c)) (declaration (depth + 1)) c (Call.Wanted c .declaration) := by
  have start : Reached depth c [] c := .nil ends
  have listed : ([] ++ [Step.specifiers] ++ [Step.read .ident] ++ [Step.read .lparen], .parameters) ∈
      Routine.calls .declaration := by decide
  refine Walks.part .specifiers start (walks_specifiers ends False) False.elim
    (fun storage _ came => ⟨storage, came⟩) ?_
  rintro storage c₁ _ here ⟨kinds, order, rfl⟩
  refine Walks.expect_name here fun name c₂ here => ?_
  refine Walks.accept here rfl (fun _ => ?_) fun _ c₃ here => ?_
  · refine Walks.accept here rfl (fun _ => ?_) fun _ c₃ here => ?_
    · exact Walks.expect here rfl fun _ c₃ here => .done here (by decide) (.var order .noInitializer)
    · refine Walks.call_map below (.expression 0) here (by decide) ?_
      rintro value c₄ inner here ⟨derives, -⟩
      exact Walks.expect here rfl fun _ c₅ here => .done here (by decide) (.var order (.initializer derives))
  · refine Walks.part .parameterList here (walks_parameterList here.ends below)
      (fun out => ⟨(.parameters, c₃), ⟨_, listed, here.path⟩, out⟩) (fun params _ came => ⟨params, came⟩)
      fun params c₄ inner here list => ?_
    refine Walks.expect here rfl fun _ c₅ here => ?_
    refine Walks.accept here rfl (fun _ => ?_) fun _ c₆ here => .done here (by decide) (.func order list .noBody)
    refine Walks.call_map below .block here (by decide) fun body c₆ rest here inside => .done here (by decide) ?_
    rw [List.append_nil]
    exact .func order list (.body inside)

theorem walks_parameters :
    Walks c 1 (Starves depth (.parameters, c)) (parameters (depth + 1)) c (Call.Wanted c .parameters) := by
  have start : Reached depth c [] c := .nil ends
  refine Walks.expect start rfl fun _ c₁ here => ?_
  refine Walks.expect_name here fun token c₂ here => ?_
  refine Walks.accept here rfl (fun _ => .done here (by decide) ⟨List.cons_ne_nil _ _, .lastParam⟩) fun _ c₃ here => ?_
  refine Walks.call below .parameters here (by decide) ?_
  rintro (_ | ⟨next, rest⟩) c₄ others here ⟨some, following⟩
  · exact absurd rfl some
  · refine .done here (by decide) ⟨List.cons_ne_nil _ _, ?_⟩
    rw [List.append_nil]
    exact .moreParams following

theorem walks_block : Walks c 1 (Starves depth (.block, c)) (block (depth + 1)) c (Call.Wanted c .block) := by
  have start : Reached depth c [] c := .nil ends
  refine Walks.expect start rfl fun brace c₁ here => ?_
  refine Walks.call below .blockItems here (by decide) ?_
  rintro items c₂ _ here ⟨inner, derives, rfl⟩
  refine .done here (by decide) ?_
  rw [List.append_nil]
  exact .block derives

theorem walks_blockItems :
    Walks c 1 (Starves depth (.blockItems, c)) (blockItems (depth + 1)) c (Call.Wanted c .blockItems) := by
  have start : Reached depth c [] c := .nil ends
  refine Walks.current ?_
  split
  · rename_i found
    exact Walks.advance start found rfl fun c₁ here => .done here (by decide) ⟨[], .noItems, rfl⟩
  · exact .fail rfl rfl
  · have finish {steps : List Step} {first : List Terminal} {c₁ : Cursor} (item : Item)
        (here : Reached depth c steps c₁) (listed : (steps, .blockItems) ∈ Routine.calls .blockItems)
        (added : ∀ rest others, Derives (.items rest) others → Derives (.items (item :: rest)) (first ++ others)) :
        Walks c 1 (Starves depth (.blockItems, c)) (blockItems depth >>= fun rest => pure (item :: rest)) c₁
          fun items read _ =>
            ∃ inner, Derives (.items items) inner ∧ first ++ read = inner ++ [Terminal.mark .rbrace] := by
      refine Walks.call below .blockItems here listed ?_
      rintro rest c₂ _ here ⟨inner, derives, rfl⟩
      have enough : 1 ≤ taken (steps ++ [Step.ran .blockItems]) := by
        simp [taken, Step.takes, Routine.takes]
      exact .done here enough ⟨first ++ inner, added rest inner derives, by simp⟩
    split
    · refine Walks.call below .declaration start (by decide) fun decl c₁ read here derives => ?_
      cases decl with
      | inl decl => exact finish (.func decl) here (by decide) fun _ _ others => .declItem derives others
      | inr decl => exact finish (.var decl) here (by decide) fun _ _ others => .declItem derives others
    · refine Walks.call_map below .statement start (by decide) ?_
      rintro stmt c₁ read here ⟨derives, -⟩
      exact finish (.stmt stmt) here (by decide) fun _ _ others => .stmtItem derives others

theorem walks_statement :
    Walks c 1 (Starves depth (.statement, c)) (statement (depth + 1)) c (Call.Wanted c .statement) := by
  have start : Reached depth c [] c := .nil ends
  refine Walks.current ?_
  split
  · rename_i found
    refine Walks.advance start found rfl fun c₁ here => ?_
    refine Walks.call below (.expression 0) here (by decide) ?_
    rintro value c₂ inner here ⟨derives, -⟩
    exact Walks.expect here rfl fun _ c₃ here => .done here (by decide) ⟨.ret derives, nofun⟩
  · rename_i found
    refine Walks.advance start found rfl fun c₁ here => ?_
    refine Walks.expect here rfl fun _ c₂ here => ?_
    refine Walks.call below (.expression 0) here (by decide) ?_
    rintro cond c₃ first here ⟨condition, -⟩
    refine Walks.expect here rfl fun _ c₄ here => ?_
    refine Walks.call below .statement here (by decide) ?_
    rintro yes c₅ second here ⟨inside, follow⟩
    refine Walks.accept here rfl (fun other => .done here (by decide) ⟨?_, fun _ => other⟩) fun isElse c₆ here => ?_
    · rw [List.append_nil]
      exact .ifThen condition inside
    · have closed : yes.isOpen = false := Bool.eq_false_iff.mpr fun isOpen => follow isOpen isElse
      refine Walks.call_map below .statement here (by decide) ?_
      rintro no c₇ third here ⟨other, later⟩
      refine .done here (by decide) ⟨?_, later⟩
      rw [List.append_nil]
      exact .ifElse closed condition inside other
  · rename_i found
    exact Walks.advance start found rfl fun c₁ here => .done here (by decide) ⟨.empty, nofun⟩
  · refine Walks.map (.last below .block start (by decide) (by decide) fun _ _ _ derives => ?_)
    exact ⟨.blockStmt derives, nofun⟩
  · rename_i found
    refine Walks.advance start found rfl fun c₁ here => ?_
    exact Walks.expect here rfl fun _ c₂ here => .done here (by decide) ⟨.breakLoop, nofun⟩
  · rename_i found
    refine Walks.advance start found rfl fun c₁ here => ?_
    exact Walks.expect here rfl fun _ c₂ here => .done here (by decide) ⟨.continueLoop, nofun⟩
  · rename_i found
    refine Walks.advance start found rfl fun c₁ here => ?_
    refine Walks.expect here rfl fun _ c₂ here => ?_
    refine Walks.call below (.expression 0) here (by decide) ?_
    rintro cond c₃ first here ⟨condition, -⟩
    refine Walks.expect here rfl fun _ c₄ here => ?_
    refine Walks.call below .statement here (by decide) ?_
    rintro body c₅ second here ⟨inside, follow⟩
    refine .done here (by decide) ⟨?_, follow⟩
    rw [List.append_nil]
    exact .whileLoop condition inside
  · rename_i found
    refine Walks.advance start found rfl fun c₁ here => ?_
    refine Walks.call below .statement here (by decide) ?_
    rintro body c₂ first here ⟨inside, -⟩
    refine Walks.expect here rfl fun _ c₃ here => ?_
    refine Walks.expect here rfl fun _ c₄ here => ?_
    refine Walks.call below (.expression 0) here (by decide) ?_
    rintro cond c₅ second here ⟨condition, -⟩
    refine Walks.expect here rfl fun _ c₆ here => ?_
    exact Walks.expect here rfl fun _ c₇ here => .done here (by decide) ⟨.doLoop inside condition, nofun⟩
  · rename_i found
    refine Walks.advance start found rfl fun c₁ here => ?_
    refine Walks.expect here rfl fun _ c₂ here => ?_
    refine Walks.call below .forInit here (by decide) fun init c₃ first here opening => ?_
    refine Walks.optional below here rfl (by decide) fun cond c₄ second here condition => ?_
    refine Walks.optional below here rfl (by decide) fun post c₅ third here step => ?_
    refine Walks.call below .statement here (by decide) ?_
    rintro body c₆ fourth here ⟨inside, follow⟩
    refine .done here (by decide) ⟨?_, follow⟩
    simpa using Derives.forLoop opening condition step inside
  · refine Walks.call below (.expression 0) start (by decide) ?_
    rintro value c₁ inner here ⟨derives, -⟩
    exact Walks.expect here rfl fun _ c₂ here => .done here (by decide) ⟨.exprStmt derives, nofun⟩

theorem walks_forInit :
    Walks c 1 (Starves depth (.forInit, c)) (forInit (depth + 1)) c (Call.Wanted c .forInit) := by
  have start : Reached depth c [] c := .nil ends
  refine Walks.current ?_
  split
  · refine Walks.call below .declaration start (by decide) fun decl c₁ read here derives => ?_
    cases decl with
    | inl decl => exact .fail rfl rfl
    | inr decl =>
      refine .done here (by decide) ?_
      rw [List.append_nil]
      exact .varForInit derives
  · refine Walks.optional below start rfl (by decide) fun value c₁ inner here derives => ?_
    cases value with
    | none =>
      cases derives
      exact .done here (by decide) .noForInit
    | some value =>
      cases derives with
      | present derives =>
        refine .done here (by decide) ?_
        rw [List.append_nil]
        exact .exprForInit derives

theorem walks_expression (least : Nat) :
    Walks c 1 (Starves depth (.expression least, c)) (expression (depth + 1) least) c
      (Call.Wanted c (.expression least)) := by
  have start : Reached depth c [] c := .nil ends
  have first : ([], .factor) ∈ Routine.calls .expression := by decide
  have later : ([] ++ [Step.ran .factor], .climb) ∈ Routine.calls .expression := by decide
  refine Walks.call below .factor start first fun left c₁ read here derives => ?_
  refine .last below (.climb least left) here later (Nat.le_refl 1) fun value more c₂ climbed => ?_
  exact climbed read (derives least) fun strength _ _ => derives _

theorem walks_climb (least : Nat) (left : Expr) :
    Walks c 0 (Starves depth (.climb least left, c)) (climb (depth + 1) least left) c
      (Call.Wanted c (.climb least left)) := by
  have start : Reached depth c [] c := .nil ends
  have right : ([] ++ [Step.operator], .expression) ∈ Routine.calls .climb := by decide
  have more : ([] ++ [Step.operator] ++ [Step.ran .expression], .climb) ∈ Routine.calls .climb := by decide
  have other : ([] ++ [Step.operator] ++ [Step.ran .expression] ++ [Step.read .colon], .expression) ∈
      Routine.calls .climb := by decide
  have last : ([] ++ [Step.operator] ++ [Step.ran .expression] ++ [Step.read .colon] ++ [Step.ran .expression], .climb) ∈
      Routine.calls .climb := by decide
  refine Walks.current ?_
  split
  · rename_i none
    refine .done start le_rfl fun before derives _ => ⟨by rwa [List.append_nil], fun strength known => ?_⟩
    rw [none] at known
    cases known
  · rename_i strength known
    split
    · rename_i weak
      refine .done start le_rfl fun before derives _ => ⟨by rwa [List.append_nil], fun strength same => ?_⟩
      rw [known] at same
      cases same
      exact weak
    · rename_i strong
      have enough := Nat.le_of_not_lt strong
      have mark := isMark_of_precedence? known
      refine Walks.token .operator start (TokenKind.ne_eof_of_isMark mark) ⟨by rw [known]; rfl, rfl⟩ rfl fun c₁ here => ?_
      rw [Token.terminal_mark rfl mark]
      -- What has been read so far is the left operand of the next operator.
      split
      · rename_i isAssign
        rw [isAssign] at known ⊢
        cases known
        refine Walks.call below (.expression 1) here right ?_
        rintro value c₂ read here ⟨derives, stops⟩
        refine .last below (.climb least _) here more (Nat.zero_le _) fun whole rest c₃ climbed before first fits => ?_
        have assigned : ∀ level ≤ 1, Derives (.expr level (.assign c.current.span left value))
            (before ++ .mark .assign :: read) := fun level weak => .assign weak (fits 1 (by rw [isAssign]; rfl) enough) derives
        simpa only [List.append_assoc, List.cons_append] using climbed _ (assigned least enough) fun strength next _ =>
          assigned _ (leftLevel_le (.inl (stops strength next)))
      · rename_i isQuestion
        rw [isQuestion] at known ⊢
        cases known
        refine Walks.call below (.expression 0) here right ?_
        rintro middle c₂ inner here ⟨yes, -⟩
        refine Walks.expect here rfl fun _ c₃ here => ?_
        refine Walks.call below (.expression 3) here other ?_
        rintro value c₄ read here ⟨no, stops⟩
        refine .last below (.climb least _) here last (Nat.zero_le _) fun whole rest c₅ climbed before first fits => ?_
        have chosen : ∀ level ≤ 3, Derives (.expr level (.conditional c.current.span left middle value))
            (before ++ .mark .question :: (inner ++ .mark .colon :: read)) :=
          fun level weak => .conditional weak (fits 3 (by rw [isQuestion]; rfl) enough) yes no
        simpa only [List.append_assoc, List.cons_append] using climbed _ (chosen least enough) fun strength next _ =>
          chosen _ (leftLevel_le (.inl (stops strength next)))
      · rename_i notAssign notQuestion
        have op := strength?_of_precedence? known notAssign notQuestion
        have five := (TokenKind.strength?_bounds op).1
        refine Walks.call below (.expression (strength + 1)) here right ?_
        rintro value c₂ read here ⟨derives, stops⟩
        refine .last below (.climb least _) here more (Nat.zero_le _) fun whole rest c₃ climbed before first fits => ?_
        have operand := fits strength known enough
        rw [leftLevel, if_neg (by omega)] at operand
        have joined : ∀ level ≤ strength, Derives (.expr level (.binary c.current.span c.current.kind left value))
            (before ++ .mark c.current.kind :: read) := fun level weak => .binary op weak operand derives
        simpa only [List.append_assoc, List.cons_append] using climbed _ (joined least enough) fun next found _ =>
          joined _ (leftLevel_le (.inr ⟨Nat.le_of_lt_succ (stops next found), five⟩))

theorem walks_factor : Walks c 1 (Starves depth (.factor, c)) (factor (depth + 1)) c (Call.Wanted c .factor) := by
  have start : Reached depth c [] c := .nil ends
  have unary {kind : TokenKind} (found : c.current.kind = kind) (known : kind.isUnary = true) :
      Walks c 1 (Starves depth (.factor, c))
        (do advance; return Expr.unary c.current.span c.current.kind (← factor depth)) c (Call.Wanted c .factor) := by
    have mark := TokenKind.isMark_of_isUnary known
    refine Walks.token .sign start (found ▸ TokenKind.ne_eof_of_isMark mark) ⟨found ▸ known, rfl⟩ rfl fun c₁ here => ?_
    refine Walks.call below .factor here (by decide) fun operand c₂ inner here derives => ?_
    refine .done here (by decide) fun least => ?_
    rw [List.append_nil, found, Token.terminal_mark found mark]
    exact .unary known (derives 51)
  refine Walks.current ?_
  split
  · rename_i found
    have complains (fault : ConstantFault) (read : readConstant c.current.value = .error fault) :
        Complains c.tokens ⟨fault.cause c.current.value, c.current.span⟩ := by
      refine ⟨by cases fault <;> rfl, fun other text same => ?_⟩
      refine ⟨c.current, List.mem_cons_self, found, ?_⟩
      cases fault <;> cases other <;> cases same <;> exact ⟨rfl, rfl, read⟩
    refine Walks.token (.read .number) start (found ▸ by decide) ⟨by decide, found, rfl⟩ rfl fun c₁ here => ?_
    unfold constant
    split
    · rename_i value read
      have bounds := readConstant_bounds read
      have terminal : c.current.terminal = .constant (.ok value) := by
        simp only [Token.terminal, found, read]
      rw [terminal]
      exact .done here (by decide) fun least => .number bounds.1 bounds.2
    · exact .inl (complains .tooLarge ‹_›)
    · exact .inl (complains .malformed ‹_›)
  · rename_i found
    refine Walks.token (.read .ident) start (found ▸ by decide) ⟨by decide, found, rfl⟩ rfl fun c₁ here => ?_
    rw [Token.terminal_name found]
    refine Walks.accept here rfl (fun _ => .done here (by decide) fun least => .ident) fun _ c₂ here => ?_
    refine Walks.current ?_
    split
    · exact Walks.expect here rfl fun _ c₃ here => .done here (by decide) fun least => .call .noArgs
    · refine Walks.call below .arguments here (by decide) ?_
      rintro args c₃ inner here ⟨-, derives⟩
      exact Walks.expect here rfl fun _ c₄ here => .done here (by decide) fun least => .call derives
  · exact unary ‹_› rfl
  · exact unary ‹_› rfl
  · exact unary ‹_› rfl
  · rename_i found
    refine Walks.advance start found rfl fun c₁ here => ?_
    refine Walks.call below (.expression 0) here (by decide) ?_
    rintro value c₂ inner here ⟨derives, -⟩
    exact Walks.expect here rfl fun _ c₃ here => .done here (by decide) fun least => .paren derives
  · exact .fail rfl rfl

theorem walks_arguments :
    Walks c 1 (Starves depth (.arguments, c)) (arguments (depth + 1)) c (Call.Wanted c .arguments) := by
  have start : Reached depth c [] c := .nil ends
  refine Walks.call below (.expression 0) start (by decide) ?_
  rintro first c₁ read here ⟨derives, -⟩
  refine Walks.accept here rfl (fun _ => .done here (by decide) ⟨List.cons_ne_nil _ _, ?_⟩) fun _ c₂ here => ?_
  · rw [List.append_nil]
    exact .lastArg derives
  · refine Walks.call below .arguments here (by decide) ?_
    rintro (_ | ⟨next, rest⟩) c₃ others here ⟨some, following⟩
    · exact absurd rfl some
    · refine .done here (by decide) ⟨List.cons_ne_nil _ _, ?_⟩
      rw [List.append_nil]
      exact .moreArgs derives following

/-- What one more step of the bound is good for: a call comes back, or the source is to blame, or else another call
within it reaches the bound. -/
theorem walks_run (call : Call) :
    Walks c call.routine.takes (Starves depth (call, c)) (call.run (depth + 1)) c (call.Wanted c) := by
  cases call with
  | declarations => exact walks_declarations below ends
  | declaration => exact walks_declaration below ends
  | specifiers known => exact walks_specifierLoop below ends known
  | parameters => exact walks_parameters below ends
  | block => exact walks_block below ends
  | blockItems => exact walks_blockItems below ends
  | statement => exact walks_statement below ends
  | forInit => exact walks_forInit below ends
  | expression least => exact walks_expression below ends least
  | climb least left => exact walks_climb below ends least left
  | factor => exact walks_factor below ends
  | arguments => exact walks_arguments below ends

end Steps

theorem walked (depth : Nat) : Walked depth := by
  induction depth with
  | zero =>
    intro call cursor ends
    cases call <;> exact .inr ⟨rfl, trivial⟩
  | succ depth below =>
    intro call cursor ends
    refine IntC.Meets.imp (walks_run below ends call) (fun _ passed => passed) fun error failed => ?_
    exact failed.imp_right fun reached => ⟨reached.1, trivial⟩

theorem Step.Leads.passed {step : Step} {after : Cursor} (leads : step.Leads depth cursor after) (ends : cursor.Ends) :
    Passed step.takes cursor after := by
  have token (inside : cursor.current.kind ≠ .eof) (same : cursor.advance = after) : Passed 1 cursor after :=
    same ▸ (Passed.refl ends).advance inside
  cases step with
  | read kind => exact token (leads.2.1 ▸ leads.1) leads.2.2
  | specifier => exact token (TokenKind.ne_eof_of_isMark (TokenKind.isMark_of_isSpecifier leads.1)) leads.2
  | operator =>
    obtain ⟨strength, known⟩ := Option.isSome_iff_exists.mp leads.1
    exact token (TokenKind.ne_eof_of_isMark (isMark_of_precedence? known)) leads.2
  | sign => exact token (TokenKind.ne_eof_of_isMark (TokenKind.isMark_of_isUnary leads.1)) leads.2
  | specifiers =>
    obtain ⟨storage, came⟩ := leads
    exact (walks_specifiers ends True).passed came
  | parameterList =>
    obtain ⟨params, came⟩ := leads
    exact (walks_parameterList ends (walked depth)).passed came
  | optional delimiter =>
    obtain ⟨mark, value, came⟩ := leads
    exact (walks_optionalExpression ends (walked depth) mark).passed came
  | ran routine =>
    obtain ⟨call, value, rfl, came⟩ := leads
    exact (walked depth call cursor ends).passed came

theorem Path.reached {start : Cursor} {steps : List Step} (path : Path depth start steps cursor) (ends : start.Ends) :
    Reached depth start steps cursor := by
  induction path with
  | nil => exact .nil ends
  | snoc _ leads ih => exact ih.snoc (leads.passed ih.ends) leads

/-- A call is lower than its caller: there are fewer tokens left, or as many and the routine is of a lower level. -/
def height (site : Site) : Nat := 4 * site.2.left + site.1.routine.level

/-- Before a call something has been read, or the call goes down a level. -/
theorem CallsAt.lower {next : Site} (calls : CallsAt depth site next) (ends : site.2.Ends) :
    Passed 0 site.2 next.2 ∧ height next < height site := by
  obtain ⟨steps, listed, path⟩ := calls
  have here := path.reached ends
  refine ⟨here.mono (Nat.zero_le _), ?_⟩
  have level := Routine.level_lt listed
  have far := here.far
  unfold height
  omega

theorem starves_of_runsOut (ends : site.2.Ends) (out : RunsOut (depth + 1) site) : Starves depth site := by
  have walks := walks_run (walked depth) ends site.1
  unfold Walks Meets at walks
  rw [RunsOut] at out
  rw [out] at walks
  rcases walks with complains | ⟨-, starves⟩
  · cases complains.grammar
  · exact starves

theorem not_runsOut (ends : site.2.Ends) (deep : height site < depth) : ¬RunsOut depth site := by
  intro out
  induction depth generalizing site with
  | zero => exact absurd deep (Nat.not_lt_zero _)
  | succ depth ih =>
    obtain ⟨next, calls, outToo⟩ := starves_of_runsOut ends out
    obtain ⟨passed, lower⟩ := calls.lower ends
    exact ih passed.ends (by omega) outToo

end Parse

/-- The cursor starts at the first token, and behind the tokens there is at most one end token more. -/
theorem Cursor.ofTokens_eq (tokens : List Token) : ∃ tail, (tail = [] ∨ tail = [Token.mk .eof "" {}]) ∧
    (Cursor.ofTokens tokens).current :: (Cursor.ofTokens tokens).rest = tokens ++ tail ∧
    ∃ last, (tokens ++ tail).getLast? = some last ∧ last.kind = .eof := by
  unfold Cursor.ofTokens
  cases found : tokens.getLast? with
  | none =>
    cases List.getLast?_eq_none_iff.mp found
    exact ⟨_, .inr rfl, rfl, _, rfl, rfl⟩
  | some last =>
    cases tokens with
    | nil => cases found
    | cons first rest =>
      by_cases eof : last.kind = .eof
      · simp only [if_pos eof]
        exact ⟨[], .inl rfl, (List.append_nil _).symm, last, by rwa [List.append_nil], eof⟩
      · simp only [if_neg eof]
        exact ⟨_, .inr rfl, rfl, _, List.getLast?_concat, rfl⟩

theorem Cursor.ends_ofTokens (tokens : List Token) : (Cursor.ofTokens tokens).Ends := by
  obtain ⟨tail, -, same, last, found, eof⟩ := Cursor.ofTokens_eq tokens
  unfold Cursor.Ends Cursor.terminals
  rw [same, List.getLast?_map, found]
  exact congrArg some (Token.terminal_eq_eof.mpr eof)

theorem Cursor.mem_of_ofTokens {token : Token} (member : token ∈ (Cursor.ofTokens tokens).tokens)
    (inside : token.kind ≠ .eof) : token ∈ tokens := by
  obtain ⟨tail, closed, same, -⟩ := Cursor.ofTokens_eq tokens
  rw [Cursor.tokens, same] at member
  rcases List.mem_append.mp member with found | other
  · exact found
  · rcases closed with rfl | rfl
    · cases other
    · exact absurd (List.mem_singleton.mp other ▸ rfl) inside

theorem Cursor.left_ofTokens (tokens : List Token) : (Cursor.ofTokens tokens).left ≤ tokens.length := by
  obtain ⟨tail, closed, same, -⟩ := Cursor.ofTokens_eq tokens
  have lengths := congrArg List.length same
  rw [List.length_cons, List.length_append] at lengths
  unfold Cursor.left
  rcases closed with rfl | rfl <;> simp only [List.length_nil, List.length_singleton] at lengths <;> omega

namespace Parse

/-- Where the parser starts. -/
def entry (tokens : List Token) : Site := (.declarations, .ofTokens tokens)

theorem ends_entry (tokens : List Token) : (entry tokens).2.Ends := Cursor.ends_ofTokens tokens

theorem height_entry (tokens : List Token) : height (entry tokens) ≤ 4 * tokens.length + 2 := by
  have left := Cursor.left_ofTokens tokens
  change 4 * (Cursor.ofTokens tokens).left + 2 ≤ _
  omega

theorem lt_parseDepth (count : Nat) : 4 * count + 2 < parseDepth count := by
  unfold parseDepth
  omega

end Parse

/-- What stands before the first end token does not depend on what is behind it. -/
theorem takeWhile_terminal {read rest : List Terminal} (same : tokens.map Token.terminal = read ++ .mark .eof :: rest)
    (inside : .mark .eof ∉ read) : (tokens.takeWhile fun token => token.kind ≠ .eof).map Token.terminal = read := by
  induction tokens generalizing read with
  | nil => simp at same
  | cons token tokens ih =>
    cases read with
    | nil =>
      have eof := Token.terminal_eq_eof.mp (List.cons.inj same).1
      simp [eof]
    | cons first others =>
      obtain ⟨rfl, following⟩ := List.cons.inj same
      have more : token.kind ≠ .eof := fun eof => inside (by simp [Token.terminal_eq_eof.mpr eof])
      have later := ih following fun member => inside (List.mem_cons_of_mem _ member)
      simpa [more] using later

theorem takeWhile_concat_eof (tokens : List Token) {last : Token} (eof : last.kind = .eof) :
    ((tokens ++ [last]).takeWhile fun token => token.kind ≠ .eof) =
      tokens.takeWhile fun token => token.kind ≠ .eof := by
  induction tokens with
  | nil => simp [eof]
  | cons token rest ih => rw [List.cons_append, List.takeWhile_cons, List.takeWhile_cons, ih]

/-- The tokens before the first end token are a way to write down the tree that is read from them. If there is
none, the source is to blame. -/
theorem parse_walks (tokens : List Token) :
    Meets (parse tokens) (fun program => Derives (.unit program.items)
      ((tokens.takeWhile fun token => token.kind ≠ .eof).map Token.terminal))
      (Complains (Cursor.ofTokens tokens).tokens) := by
  have ends := Parse.ends_entry tokens
  have walks := (Parse.walked (parseDepth tokens.length)).walks .declarations ends
  have free := Parse.not_runsOut ends
    (Nat.lt_of_le_of_lt (Parse.height_entry tokens) (Parse.lt_parseDepth tokens.length))
  unfold Parse.Walks Parse.Meets at walks
  unfold parse
  simp only
  cases outcome : Parse.declarations (parseDepth tokens.length) (Cursor.ofTokens tokens) with
  | error error =>
    change IntC.Meets (Parse.declarations _ (Cursor.ofTokens tokens)) _ _ at walks
    rw [outcome] at walks
    rcases walks with complains | ⟨rfl, -⟩
    · exact complains
    · exact absurd outcome free
  | ok result =>
    change IntC.Meets (Parse.declarations _ (Cursor.ofTokens tokens)) _ _ at walks
    rw [outcome] at walks
    obtain ⟨-, read, same, derives, eof⟩ := walks
    obtain ⟨tail, closed, whole, -⟩ := Cursor.ofTokens_eq tokens
    have terminals : (tokens ++ tail).map Token.terminal =
        read ++ .mark .eof :: result.2.rest.map Token.terminal := by
      rw [← whole]
      refine same.trans ?_
      rw [Cursor.terminals, List.map_cons, Token.terminal_eq_eof.mpr eof]
    have before := takeWhile_terminal terminals derives.eof_notMem
    have short : ((tokens ++ tail).takeWhile fun token => token.kind ≠ .eof) =
        tokens.takeWhile fun token => token.kind ≠ .eof := by
      rcases closed with rfl | rfl
      · rw [List.append_nil]
      · exact takeWhile_concat_eof tokens rfl
    rw [short] at before
    change Derives (.unit result.1) _
    rwa [before]

theorem parse_takes (tokens : List Token) :
    Meets (parse tokens) (fun program => Derives (.unit program.items)
      ((tokens.takeWhile fun token => token.kind ≠ .eof).map Token.terminal)) Error.IsUser := by
  refine (parse_walks tokens).imp (fun _ derives => derives) fun error complains => Error.isUser_iff.mpr ⟨?_, ?_⟩
  · rw [complains.grammar]
    decide
  · intro shown same
    have grammar := complains.grammar
    rw [same] at grammar
    cases grammar

/-- The parser accepts nothing but the language, and it reads over all tokens before the first end token once. -/
theorem parse_derives {tokens : List Token} {program : Program} (parsed : parse tokens = .ok program) :
    program.Shaped (-2147483648) ∧ Derives (.unit program.items)
      ((tokens.takeWhile fun token => token.kind ≠ .eof).map Token.terminal) := by
  have derives := parse_takes tokens
  rw [parsed] at derives
  exact ⟨derives.shaped, derives⟩

/-- The specifiers of a variable in the rarer order, parentheses that could be left out, an `else` behind two
`if`, and tokens behind the end token. -/
def looseTokens : List Token := [
  ⟨.kwInt, "", {}⟩, ⟨.kwStatic, "", {}⟩, ⟨.ident, "n", {}⟩, ⟨.semi, "", {}⟩,
  ⟨.kwInt, "", {}⟩, ⟨.ident, "f", {}⟩, ⟨.lparen, "", {}⟩, ⟨.kwVoid, "", {}⟩, ⟨.rparen, "", {}⟩, ⟨.lbrace, "", {}⟩,
  ⟨.kwIf, "", {}⟩, ⟨.lparen, "", {}⟩, ⟨.ident, "n", {}⟩, ⟨.rparen, "", {}⟩,
  ⟨.kwIf, "", {}⟩, ⟨.lparen, "", {}⟩, ⟨.number, "007", {}⟩, ⟨.rparen, "", {}⟩, ⟨.semi, "", {}⟩,
  ⟨.kwElse, "", {}⟩, ⟨.kwReturn, "", {}⟩, ⟨.lparen, "", {}⟩, ⟨.ident, "n", {}⟩, ⟨.rparen, "", {}⟩, ⟨.plus, "", {}⟩,
  ⟨.minus, "", {}⟩, ⟨.number, "1", {}⟩, ⟨.star, "", {}⟩, ⟨.ident, "n", {}⟩, ⟨.semi, "", {}⟩,
  ⟨.rbrace, "", {}⟩, ⟨.eof, "", {}⟩, ⟨.comma, "", {}⟩]

def looseProgram : Program where
  items := [
    .var ⟨{}, "n", none, .static⟩,
    .func ⟨{}, "f", [], some ⟨{}, [.stmt (.branch {} (.ident {} "n")
      (.branch {} (.number {} 7) (.empty {}) (some (.ret {} (.binary {} .plus (.ident {} "n")
        (.binary {} .star (.unary {} .minus (.number {} 1)) (.ident {} "n")))))) none)]⟩, .automatic⟩]

theorem parse_derives_loose : parse looseTokens = .ok looseProgram ∧ looseProgram.Shaped (-2147483648) ∧
    Derives (.unit looseProgram.items)
      ((looseTokens.takeWhile fun token => token.kind ≠ .eof).map Token.terminal) := by
  have parsed : parse looseTokens = .ok looseProgram := by rfl
  exact ⟨parsed, parse_derives parsed⟩

theorem Token.plain_terminal {token : Token} (plain : token.Plain) : token.terminal.Plain := by
  unfold Token.terminal
  split
  · rename_i ident
    exact plain ident
  · trivial
  · trivial

theorem parse_meets (plain : ∀ token ∈ tokens, token.Plain) :
    Meets (parse tokens) (fun program => unitWritten program.items) Error.IsUser := by
  refine (parse_takes tokens).mono fun program derives => derives.written fun terminal member => ?_
  obtain ⟨token, inside, rfl⟩ := List.mem_map.mp member
  exact Token.plain_terminal (plain token (List.takeWhile_subset _ inside))

theorem written_of_parse {source : String} {file : Int} {tree : Program} (lexed : tokenize source file = .ok tokens)
    (parsed : parse tokens = .ok tree) : unitWritten tree.items := by
  have plain := tokenize_meets source file
  rw [lexed] at plain
  have written := parse_meets plain
  rwa [parsed] at written

end IntC
