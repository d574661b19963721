import IntC.Proofs.Token.Spelling
import Mathlib.Data.List.DropRight

namespace IntC

/-- The place behind a text: one line for each newline in it, and one column for each character behind the last of
them. -/
theorem Position.start_passing (before : List Char) : ({} : Position).passing before =
    ⟨before.length, 1 + before.count '\n', 1 + (before.rtakeWhile (· ≠ '\n')).length⟩ := by
  induction before using List.reverseRecOn with
  | nil => rfl
  | append_singleton before c ih =>
    rw [Position.passing_append, ih]
    by_cases newline : c = '\n'
    · simp [Position.passing, Position.after, newline]
      omega
    · simp [Position.passing, Position.after, newline]
      omega

/-- The span of so many characters that stand behind a text. -/
def spanBehind (file : Int) (before : List Char) (length : Nat) : Span where
  file := file
  line := 1 + before.count '\n'
  column := 1 + (before.rtakeWhile (· ≠ '\n')).length
  length := length

theorem spanTo_passing (file : Int) (before lexeme : List Char) :
    (({} : Position).passing before).spanTo (({} : Position).passing (before ++ lexeme)) file =
      spanBehind file before lexeme.length := by
  rw [Position.start_passing, Position.start_passing]
  have length := @List.length_append _ before lexeme
  simp only [Position.spanTo, spanBehind]
  rw [Span.mk.injEq]
  omega

/-- The tokens cover the text that stands behind another one: gaps and lexemes take turns, every lexeme spells its
token and ends where no longer one could, and every token tells where its lexeme stands. The end token is empty and
stands behind the last gap. -/
inductive Tiled (file : Int) : List Char → List Char → List Token → Prop
  | last {before : List Char} (trail : Trail) :
      Tiled file before trail.text [⟨.eof, "", spanBehind file (before ++ trail.text) 0⟩]
  | next {before behind : List Char} {tokens : List Token} (gap : List GapPart) (spelling : Spelling) :
      spelling.Ends behind → Tiled file (before ++ gapText gap ++ spelling.text) behind tokens →
      Tiled file before (gapText gap ++ (spelling.text ++ behind))
        (⟨spelling.content.1, spelling.content.2, spanBehind file (before ++ gapText gap) spelling.text.length⟩ :: tokens)

section Gaps

def Trail.cons (part : GapPart) (trail : Trail) : Trail := ⟨part :: trail.gap, trail.comment, trail.inside⟩

theorem Trail.text_cons (part : GapPart) (trail : Trail) : (trail.cons part).text = part.text ++ trail.text := by
  simp [Trail.cons, Trail.text, gapText]

/-- What is skipped from within a state of the gap on, if the given text is left: the rest of the comment, and then
parts. Only the end of the text leaves a line comment open. -/
def GapState.Passes (rest : List Char) : GapState → List Char → Prop
  | .space, passed => ∃ trail : Trail, passed = trail.text ∧ (rest ≠ [] → trail.comment = none)
  | .lineComment, passed => ('\n' ∉ passed ∧ rest = []) ∨ ∃ body, ∃ trail : Trail, '\n' ∉ body ∧
      passed = body ++ '\n' :: trail.text ∧ (rest ≠ [] → trail.comment = none)
  | .blockComment _, passed => ∃ body, ∃ trail : Trail, ¬['*', '/'] <:+: body ∧
      passed = body ++ '*' :: '/' :: trail.text ∧ (rest ≠ [] → trail.comment = none)

/-- The text does not go on with a gap. -/
def StartsLexeme (text : List Char) : Prop :=
  ∀ c tail, text = c :: tail → isSpace c = false ∧ (c = '/' → tail.head? ≠ some '/' ∧ tail.head? ≠ some '*')

theorem skipGap_passes {state : GapState} {start place : Position} {text rest : List Char}
    (skipped : skipGap state start text = .lexeme place rest) :
    ∃ passed, text = passed ++ rest ∧ place = start.passing passed ∧ state.Passes rest passed ∧ StartsLexeme rest := by
  fun_induction skipGap state start text with
  | case1 start text ih =>
    obtain ⟨passed, rfl, rfl, ⟨inside, rfl⟩ | ⟨body, trail, inside, rfl, closed⟩, starts⟩ := ih skipped
    · refine ⟨'/' :: '/' :: passed, rfl, rfl, ⟨⟨[], some passed, by simpa using inside⟩, rfl, by simp⟩, starts⟩
    · refine ⟨_, ?_, ?_, ⟨trail.cons (.line body inside), rfl, closed⟩, starts⟩
      · simp [Trail.text_cons, GapPart.text]
      · simp [Trail.text_cons, GapPart.text, Position.passing]
  | case2 start text ih =>
    obtain ⟨passed, rfl, rfl, ⟨body, trail, inside, rfl, closed⟩, starts⟩ := ih skipped
    refine ⟨_, ?_, ?_, ⟨trail.cons (.block body inside), rfl, closed⟩, starts⟩
    · simp [Trail.text_cons, GapPart.text]
    · simp [Trail.text_cons, GapPart.text, Position.passing]
  | case3 start c text notLine notBlock white ih =>
    obtain ⟨passed, rfl, rfl, ⟨trail, rfl, closed⟩, starts⟩ := ih skipped
    exact ⟨_, rfl, rfl, ⟨trail.cons (.space c white), (trail.text_cons _).symm, closed⟩, starts⟩
  | case4 start c text notLine notBlock solid =>
    cases skipped
    refine ⟨[], rfl, rfl, ⟨⟨[], none, by simp⟩, rfl, fun _ => rfl⟩, ?_⟩
    rintro _ _ ⟨⟩
    refine ⟨by simpa using solid, ?_⟩
    rintro rfl
    constructor
    · intro found
      obtain ⟨tail, rfl⟩ := List.head?_eq_some_iff.mp found
      exact notLine tail rfl rfl
    · intro found
      obtain ⟨tail, rfl⟩ := List.head?_eq_some_iff.mp found
      exact notBlock tail rfl rfl
  | case5 start text ih =>
    obtain ⟨passed, rfl, rfl, ⟨trail, rfl, closed⟩, starts⟩ := ih skipped
    exact ⟨'\n' :: trail.text, rfl, rfl, .inr ⟨[], trail, by simp, rfl, closed⟩, starts⟩
  | case6 start c text other ih =>
    obtain ⟨passed, rfl, rfl, passes, starts⟩ := ih skipped
    refine ⟨c :: passed, rfl, rfl, ?_, starts⟩
    rcases passes with ⟨inside, rfl⟩ | ⟨body, trail, inside, rfl, closed⟩
    · exact .inl ⟨by simp [Ne.symm other, inside], rfl⟩
    · exact .inr ⟨c :: body, trail, by simp [Ne.symm other, inside], rfl, closed⟩
  | case7 start from' text ih =>
    obtain ⟨passed, rfl, rfl, ⟨trail, rfl, closed⟩, starts⟩ := ih skipped
    exact ⟨'*' :: '/' :: trail.text, rfl, rfl, ⟨[], trail, by simp, rfl, closed⟩, starts⟩
  | case8 start from' c text opened ih =>
    obtain ⟨passed, rfl, rfl, ⟨body, trail, inside, rfl, closed⟩, starts⟩ := ih skipped
    refine ⟨c :: (body ++ '*' :: '/' :: trail.text), rfl, rfl, ⟨c :: body, trail, ?_, rfl, closed⟩, starts⟩
    rw [List.infix_cons_iff]
    rintro (⟨rest, same⟩ | later)
    · cases same
      exact opened _ rfl rfl
    · exact inside later
  | case9 => cases skipped
  | case10 start =>
    cases skipped
    exact ⟨[], rfl, rfl, ⟨⟨[], none, by simp⟩, rfl, fun _ => rfl⟩, by rintro _ _ ⟨⟩⟩
  | case11 start =>
    cases skipped
    exact ⟨[], rfl, rfl, .inl ⟨by simp, rfl⟩, by rintro _ _ ⟨⟩⟩

end Gaps

theorem spelling?_of_keyword? {word : String} {kind : TokenKind} (known : keyword? word = some kind) :
    kind.spelling? = some word := by
  have same := List.find?_some known
  simpa using same

theorem isWordStart_of_keyword? {c : Char} {body : List Char} {kind : TokenKind}
    (known : keyword? (String.ofList (c :: body)) = some kind) : isWordStart c = true := by
  have listed := List.mem_of_find?_eq_some known
  have same := congrArg (Option.map String.toList) (spelling?_of_keyword? known)
  rw [Option.map_some, String.toList_ofList] at same
  cases kind <;> simp at listed <;> cases same <;> decide

theorem head?_dropWhile_stops (p : Char → Bool) (text : List Char) : ∀ c ∈ (text.dropWhile p).head?, p c = false := by
  intro c found
  have stops := List.head?_dropWhile_not p text
  rw [Option.mem_def] at found
  rw [found] at stops
  exact stops

section Lexemes
variable {c : Char} {body rest behind : List Char}

/-- A lexeme, if it is a token, spells it with its first character and those that it takes behind it, and ends there. -/
def Lexeme.Spells (lexeme : Lexeme) (c : Char) (rest : List Char) : Prop :=
  ∀ content, lexeme.reading = .ok content → ∃ (spelling : Spelling) (body behind : List Char),
    rest = body ++ behind ∧ lexeme.extra = body.length ∧ spelling.text = c :: body ∧ spelling.content = content ∧
      spelling.Ends behind

theorem Spelling.ends_of_word {spelling : Spelling} (written : spelling.text = c :: body) (char : isWordChar c = true)
    (stops : ∀ d ∈ behind.head?, isWordChar d = false) : spelling.Ends behind := by
  have first : ∀ e, isWordChar e = false → spelling.text ≠ [e] := by
    rintro e other same
    cases written.symm.trans same
    rw [char] at other
    cases other
  refine ⟨fun _ => stops, fun d found kind spelled => ?_, fun same => absurd same (first '-' (by decide)),
    fun same => absurd same (first '/' (by decide))⟩
  rw [written] at spelled
  obtain ⟨-, notDigit, -, word⟩ := first_of_spelling? spelled
  have start : isWordStart c = true := by
    rw [isWordChar, notDigit, Bool.or_false] at char
    exact char
  have inside := List.all_eq_true.mp (word start).2 d (by simp)
  rw [stops d found] at inside
  cases inside

theorem Lexeme.word_spells (start : isWordStart c = true) : (Lexeme.word c rest).Spells c rest := by
  intro content read
  have whole : rest = rest.takeWhile isWordChar ++ rest.dropWhile isWordChar := List.takeWhile_append_dropWhile.symm
  have inside : ∀ d ∈ rest.takeWhile isWordChar, isWordChar d = true := fun d => List.mem_takeWhile_imp
  have ends : ∀ spelling : Spelling, spelling.text = c :: rest.takeWhile isWordChar →
      spelling.Ends (rest.dropWhile isWordChar) := fun spelling written =>
    Spelling.ends_of_word written (isWordChar_of_isWordStart start) (head?_dropWhile_stops isWordChar rest)
  unfold Lexeme.word at read
  cases known : keyword? (String.ofList (c :: rest.takeWhile isWordChar)) with
  | some kind =>
    simp only [known] at read
    cases read
    have text : (Spelling.fixed kind _ (spelling?_of_keyword? known)).text = _ := String.toList_ofList
    exact ⟨_, _, _, whole, rfl, text, rfl, ends _ text⟩
  | none =>
    simp only [known] at read
    cases read
    have text : (Spelling.word _ ⟨c, _, String.toList_ofList, start, inside⟩ known).text = _ := String.toList_ofList
    exact ⟨_, _, _, whole, rfl, text, rfl, ends _ text⟩

theorem Lexeme.constant_spells (digit : isDigit c = true) : (Lexeme.constant c rest).Spells c rest := by
  intro content read
  have whole : rest = rest.takeWhile isDigit ++ rest.dropWhile isDigit := List.takeWhile_append_dropWhile.symm
  have decimal : ∀ d ∈ c :: rest.takeWhile isDigit, isDigit d = true :=
    List.forall_mem_cons.mpr ⟨digit, fun d => List.mem_takeWhile_imp⟩
  have char : isWordChar c = true := by rw [isWordChar, digit, Bool.or_true]
  have stops := head?_dropWhile_stops isDigit rest
  have ends : (∀ d ∈ (rest.dropWhile isDigit).head?, isWordStart d = false) →
      (Spelling.constant c _ decimal).Ends (rest.dropWhile isDigit) := by
    intro other
    refine Spelling.ends_of_word rfl char fun d found => ?_
    rw [isWordChar, other d found, stops d found, Bool.or_false]
  unfold Lexeme.constant at read ⊢
  cases behind : rest.dropWhile isDigit with
  | nil =>
    rw [behind] at read ends whole
    cases read
    exact ⟨_, _, _, whole, rfl, rfl, rfl, ends (by rintro _ ⟨⟩)⟩
  | cons next tail =>
    rw [behind] at read ends whole
    by_cases start : isWordStart next = true
    · simp only [start, if_true] at read
      cases read
    · simp only [start] at read ⊢
      cases read
      exact ⟨_, _, _, whole, rfl, rfl, rfl, ends (by simpa using start)⟩

theorem Spelling.ends_of_punctuator {kind : TokenKind} (spelled : kind.spelling? = some (String.ofList (c :: body)))
    (other : isWordStart c = false)
    (fixed : ∀ d ∈ behind.head?, ∀ kind : TokenKind, kind.spelling? ≠ some (String.ofList (c :: body ++ [d])))
    (minus : c :: body = ['-'] → behind.head? ≠ some '-')
    (slash : c :: body = ['/'] → behind.head? ≠ some '/' ∧ behind.head? ≠ some '*') :
    (Spelling.fixed kind _ spelled).Ends behind := by
  have text : (Spelling.fixed kind _ spelled).text = c :: body := String.toList_ofList
  refine ⟨fun word => ?_, ?_, ?_, ?_⟩
  · obtain ⟨found, known⟩ := Option.isSome_iff_exists.mp word
    rw [isWordStart_of_keyword? known] at other
    cases other
  all_goals
    rw [text]
    assumption

/-- A punctuator of one character stands where nothing makes it one of two. -/
theorem Lexeme.short_spells {kind : TokenKind} (spelled : kind.spelling? = some (String.ofList [c]))
    (other : isWordStart c = false) (starts : StartsLexeme (c :: rest)) (single : c ≠ '&' ∧ c ≠ '|')
    (equals : c = '!' ∨ c = '=' ∨ c = '<' ∨ c = '>' → rest.head? ≠ some '=') (minus : c = '-' → rest.head? ≠ some '-') :
    (Lexeme.short kind).Spells c rest := by
  rintro _ ⟨⟩
  have ends : (Spelling.fixed kind _ spelled).Ends rest := by
    refine Spelling.ends_of_punctuator spelled other (fun d found kind longer => ?_) ?_ ?_
    · obtain ⟨-, ⟨rfl, same⟩ | ⟨same, -⟩ | ⟨same, -⟩⟩ := @last_of_spelling? _ _ _ [] longer other
      · exact equals same found
      · exact single.1 same
      · exact single.2 same
    · rintro ⟨⟩
      exact minus rfl
    · rintro ⟨⟩
      exact (starts _ _ rfl).2 rfl
  exact ⟨.fixed kind _ spelled, [], rest, rfl, rfl, String.toList_ofList, rfl, ends⟩

theorem Lexeme.long_spells {kind : TokenKind} {d : Char} (spelled : kind.spelling? = some (String.ofList [c, d]))
    (other : isWordStart c = false) : (Lexeme.long kind).Spells c (d :: rest) := by
  rintro _ ⟨⟩
  have ends : (Spelling.fixed kind _ spelled).Ends rest := by
    refine Spelling.ends_of_punctuator spelled other (fun e found kind longer => ?_) nofun nofun
    cases (@last_of_spelling? _ _ _ [d] longer other).1
  exact ⟨.fixed kind _ spelled, [d], rest, rfl, rfl, String.toList_ofList, rfl, ends⟩

theorem Lexeme.error_spells {extra : Nat} {cause : Cause} : Lexeme.Spells ⟨extra, .error cause⟩ c rest := by
  rintro content ⟨⟩

theorem Lexeme.punctuator_spells (starts : StartsLexeme (c :: rest)) : (Lexeme.punctuator c rest).Spells c rest := by
  have headed : ∀ d : Char, (∀ tail, rest = d :: tail → False) → rest.head? ≠ some d := by
    intro d other found
    obtain ⟨tail, same⟩ := List.head?_eq_some_iff.mp found
    exact other tail same
  unfold Lexeme.punctuator
  split <;> first
    | exact long_spells rfl (by decide)
    | exact error_spells
    | refine short_spells rfl (by decide) starts (by decide) ?_ ?_ <;> simp
  -- What is left are the punctuators that others go on from.
  all_goals exact headed _ (by assumption)

/-- Where a lexeme starts, it spells the token that is read, and no longer one could be read. -/
theorem Lexeme.read_spells (starts : StartsLexeme (c :: rest)) : (Lexeme.read c rest).Spells c rest := by
  unfold Lexeme.read
  by_cases start : isWordStart c = true
  · rw [if_pos start]
    exact word_spells start
  · rw [if_neg start]
    by_cases digit : isDigit c = true
    · rw [if_pos digit]
      exact constant_spells digit
    · rw [if_neg digit]
      exact punctuator_spells starts

end Lexemes

/-- What is read in one step is the last gap and the end token, or a gap and a lexeme that ends where the rest begins. -/
theorem Scanner.next_cases {scanner after : Scanner} {token : Token} (read : scanner.next = (.ok token, after)) :
    (token.kind = .eof ∧ ∃ trail : Trail, scanner.rest = trail.text) ∨
      ∃ gap spelling, scanner.rest = gapText gap ++ (Spelling.text spelling ++ after.rest) ∧ spelling.Ends after.rest := by
  unfold Scanner.next at read
  split at read
  · cases read
  · rename_i place skipped
    obtain ⟨passed, whole, -, ⟨trail, rfl, -⟩, -⟩ := skipGap_passes skipped
    cases read
    exact .inl ⟨rfl, trail, by rw [whole, List.append_nil]⟩
  · rename_i place c rest skipped
    obtain ⟨passed, whole, -, ⟨trail, rfl, closed⟩, starts⟩ := skipGap_passes skipped
    have spells := Lexeme.read_spells starts
    cases reading : (Lexeme.read c rest).reading with
    | error cause =>
      simp only [reading] at read
      cases read
    | ok content =>
      obtain ⟨spelling, body, behind, rfl, extra, text, -, ends⟩ := spells content reading
      simp only [reading, extra, List.drop_left] at read
      cases read
      have gap : trail.text = gapText trail.gap := by rw [Trail.text, closed (List.cons_ne_nil _ _)]; exact List.append_nil _
      exact .inr ⟨trail.gap, spelling, by rw [whole, gap, text, List.cons_append], ends⟩

section Tiles
variable {scanner : Scanner} {before : List Char}

theorem Scanner.next_last (place : scanner.place = ({} : Position).passing before) {trail : Trail}
    (text : scanner.rest = trail.text) : ∃ after,
      scanner.next = (.ok ⟨.eof, "", spanBehind scanner.file (before ++ trail.text) 0⟩, after) := by
  have stop : scanner.place.passing trail.text = ({} : Position).passing (before ++ trail.text) := by
    rw [place, Position.passing_append]
  have span := spanTo_passing scanner.file (before ++ trail.text) []
  rw [List.append_nil] at span
  have read := Scanner.next_trail trail text
  rw [stop, span] at read
  exact ⟨_, read⟩

/-- A token stands behind the gap before it, and the scanner goes on behind its lexeme. -/
theorem Scanner.next_tile (place : scanner.place = ({} : Position).passing before) {gap : List GapPart} {spelling : Spelling}
    {behind : List Char} (ends : spelling.Ends behind) (text : scanner.rest = gapText gap ++ (spelling.text ++ behind)) :
    scanner.next = (.ok ⟨spelling.content.1, spelling.content.2,
        spanBehind scanner.file (before ++ gapText gap) spelling.text.length⟩,
      ⟨scanner.file, ({} : Position).passing (before ++ gapText gap ++ spelling.text), behind⟩) := by
  have start : scanner.place.passing (gapText gap) = ({} : Position).passing (before ++ gapText gap) := by
    rw [place, Position.passing_append]
  have stop : scanner.place.passing (gapText gap ++ spelling.text) =
      ({} : Position).passing (before ++ gapText gap ++ spelling.text) := by
    rw [Position.passing_append, start, ← Position.passing_append]
  rw [Scanner.next_spelling gap ends text, start, stop, spanTo_passing]

theorem Scanner.tiled_of_tokens (place : scanner.place = ({} : Position).passing before) {tokens : List Token}
    (done : scanner.tokens = .ok tokens) : Tiled scanner.file before scanner.rest tokens := by
  fun_induction Scanner.tokens scanner generalizing before tokens with
  | case1 => cases done
  | case2 scanner token after read last =>
    cases done
    rcases Scanner.next_cases read with ⟨-, trail, text⟩ | ⟨gap, spelling, text, ends⟩
    · obtain ⟨_, again⟩ := Scanner.next_last place text
      cases read.symm.trans again
      rw [text]
      exact .last trail
    · have same := congrArg Prod.fst (read.symm.trans (Scanner.next_tile place ends text))
      cases Except.ok.inj same
      exact absurd last spelling.content_ne_eof
  | case3 scanner token after read more ih =>
    rcases Scanner.next_cases read with ⟨eof, -⟩ | ⟨gap, spelling, text, ends⟩
    · exact absurd eof more
    · cases others : after.tokens with
      | error error =>
        rw [others] at done
        cases done
      | ok rest =>
        rw [others] at done
        cases done
        have again := read.symm.trans (Scanner.next_tile place ends text)
        obtain ⟨file, stop, behind⟩ := after
        cases again
        rw [text]
        exact .next gap spelling ends (ih rfl others)

theorem Tiled.tokens {file : Int} {text : List Char} {tokens : List Token} (tiled : Tiled file before text tokens) :
    Scanner.tokens ⟨file, ({} : Position).passing before, text⟩ = .ok tokens := by
  induction tiled with
  | @last before trail =>
    obtain ⟨after, read⟩ := @Scanner.next_last ⟨file, ({} : Position).passing before, trail.text⟩ before rfl trail rfl
    exact Scanner.tokens_end read rfl
  | @next before behind tokens gap spelling ends _ ih =>
    have read := @Scanner.next_tile ⟨file, ({} : Position).passing before, gapText gap ++ (spelling.text ++ behind)⟩
      before rfl gap spelling behind ends rfl
    exact Scanner.tokens_cons read spelling.content_ne_eof ih

end Tiles

/-- A text is read as the tokens that cover it, and only as these: gaps of white space and comments, and between them
lexemes, each as long as it can be, with a token for each of them that tells its spelling, its place and its length. -/
theorem tokenize_iff_tiled (text : String) (file : Int) (tokens : List Token) :
    tokenize text file = .ok tokens ↔ Tiled file [] text.toList tokens := by
  constructor
  · intro done
    exact Scanner.tiled_of_tokens rfl done
  · intro tiled
    exact tiled.tokens

end IntC
