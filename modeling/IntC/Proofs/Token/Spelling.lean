import IntC.Proofs.Token.Lexer

namespace IntC

variable {body behind : List Char} {c : Char} {kind : TokenKind} {scanner : Scanner}

theorem Position.passing_append (place : Position) (first second : List Char) :
    place.passing (first ++ second) = (place.passing first).passing second := List.foldl_append

theorem skipGap_line (inside : '\n' ∉ body) (place : Position) (rest : List Char) :
    skipGap .lineComment place (body ++ '\n' :: rest) = skipGap .space (place.passing (body ++ ['\n'])) rest := by
  induction body generalizing place with
  | nil => rfl
  | cons c body ih =>
    rw [List.mem_cons, not_or] at inside
    rw [List.cons_append, skipGap, if_neg (Ne.symm inside.1)]
    exact ih inside.2 (place.after c)

/-- A part of what stands between two lexemes: white space or a whole comment. -/
inductive GapPart where
  | space (c : Char) (white : isSpace c = true)
  | block (body : List Char) (inside : ¬['*', '/'] <:+: body)
  | line (body : List Char) (inside : '\n' ∉ body)

def GapPart.text : GapPart → List Char
  | .space c _ => [c]
  | .block body _ => '/' :: '*' :: (body ++ ['*', '/'])
  | .line body _ => '/' :: '/' :: (body ++ ['\n'])

def gapText (gap : List GapPart) : List Char := gap.flatMap GapPart.text

/-- A gap that starts with white space, so that no lexeme before it goes on into it. -/
structure Separator where
  first : Char
  white : isSpace first = true
  more : List GapPart

def Separator.text (separator : Separator) : List Char := separator.first :: gapText separator.more

/-- How a token is written down. -/
inductive Spelling where
  /-- A keyword or a punctuator. -/
  | fixed (kind : TokenKind) (text : String) (spelled : kind.spelling? = some text)
  | word (name : String) (word : IsWord name) (free : keyword? name = none)
  | constant (first : Char) (others : List Char) (decimal : ∀ c ∈ first :: others, isDigit c = true)

/-- What a token is, apart from where it stands. -/
def Token.content (token : Token) : TokenKind × String := (token.kind, token.value)

namespace Spelling

def text : Spelling → List Char
  | .fixed _ text _ => text.toList
  | .word name _ _ => name.toList
  | .constant first others _ => first :: others

def content : Spelling → TokenKind × String
  | .fixed kind _ _ => (kind, "")
  | .word name _ _ => (.ident, name)
  | .constant first others _ => (.number, String.ofList (first :: others))

end Spelling

section Gaps

theorem skipGap_block (inside : ¬['*', '/'] <:+: body) (start place : Position) (rest : List Char) :
    skipGap (.blockComment start) place (body ++ '*' :: '/' :: rest) =
      skipGap .space (place.passing (body ++ ['*', '/'])) rest := by
  induction body generalizing place with
  | nil => rfl
  | cons c body ih =>
    -- The comment could end here only if its body went on with a slash.
    have open' : ∀ tail, c = '*' → body ++ '*' :: '/' :: rest = '/' :: tail → False := by
      rintro tail rfl same
      cases body with
      | nil => cases same
      | cons d body =>
        cases same
        exact inside ⟨[], body, rfl⟩
    have later : ¬['*', '/'] <:+: body := fun found => inside (List.infix_cons found)
    rw [List.cons_append, skipGap]
    · exact ih later (place.after c)
    · exact open'

theorem skipGap_part (part : GapPart) (place : Position) (rest : List Char) :
    skipGap .space place (part.text ++ rest) = skipGap .space (place.passing part.text) rest := by
  cases part with
  | space c white =>
    have other : c ≠ '/' := by
      rintro rfl
      cases white
    rw [GapPart.text, List.singleton_append, skipGap.eq_3, if_pos white]
    · rfl
    · exact fun _ same => absurd same other
    · exact fun _ same => absurd same other
  | block body inside =>
    simp only [GapPart.text, List.cons_append, List.append_assoc, List.nil_append]
    rw [skipGap, skipGap_block inside]
    rfl
  | line body inside =>
    simp only [GapPart.text, List.cons_append, List.append_assoc, List.nil_append]
    rw [skipGap, skipGap_line inside]
    rfl

theorem skipGap_gap (gap : List GapPart) (place : Position) (rest : List Char) :
    skipGap .space place (gapText gap ++ rest) = skipGap .space (place.passing (gapText gap)) rest := by
  induction gap generalizing place with
  | nil => rfl
  | cons part gap ih =>
    rw [gapText, List.flatMap_cons, List.append_assoc, skipGap_part, Position.passing_append]
    exact ih _

/-- A character that is no white space ends a gap, unless it is a slash that opens a comment. -/
theorem skipGap_stop {rest : List Char} (place : Position) (solid : isSpace c = false)
    (closed : c = '/' → ∀ d ∈ rest.head?, d ≠ '/' ∧ d ≠ '*') :
    skipGap .space place (c :: rest) = .lexeme place (c :: rest) := by
  rw [skipGap.eq_3, if_neg (by simp [solid])]
  · rintro tail rfl rfl
    exact (closed rfl '/' rfl).1 rfl
  · rintro tail rfl rfl
    exact (closed rfl '*' rfl).2 rfl

end Gaps

/-- The text is over, or it goes on with white space. -/
def Detached (behind : List Char) : Prop := ∀ c ∈ behind.head?, isSpace c = true

theorem isSpace_iff : isSpace c = true ↔
    c = ' ' ∨ c = '\t' ∨ c = '\n' ∨ c = '\r' ∨ c = '\x0b' ∨ c = '\x0c' := by
  simp [isSpace, or_assoc]

theorem isWordChar_of_isSpace (white : isSpace c = true) : isWordChar c = false := by
  rcases isSpace_iff.mp white with rfl | rfl | rfl | rfl | rfl | rfl <;> decide

theorem isDigit_of_not_isWordChar (other : isWordChar c = false) : isDigit c = false :=
  (Bool.or_eq_false_iff.mp other).2

theorem isWordStart_of_not_isWordChar (other : isWordChar c = false) : isWordStart c = false :=
  (Bool.or_eq_false_iff.mp other).1

theorem isDigit_iff : isDigit c = true ↔ 48 ≤ c.toNat ∧ c.toNat ≤ 57 := by
  simp only [isDigit, Bool.and_eq_true, decide_eq_true_eq, Char.le_def, UInt32.le_iff_toNat_le]
  rfl

theorem isWordStart_of_isDigit (digit : isDigit c = true) : isWordStart c = false := by
  obtain ⟨-, high⟩ := isDigit_iff.mp digit
  have ascii : c.toNat < 0x80 := Nat.lt_of_le_of_lt high (by decide)
  have other : c ≠ '_' := by
    rintro rfl
    cases digit
  have small : c.val.toNat ≤ 57 := high
  have upper : c.isUpper = false := by
    refine decide_eq_false fun range => ?_
    have low : 65 ≤ c.val.toNat := UInt32.le_iff_toNat_le.mp range.1
    omega
  have lower : c.isLower = false := by
    change (decide (c.val ≥ 'a'.val) && _) = false
    rw [decide_eq_false, Bool.false_and]
    intro above
    have low : 97 ≤ c.val.toNat := UInt32.le_iff_toNat_le.mp above
    omega
  have letter : c.isAlpha = false := by
    change (c.isUpper || c.isLower) = false
    rw [upper, lower]
    rfl
  simp [isWordStart, isLetter, ascii, letter, other]

/-- A lexeme takes all of its characters and stops before the first other one. -/
theorem takeWhile_append_stop {p : Char → Bool} (inside : ∀ c ∈ body, p c = true)
    (stops : ∀ c ∈ behind.head?, p c = false) : (body ++ behind).takeWhile p = body := by
  rw [List.takeWhile_append_of_pos inside]
  cases behind with
  | nil => rw [List.takeWhile_nil, List.append_nil]
  | cons c rest => rw [List.takeWhile_cons_of_neg (by simp [stops c rfl]), List.append_nil]

theorem dropWhile_append_stop {p : Char → Bool} (inside : ∀ c ∈ body, p c = true)
    (stops : ∀ c ∈ behind.head?, p c = false) : (body ++ behind).dropWhile p = behind := by
  rw [List.dropWhile_append_of_pos inside]
  cases behind with
  | nil => rfl
  | cons c rest => rw [List.dropWhile_cons_of_neg (by simp [stops c rfl])]

theorem first_of_spelling? (spelled : kind.spelling? = some (String.ofList (c :: body))) :
    isSpace c = false ∧ isDigit c = false ∧ (c = '/' → body = []) ∧
      (isWordStart c = true → keyword? (String.ofList (c :: body)) = some kind ∧ body.all isWordChar = true) := by
  have same := congrArg (Option.map String.toList) spelled
  rw [Option.map_some, String.toList_ofList] at same
  cases kind <;> simp [TokenKind.spelling?] at same <;> obtain ⟨rfl, rfl⟩ := same <;> decide

theorem last_of_spelling? {kind : TokenKind} {c d : Char} {body : List Char}
    (spelled : kind.spelling? = some (String.ofList (c :: (body ++ [d])))) (other : isWordStart c = false) :
    body = [] ∧ (d = '=' ∧ (c = '!' ∨ c = '=' ∨ c = '<' ∨ c = '>') ∨ c = '&' ∧ d = '&' ∨ c = '|' ∧ d = '|') := by
  have same := congrArg (Option.map String.toList) spelled
  rw [Option.map_some, String.toList_ofList] at same
  have first : ∀ e : Char, isWordStart e = true → c ≠ e := by
    rintro e start rfl
    rw [start] at other
    cases other
  cases kind <;> simp [TokenKind.spelling?, List.cons_eq_append_iff] at same <;> obtain ⟨rfl, same⟩ := same <;>
    simp_all <;> exact absurd rfl (first _ (by decide))

theorem solid_of_spelling? {text : String} (spelled : kind.spelling? = some text) :
    ∀ c ∈ text.toList, isSpace c = false := by
  have all : text.toList.all (fun c => !isSpace c) = true := by
    cases kind <;> cases spelled <;> decide
  exact fun c member => Bool.not_eq_true' _ |>.mp (List.all_eq_true.mp all c member)

/-- Identifiers, keywords and constants; what else is written is a punctuator. -/
def Spelling.isWord : Spelling → Bool
  | .fixed _ text _ => (keyword? text).isSome
  | .word .. | .constant .. => true

/-- A lexeme is over where the rest of the text begins. A word or a constant would go on with a letter, an underscore
or a digit, and a punctuator with whatever makes another one of it; two minus signs and the start of a comment are not
cut in the middle either. -/
structure Spelling.Ends (spelling : Spelling) (behind : List Char) : Prop where
  word : spelling.isWord = true → ∀ c ∈ behind.head?, isWordChar c = false
  fixed : ∀ c ∈ behind.head?, ∀ kind : TokenKind, kind.spelling? ≠ some (String.ofList (spelling.text ++ [c]))
  minus : spelling.text = ['-'] → behind.head? ≠ some '-'
  slash : spelling.text = ['/'] → behind.head? ≠ some '/' ∧ behind.head? ≠ some '*'

/-- White space and the end of the text end whatever is written before them. -/
theorem Spelling.ends_of_detached (spelling : Spelling) (apart : Detached behind) : spelling.Ends behind := by
  have other : ∀ c, isSpace c = false → behind.head? ≠ some c := by
    intro c solid found
    rw [apart c found] at solid
    cases solid
  refine ⟨fun _ c found => isWordChar_of_isSpace (apart c found), fun c found kind spelled => ?_,
    fun _ => other '-' (by decide), fun _ => ⟨other '/' (by decide), other '*' (by decide)⟩⟩
  have solid := solid_of_spelling? spelled c (by simp)
  exact other c solid found

section Lexemes
variable {body behind : List Char}

theorem Lexeme.word_of_keyword (inside : ∀ d ∈ body, isWordChar d = true)
    (stops : ∀ d ∈ behind.head?, isWordChar d = false) (known : keyword? (String.ofList (c :: body)) = some kind) :
    Lexeme.word c (body ++ behind) = ⟨body.length, .ok (kind, "")⟩ := by
  unfold Lexeme.word
  simp only [takeWhile_append_stop inside stops, known]

theorem Lexeme.word_of_free (inside : ∀ d ∈ body, isWordChar d = true)
    (stops : ∀ d ∈ behind.head?, isWordChar d = false) (free : keyword? (String.ofList (c :: body)) = none) :
    Lexeme.word c (body ++ behind) = ⟨body.length, .ok (.ident, String.ofList (c :: body))⟩ := by
  unfold Lexeme.word
  simp only [takeWhile_append_stop inside stops, free]

theorem Lexeme.constant_eq (inside : ∀ d ∈ body, isDigit d = true) (stops : ∀ d ∈ behind.head?, isWordChar d = false) :
    Lexeme.constant c (body ++ behind) = ⟨body.length, .ok (.number, String.ofList (c :: body))⟩ := by
  have ends : ∀ d ∈ behind.head?, isDigit d = false := fun d found => isDigit_of_not_isWordChar (stops d found)
  unfold Lexeme.constant
  rw [takeWhile_append_stop inside ends, dropWhile_append_stop inside ends]
  cases behind with
  | nil => rfl
  | cons d rest =>
    have other := isWordStart_of_not_isWordChar (stops d rfl)
    simp only [other, Bool.false_eq_true, if_false]

/-- A punctuator is read where nothing makes a longer one of it. -/
theorem Lexeme.punctuator_eq (spelled : kind.spelling? = some (String.ofList (c :: body)))
    (other : isWordStart c = false)
    (fixed : ∀ d ∈ behind.head?, ∀ kind : TokenKind, kind.spelling? ≠ some (String.ofList (c :: body ++ [d])))
    (minus : c :: body = ['-'] → behind.head? ≠ some '-') :
    Lexeme.punctuator c (body ++ behind) = ⟨body.length, .ok (kind, "")⟩ := by
  have longer : ∀ d tail kind, behind = d :: tail → TokenKind.spelling? kind = some (String.ofList (c :: body ++ [d])) →
      False := by
    rintro d tail kind rfl spelled
    exact fixed d rfl kind spelled
  have same := congrArg (Option.map String.toList) spelled
  rw [Option.map_some, String.toList_ofList] at same
  cases kind <;> simp [TokenKind.spelling?] at same <;> obtain ⟨rfl, rfl⟩ := same <;> first
    | exact absurd other (by decide)
    | rfl
    | rw [List.nil_append, Lexeme.punctuator, Lexeme.short, List.length_nil]
  case bang => exact fun tail equals => longer '=' tail .notEq equals rfl
  case assign => exact fun tail equals => longer '=' tail .eqEq equals rfl
  case less => exact fun tail equals => longer '=' tail .lessEq equals rfl
  case greater => exact fun tail equals => longer '=' tail .greaterEq equals rfl
  case minus =>
    rintro tail rfl
    exact minus rfl rfl

theorem Lexeme.read_fixed {text : String} (spelled : kind.spelling? = some text) (written : text.toList = c :: body)
    (ends : (Spelling.fixed kind text spelled).Ends behind) :
    Lexeme.read c (body ++ behind) = ⟨body.length, .ok (kind, "")⟩ := by
  have whole : String.ofList (c :: body) = text := by rw [← written, String.ofList_toList]
  have starts : kind.spelling? = some (String.ofList (c :: body)) := by rw [whole, spelled]
  obtain ⟨-, other, -, word⟩ := first_of_spelling? starts
  unfold Lexeme.read
  by_cases start : isWordStart c = true
  · obtain ⟨known, inside⟩ := word start
    have stops := ends.word (by rw [Spelling.isWord, ← whole, known]; rfl)
    rw [if_pos start, word_of_keyword (List.all_eq_true.mp inside) stops known]
  · have fixed := ends.fixed
    have minus := ends.minus
    rw [Spelling.text, written] at fixed minus
    have plain : isWordStart c = false := by simpa using start
    rw [if_neg start, if_neg (by simp [other]), punctuator_eq starts plain fixed minus]

theorem Lexeme.read_word {name : String} (word : IsWord name) (free : keyword? name = none)
    (written : name.toList = c :: body) (ends : (Spelling.word name word free).Ends behind) :
    Lexeme.read c (body ++ behind) = ⟨body.length, .ok (.ident, name)⟩ := by
  obtain ⟨first, rest, same, start, inside⟩ := word
  cases written.symm.trans same
  have whole : String.ofList (c :: body) = name := by rw [← written, String.ofList_toList]
  rw [Lexeme.read, if_pos start, word_of_free inside (ends.word rfl) (by rw [whole, free]), whole]

theorem Lexeme.read_constant (decimal : ∀ d ∈ c :: body, isDigit d = true)
    (ends : (Spelling.constant c body decimal).Ends behind) :
    Lexeme.read c (body ++ behind) = ⟨body.length, .ok (.number, String.ofList (c :: body))⟩ := by
  obtain ⟨first, inside⟩ := List.forall_mem_cons.mp decimal
  rw [Lexeme.read, if_neg (by simp [isWordStart_of_isDigit first]), if_pos first, constant_eq inside (ends.word rfl)]

end Lexemes

theorem solid_of_isWordChar (char : isWordChar c = true) : isSpace c = false ∧ c ≠ '/' := by
  constructor
  · cases white : isSpace c with
    | false => rfl
    | true =>
      rw [isWordChar_of_isSpace white] at char
      cases char
  · rintro rfl
    exact absurd char (by decide)

/-- A written token starts a lexeme, and the lexeme that is read there is this token, if it ends where the rest of the
text begins. -/
theorem Spelling.read (spelling : Spelling) : ∃ c body, spelling.text = c :: body ∧ isSpace c = false ∧
    (c = '/' → body = []) ∧ ∀ behind, spelling.Ends behind →
      Lexeme.read c (body ++ behind) = ⟨body.length, .ok spelling.content⟩ := by
  cases spelling with
  | fixed kind text spelled =>
    cases same : text.toList with
    | nil =>
      rw [String.toList_eq_nil_iff.mp same] at spelled
      cases kind <;> simp [TokenKind.spelling?] at spelled
    | cons c body =>
      have written : kind.spelling? = some (String.ofList (c :: body)) := by rw [spelled, ← same, String.ofList_toList]
      obtain ⟨notSpace, -, slash, -⟩ := first_of_spelling? written
      exact ⟨c, body, same, notSpace, slash, fun behind => Lexeme.read_fixed spelled same⟩
  | word name fine free =>
    have parts := fine
    obtain ⟨c, body, same, start, -⟩ := parts
    obtain ⟨notSpace, slash⟩ := solid_of_isWordChar (isWordChar_of_isWordStart start)
    exact ⟨c, body, same, notSpace, fun equal => absurd equal slash, fun behind => Lexeme.read_word fine free same⟩
  | constant c body decimal =>
    have first := decimal c List.mem_cons_self
    obtain ⟨notSpace, slash⟩ := solid_of_isWordChar (by rw [isWordChar, first, Bool.or_true])
    exact ⟨c, body, rfl, notSpace, fun equal => absurd equal slash, fun behind => Lexeme.read_constant decimal⟩

/-- Behind a gap the scanner reads the token that is written there, and stops right behind it. -/
theorem Scanner.next_spelling (gap : List GapPart) {spelling : Spelling} (ends : spelling.Ends behind)
    (text : scanner.rest = gapText gap ++ (spelling.text ++ behind)) :
    scanner.next = (.ok ⟨spelling.content.1, spelling.content.2, (scanner.place.passing (gapText gap)).spanTo
        (scanner.place.passing (gapText gap ++ spelling.text)) scanner.file⟩,
      ⟨scanner.file, scanner.place.passing (gapText gap ++ spelling.text), behind⟩) := by
  obtain ⟨c, body, written, solid, slash, reads⟩ := spelling.read
  have skipped : skipGap .space scanner.place scanner.rest =
      .lexeme (scanner.place.passing (gapText gap)) (c :: (body ++ behind)) := by
    rw [text, skipGap_gap, written, List.cons_append]
    refine skipGap_stop _ solid fun equal d found => ?_
    have alone := slash equal
    rw [alone, List.nil_append] at found
    obtain ⟨notSlash, notStar⟩ := ends.slash (by rw [written, equal, alone])
    constructor
    · rintro rfl
      exact notSlash found
    · rintro rfl
      exact notStar found
  have stop : ((scanner.place.passing (gapText gap)).after c).passing body =
      scanner.place.passing (gapText gap ++ spelling.text) := by
    rw [Position.passing_append, written]
    rfl
  unfold Scanner.next
  rw [skipped]
  simp only [reads behind ends, List.take_left, List.drop_left, stop]

/-- What stands behind the last lexeme: a gap, and perhaps a line comment that ends with the text. -/
structure Trail where
  gap : List GapPart
  comment : Option (List Char)
  inside : ∀ body ∈ comment, '\n' ∉ body

def Trail.text (trail : Trail) : List Char := gapText trail.gap ++ (trail.comment.map ('/' :: '/' :: ·)).getD []

theorem skipGap_openLine (inside : '\n' ∉ body) (place : Position) :
    skipGap .lineComment place body = .lexeme (place.passing body) [] := by
  induction body generalizing place with
  | nil => rfl
  | cons c body ih =>
    rw [List.mem_cons, not_or] at inside
    rw [skipGap, if_neg (Ne.symm inside.1)]
    exact ih inside.2 (place.after c)

theorem skipGap_trail (trail : Trail) (place : Position) :
    skipGap .space place trail.text = .lexeme (place.passing trail.text) [] := by
  obtain ⟨gap, comment, inside⟩ := trail
  simp only [Trail.text]
  rw [skipGap_gap, Position.passing_append]
  cases comment with
  | none => rfl
  | some body =>
    rw [Option.map_some, Option.getD_some, skipGap, skipGap_openLine (inside body rfl)]
    rfl

theorem Scanner.next_trail (trail : Trail) (text : scanner.rest = trail.text) :
    scanner.next = (.ok ⟨.eof, "", (scanner.place.passing trail.text).spanTo (scanner.place.passing trail.text)
        scanner.file⟩, ⟨scanner.file, scanner.place.passing trail.text, []⟩) := by
  unfold Scanner.next
  rw [text, skipGap_trail]

/-- The text of tokens, each with what separates it from the next one. The last token may end the text. -/
def layout (written : List (Spelling × Separator)) (last : Option Spelling) : List Char :=
  (written.flatMap fun entry => entry.1.text ++ entry.2.text) ++ (last.map Spelling.text).getD []

theorem Spelling.content_ne_eof (spelling : Spelling) : spelling.content.1 ≠ .eof := by
  cases spelling with
  | fixed kind text spelled =>
    rintro rfl
    cases spelled
  | word | constant => nofun

theorem Scanner.tokens_cons {after : Scanner} {token : Token} {tokens : List Token}
    (read : scanner.next = (.ok token, after)) (more : token.kind ≠ .eof) (rest : after.tokens = .ok tokens) :
    scanner.tokens = .ok (token :: tokens) := by
  rw [Scanner.tokens]
  split
  · rename_i error _ failed
    cases failed.symm.trans read
  · rename_i found behind again
    cases again.symm.trans read
    rw [dif_neg more, rest]
    rfl

theorem Scanner.tokens_end {after : Scanner} {token : Token} (read : scanner.next = (.ok token, after))
    (last : token.kind = .eof) : scanner.tokens = .ok [token] := by
  rw [Scanner.tokens]
  split
  · rename_i error _ failed
    cases failed.symm.trans read
  · rename_i found behind again
    cases again.symm.trans read
    rw [dif_pos last]

theorem Separator.detached (separator : Separator) (rest : List Char) : Detached (separator.text ++ rest) := by
  rintro _ ⟨⟩
  exact separator.white

theorem Scanner.tokens_spelling (gap : List GapPart) {spelling : Spelling} {others : List (TokenKind × String)}
    (apart : Detached behind) (text : scanner.rest = gapText gap ++ (spelling.text ++ behind))
    (later : ∀ after : Scanner, after.rest = behind →
      ∃ tokens, after.tokens = .ok tokens ∧ tokens.map Token.content = others) :
    ∃ tokens, scanner.tokens = .ok tokens ∧ tokens.map Token.content = spelling.content :: others := by
  have read := Scanner.next_spelling gap (spelling.ends_of_detached apart) text
  obtain ⟨tokens, rest, contents⟩ := later ⟨scanner.file, _, behind⟩ rfl
  refine ⟨_ :: tokens, Scanner.tokens_cons read spelling.content_ne_eof rest, ?_⟩
  rw [List.map_cons, contents]
  rfl

theorem Scanner.tokens_gap (gap : List GapPart) (text : scanner.rest = gapText gap) :
    ∃ tokens, scanner.tokens = .ok tokens ∧ tokens.map Token.content = [(.eof, "")] := by
  have whole : scanner.rest = (⟨gap, none, by simp⟩ : Trail).text := by rw [text, Trail.text]; simp
  exact ⟨_, Scanner.tokens_end (Scanner.next_trail _ whole) rfl, rfl⟩

/-- The gap before a token is what the separator behind the token before it has been. -/
theorem Scanner.tokens_layout (lead : List GapPart) (written : List (Spelling × Separator)) (last : Option Spelling)
    (text : scanner.rest = gapText lead ++ layout written last) :
    ∃ tokens, scanner.tokens = .ok tokens ∧ tokens.map Token.content =
      (written.map Prod.fst ++ last.toList).map Spelling.content ++ [(.eof, "")] := by
  induction written generalizing lead scanner with
  | nil =>
    cases last with
    | none => exact Scanner.tokens_gap lead (by rw [text, layout]; exact List.append_nil _)
    | some spelling =>
      have apart : Detached [] := nofun
      refine Scanner.tokens_spelling lead apart ?_ fun after left => ?_
      · rw [text, List.append_nil]
        rfl
      · exact Scanner.tokens_gap [] left
  | cons entry written ih =>
    obtain ⟨spelling, separator⟩ := entry
    refine Scanner.tokens_spelling lead (separator.detached (layout written last)) (text.trans ?_) fun after left => ?_
    · simp only [layout, List.flatMap_cons, List.append_assoc]
    · exact ih (.space separator.first separator.white :: separator.more) left

/-- Reading a text undoes writing it, whatever its layout: a gap, then tokens with separators behind them, then one
more token perhaps. -/
theorem tokenize_undoes_layout (lead : List GapPart) (written : List (Spelling × Separator)) (last : Option Spelling)
    (file : Int) :
    ∃ tokens, tokenize (String.ofList (gapText lead ++ layout written last)) file = .ok tokens ∧
      tokens.map Token.content = (written.map Prod.fst ++ last.toList).map Spelling.content ++ [(.eof, "")] := by
  refine Scanner.tokens_layout lead written last ?_
  rw [Scanner.start, String.toList_ofList]

end IntC
