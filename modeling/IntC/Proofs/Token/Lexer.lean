import IntC.Proofs.Name
import IntC.Proofs.Pass
import IntC.Token.Lexer
import Mathlib.Data.List.TakeWhile

namespace IntC

theorem isWordChar_dot : isWordChar '.' = false := by decide

/-- An identifier has a name that can be spelled. -/
def Token.Plain (token : Token) : Prop := token.kind = .ident → Spelled token.value

/-- A letter or an underscore, and behind it more of them and digits. -/
def IsWord (name : String) : Prop :=
  ∃ c rest, name.toList = c :: rest ∧ isWordStart c = true ∧ ∀ d ∈ rest, isWordChar d = true

theorem isWordChar_of_isWordStart {c : Char} (start : isWordStart c = true) : isWordChar c = true := by
  rw [isWordChar, start, Bool.true_or]

theorem IsWord.isWordChar {name : String} (word : IsWord name) {c : Char} (member : c ∈ name.toList) :
    isWordChar c = true := by
  obtain ⟨first, rest, same, start, others⟩ := word
  rw [same] at member
  rcases List.mem_cons.mp member with rfl | inside
  · exact isWordChar_of_isWordStart start
  · exact others c inside

theorem IsWord.spelled {name : String} (word : IsWord name) : Spelled name := by
  intro member
  have char := word.isWordChar member
  rw [isWordChar_dot] at char
  cases char

/-- What a lexeme may turn out to be: an identifier that is a word, a token of another kind, or an error of
the source. -/
def Lexeme.Fine (lexeme : Lexeme) : Prop :=
  match lexeme.reading with
  | .ok (kind, value) => kind = .ident → IsWord value
  | .error cause => ∀ span, Error.IsUser ⟨cause, span⟩

theorem Lexeme.word_fine {c : Char} (rest : List Char) (start : isWordStart c = true) : (Lexeme.word c rest).Fine := by
  have word : IsWord (String.ofList (c :: rest.takeWhile isWordChar)) :=
    ⟨c, _, String.toList_ofList, start, fun _ inside => List.mem_takeWhile_imp inside⟩
  unfold Lexeme.Fine Lexeme.word
  simp only
  cases found : keyword? (String.ofList (c :: rest.takeWhile isWordChar)) with
  | none => exact fun _ => word
  | some kind =>
    rintro rfl
    have listed := List.mem_of_find?_eq_some found
    simp at listed

theorem Lexeme.constant_fine (c : Char) (rest : List Char) : (Lexeme.constant c rest).Fine := by
  unfold Lexeme.constant
  simp only
  split
  · split
    · exact fun _ => rfl
    · exact fun ident => nomatch ident
  · exact fun ident => nomatch ident

theorem Lexeme.punctuator_fine (c : Char) (rest : List Char) : (Lexeme.punctuator c rest).Fine := by
  unfold Lexeme.punctuator
  split <;> first
    | exact fun _ => rfl
    | exact fun ident => nomatch ident

theorem Lexeme.read_fine (c : Char) (rest : List Char) : (Lexeme.read c rest).Fine := by
  unfold Lexeme.read
  split
  · rename_i start
    exact word_fine rest start
  · split
    · exact constant_fine c rest
    · exact punctuator_fine c rest

theorem Scanner.next_fine (scanner : Scanner) :
    Meets scanner.next.1 (fun token => token.kind = .ident → IsWord token.value) Error.IsUser := by
  unfold Scanner.next
  split
  · exact rfl
  · exact fun ident => nomatch ident
  · rename_i c rest _
    have fine := Lexeme.read_fine c rest
    unfold Lexeme.Fine at fine
    simp only
    cases reading : (Lexeme.read c rest).reading with
    | ok result =>
      rw [reading] at fine
      exact fine
    | error cause =>
      rw [reading] at fine
      exact fine _

/-- What becomes of a text: its identifiers are words, the end token is the last one, and every other token
takes a character at least. -/
structure Lexed (text : List Char) (tokens : List Token) : Prop where
  words : ∀ token ∈ tokens, token.kind = .ident → IsWord token.value
  ends : ∃ last, tokens.getLast? = some last ∧ last.kind = .eof
  short : tokens.length ≤ text.length + 1

theorem Lexed.cons {text rest : List Char} {token : Token} {tokens : List Token} (lexed : Lexed rest tokens)
    (word : token.kind = .ident → IsWord token.value) (shorter : rest.length < text.length) :
    Lexed text (token :: tokens) := by
  obtain ⟨last, found, eof⟩ := lexed.ends
  have short := lexed.short
  refine ⟨List.forall_mem_cons.mpr ⟨word, lexed.words⟩, ⟨last, ?_, eof⟩, ?_⟩
  · rw [List.getLast?_cons, found]
    rfl
  · rw [List.length_cons]
    omega

theorem Scanner.tokens_meets (scanner : Scanner) : Meets scanner.tokens (Lexed scanner.rest) Error.IsUser := by
  fun_induction Scanner.tokens scanner with
  | case1 scanner error after read =>
    have fine := scanner.next_fine
    rw [read] at fine
    exact fine
  | case2 scanner token after read last =>
    have fine := scanner.next_fine
    rw [read] at fine
    exact ⟨List.forall_mem_singleton.mpr fine, ⟨token, rfl, last⟩, by simp⟩
  | case3 scanner token after read more ih =>
    have fine := scanner.next_fine
    rw [read] at fine
    cases others : after.tokens with
    | error error =>
      rw [others] at ih
      exact ih
    | ok tokens =>
      rw [others] at ih
      exact ih.cons fine (Scanner.next_shrinks read more)

theorem tokenize_lexed (text : String) (file : Int) : Meets (tokenize text file) (Lexed text.toList) Error.IsUser :=
  Scanner.tokens_meets _

theorem tokenize_meets (text : String) (file : Int) :
    Meets (tokenize text file) (fun tokens => ∀ token ∈ tokens, token.Plain) Error.IsUser :=
  (tokenize_lexed text file).mono fun _ lexed token member ident => (lexed.words token member ident).spelled

end IntC
