import IntC.Proofs.Token.Tiling

namespace IntC

/-- A comment that is not closed takes all of the text, and the slash that opens it at least. -/
theorem skipGap_unclosed {state : GapState} {start stop place : Position} {text : List Char}
    (skipped : skipGap state place text = .unclosed start stop) :
    stop = place.passing text ∧ (state = .space → text ≠ []) := by
  fun_induction skipGap state place text with
  | case1 place rest ih | case2 place rest ih => exact ⟨(ih skipped).1, fun _ => List.cons_ne_nil _ _⟩
  | case3 place c rest notLine notBlock white ih => exact ⟨(ih skipped).1, fun _ => List.cons_ne_nil _ _⟩
  | case4 => cases skipped
  | case5 place rest ih | case6 place c rest other ih => exact ⟨(ih skipped).1, fun same => by cases same⟩
  | case7 place from' rest ih | case8 place from' c rest opened ih => exact ⟨(ih skipped).1, fun same => by cases same⟩
  | case9 place from' =>
    cases skipped
    exact ⟨rfl, fun same => by cases same⟩
  | case10 | case11 => cases skipped

/-- Whether a call has come to the end of the text. -/
def isEnd : Except Error Token → Bool
  | .ok token => token.kind = .eof
  | .error _ => false

theorem Lexeme.kind_ne_eof {c : Char} {rest : List Char} {content : TokenKind × String}
    (starts : StartsLexeme (c :: rest)) (read : (Lexeme.read c rest).reading = .ok content) : content.1 ≠ .eof := by
  obtain ⟨spelling, -, -, -, -, -, rfl, -⟩ := Lexeme.read_spells starts content read
  exact spelling.content_ne_eof

namespace Scanner

/-- What one call can do. It comes to the end of the text and stays there, or it reads over something, be it a token
or not. -/
theorem next_passes (scanner : Scanner) : ∃ passed,
    scanner.rest = passed ++ scanner.next.2.rest ∧ scanner.next.2.place = scanner.place.passing passed ∧
      (isEnd scanner.next.1 = true ∧ scanner.next.2.rest = [] ∧ scanner.next.2.next = scanner.next ∨
        isEnd scanner.next.1 = false ∧ passed ≠ []) := by
  cases skipped : skipGap .space scanner.place scanner.rest with
  | unclosed start stop =>
    obtain ⟨rfl, opened⟩ := skipGap_unclosed skipped
    simp only [next, skipped]
    exact ⟨scanner.rest, (List.append_nil _).symm, rfl, .inr ⟨rfl, opened rfl⟩⟩
  | lexeme place rest =>
    obtain ⟨passed, whole, rfl, -, starts⟩ := skipGap_passes skipped
    cases rest with
    | nil =>
      simp only [next, skipped]
      exact ⟨passed, whole, rfl, .inl ⟨rfl, trivial, rfl⟩⟩
    | cons c rest =>
      have goesOn : isEnd scanner.next.1 = false := by
        simp only [next, skipped]
        cases reading : (Lexeme.read c rest).reading with
        | error => rfl
        | ok content => exact decide_eq_false (Lexeme.kind_ne_eof starts reading)
      refine ⟨passed ++ c :: rest.take (Lexeme.read c rest).extra, ?_, ?_, .inr ⟨goesOn, by simp⟩⟩
      · simp only [next, skipped]
        rw [whole, List.append_assoc, List.cons_append, List.take_append_drop]
      · simp only [next, skipped]
        rw [Position.passing_append]
        rfl

/-- The scanner behind so many calls of `next`. -/
def behind (scanner : Scanner) : Nat → Scanner
  | 0 => scanner
  | count + 1 => (scanner.behind count).next.2

theorem behind_next (scanner : Scanner) (count : Nat) : scanner.next.2.behind count = scanner.behind (count + 1) := by
  induction count with
  | zero => rfl
  | succ count ih => exact congrArg (fun later => later.next.2) ih

theorem steps_eq (scanner : Scanner) (count : Nat) :
    scanner.steps count = (List.range count).map fun call => (scanner.behind call).next.1 := by
  induction count generalizing scanner with
  | zero => rfl
  | succ count ih =>
    rw [steps, ih, List.range_succ_eq_map, List.map_cons, List.map_map]
    simp only [Function.comp_def, behind_next]
    rfl

/-- The scanner has read the first part of the text and has the rest of it before it. -/
def Within (text : List Char) (scanner : Scanner) : Prop :=
  ∃ before, text = before ++ scanner.rest ∧ scanner.place = ({} : Position).passing before

theorem Within.offset {text : List Char} {scanner : Scanner} (within : scanner.Within text) :
    scanner.place.offset ≤ text.length ∧ scanner.rest = text.drop scanner.place.offset := by
  obtain ⟨before, rfl, place⟩ := within
  rw [place, Position.start_passing]
  simp

/-- A call goes on within the text. -/
theorem Within.next {text : List Char} {scanner : Scanner} (within : scanner.Within text) :
    scanner.next.2.Within text ∧
      (isEnd scanner.next.1 = true → scanner.next.2.place.offset = text.length) ∧
      (isEnd scanner.next.1 = false → scanner.place.offset < scanner.next.2.place.offset) := by
  obtain ⟨before, rfl, place⟩ := within
  obtain ⟨passed, whole, stop, outcome⟩ := scanner.next_passes
  rw [place, ← Position.passing_append] at stop
  have offset : scanner.next.2.place.offset = scanner.place.offset + passed.length := by
    rw [stop, place, Position.start_passing, Position.start_passing, List.length_append]
  have start : scanner.place.offset = before.length := by rw [place, Position.start_passing]
  refine ⟨⟨before ++ passed, by rw [whole, List.append_assoc], stop⟩, ?_⟩
  rcases outcome with ⟨ends, nothing, -⟩ | ⟨goesOn, something⟩
  · refine ⟨fun _ => ?_, fun goesOn => ?_⟩
    · rw [offset, start, whole, nothing, List.append_nil, List.length_append]
    · rw [ends] at goesOn
      cases goesOn
  · have positive := List.length_pos_iff.mpr something
    refine ⟨fun ends => ?_, fun _ => by omega⟩
    rw [goesOn] at ends
    cases ends

theorem within_behind (text : String) (file : Int) (count : Nat) :
    ((start text file).behind count).Within text.toList := by
  induction count with
  | zero => exact ⟨[], rfl, rfl⟩
  | succ count ih => exact ih.next.1

theorem behind_again {scanner : Scanner} {count later : Nat} (ends : isEnd (scanner.behind count).next.1 = true)
    (more : count ≤ later) : (scanner.behind later).next = (scanner.behind count).next := by
  induction later, more using Nat.le_induction with
  | base => rfl
  | succ later _ ih =>
    obtain ⟨-, -, -, ⟨-, -, again⟩ | ⟨goesOn, -⟩⟩ := (scanner.behind later).next_passes
    · exact again.trans ih
    · rw [ih, ends] at goesOn
      cases goesOn

/-- As long as the end is not reached, every call takes a character at least. -/
theorem le_offset_behind (text : String) (file : Int) (count : Nat)
    (more : ∀ call < count, isEnd ((start text file).behind call).next.1 = false) :
    count ≤ ((start text file).behind count).place.offset := by
  induction count with
  | zero => exact Nat.zero_le _
  | succ count ih =>
    have before := ih fun call earlier => more call (Nat.lt_succ_of_lt earlier)
    have progress := (within_behind text file count).next.2.2 (more count (Nat.lt_succ_self _))
    exact Nat.lt_of_le_of_lt before progress

theorem exists_isEnd (text : String) (file : Int) :
    ∃ call ≤ text.length, isEnd ((start text file).behind call).next.1 = true := by
  by_contra never
  have far := le_offset_behind text file (text.length + 1) fun call early =>
    Bool.eq_false_iff.mpr fun ends => never ⟨call, Nat.le_of_lt_succ early, ends⟩
  have bound := (within_behind text file (text.length + 1)).offset.1
  rw [String.length_toList] at bound
  omega

end Scanner

/-- The tokens up to the end or the first error, if a list of results comes to one of these. -/
def gather : List (Except Error Token) → Option (Except Error (List Token))
  | [] => none
  | .error error :: _ => some (.error error)
  | .ok token :: rest =>
    if token.kind = .eof then some (.ok [token]) else (gather rest).map fun tokens => tokens.map (token :: ·)

/-- More calls than there are characters left are never needed to come to the end or to an error. -/
theorem Scanner.gather_steps (scanner : Scanner) {count : Nat} (enough : scanner.rest.length < count) :
    gather (scanner.steps count) = some scanner.tokens := by
  obtain ⟨count, rfl⟩ := Nat.exists_eq_succ_of_ne_zero (Nat.ne_zero_of_lt enough)
  fun_induction Scanner.tokens scanner generalizing count with
  | case1 scanner error after read =>
    rw [steps, read]
    rfl
  | case2 scanner token after read last =>
    rw [steps, read]
    exact if_pos last
  | case3 scanner token after read more ih =>
    have shorter := Scanner.next_shrinks read more
    obtain ⟨count, rfl⟩ := Nat.exists_eq_succ_of_ne_zero (show count ≠ 0 by omega)
    rw [steps, read]
    simp only [gather, if_neg more, ih count (by omega), Option.map_some]

/-- Calls of `next` on one text, going on behind errors and behind the end. Every call that does not give the end takes
the scanner further, and none takes it past the end of the text. The end is given only at the end of the text, and from
then on by every call. It comes after as many calls as there are characters and one more, at the latest, and these are
enough for the tokens of the text. -/
theorem Scanner.start_progresses (text : String) (file : Int) :
    (∀ count, (start text file).steps count =
      (List.range count).map fun call => ((start text file).behind call).next.1) ∧
    (∀ call, ((start text file).behind call).place.offset ≤ text.length ∧
      ((start text file).behind call).rest = text.toList.drop ((start text file).behind call).place.offset) ∧
    (∀ call, isEnd ((start text file).behind call).next.1 = false →
      ((start text file).behind call).place.offset < ((start text file).behind (call + 1)).place.offset) ∧
    (∀ call, isEnd ((start text file).behind call).next.1 = true →
      ((start text file).behind (call + 1)).place.offset = text.length ∧
      ∀ later ≥ call, ((start text file).behind later).next.1 = ((start text file).behind call).next.1) ∧
    (∃ call ≤ text.length, isEnd ((start text file).behind call).next.1 = true) ∧
    gather ((start text file).steps (text.length + 1)) = some (tokenize text file) := by
  refine ⟨steps_eq _, fun call => ?_, fun call goesOn => ?_, fun call ends => ⟨?_, fun later after => ?_⟩,
    exists_isEnd text file, gather_steps _ ?_⟩
  · have within := (within_behind text file call).offset
    rwa [String.length_toList] at within
  · exact (within_behind text file call).next.2.2 goesOn
  · have stop := (within_behind text file call).next.2.1 ends
    rwa [String.length_toList] at stop
  · rw [behind_again ends after]
  · rw [← String.length_toList]
    exact Nat.lt_succ_self _

end IntC
