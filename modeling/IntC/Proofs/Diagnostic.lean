import IntC.Diagnostic
import IntC.Proofs.Path
import IntC.Proofs.Token.Tiling
import Mathlib.Data.List.GetD

namespace IntC

theorem length_pieces (separator : Char) (text : List Char) :
    (pieces separator text).length = text.count separator + 1 := by
  induction text with
  | nil => rfl
  | cons c rest ih =>
    by_cases same : c = separator
    · simp [pieces, same, ih]
    · obtain ⟨piece, more, found⟩ := List.exists_cons_of_ne_nil (@pieces_ne_nil separator rest)
      rw [pieces, if_neg same, found, List.count_cons_of_ne same, ← ih, found]
      rfl

/-- The line stands in the text, whole, with the given text above and below it. -/
structure HasLine (text above line below : List Char) : Prop where
  whole : text = above ++ (line ++ below)
  inside : '\n' ∉ line
  starts : above = [] ∨ ∃ rest, above = rest ++ ['\n']
  ends : below = [] ∨ ∃ rest, below = '\n' :: rest

/-- A line is found by the number of lines above it. -/
theorem HasLine.lineAt {text above line below : List Char} (stands : HasLine text above line below) :
    Diagnostic.lineAt text (1 + above.count '\n') = line := by
  obtain ⟨rfl, inside, starts, ends⟩ := stands
  have tail : ∃ more, pieces '\n' (line ++ below) = line :: more := by
    rcases ends with rfl | ⟨rest, rfl⟩
    · exact ⟨[], by rw [List.append_nil, pieces_of_not_mem inside]⟩
    · exact ⟨pieces '\n' rest, by rw [pieces_append, pieces_of_not_mem inside]; rfl⟩
  have parts : ∃ earlier, pieces '\n' (above ++ (line ++ below)) = earlier ++ pieces '\n' (line ++ below) ∧
      earlier.length = above.count '\n' := by
    rcases starts with rfl | ⟨rest, rfl⟩
    · exact ⟨[], rfl, rfl⟩
    · refine ⟨pieces '\n' rest, ?_, ?_⟩
      · rw [List.append_assoc, List.singleton_append, pieces_append]
      · rw [length_pieces, List.count_append, List.count_singleton_self]
  obtain ⟨more, found⟩ := tail
  obtain ⟨earlier, same, count⟩ := parts
  have index : min ((1 : Int) + above.count '\n' - 1).toNat ((earlier ++ line :: more).length - 1) = earlier.length := by
    rw [List.length_append, List.length_cons]
    omega
  unfold Diagnostic.lineAt
  simp only [same, found]
  rw [index, List.getD_append_right _ _ _ _ le_rfl, Nat.sub_self]
  rfl

/-- Text that has no end of line in it stands in one line. Left of it there is what is behind the last end of line. -/
theorem exists_hasLine (before after : List Char) {lexeme : List Char} (inside : '\n' ∉ lexeme) :
    ∃ above right below, before = above ++ before.rtakeWhile (· ≠ '\n') ∧ after = right ++ below ∧
      HasLine (before ++ (lexeme ++ after)) above (before.rtakeWhile (· ≠ '\n') ++ lexeme ++ right) below := by
  have whole := (List.rdropWhile_append_rtakeWhile (p := (· ≠ '\n')) (l := before)).symm
  refine ⟨before.rdropWhile (· ≠ '\n'), after.takeWhile (· ≠ '\n'), after.dropWhile (· ≠ '\n'), whole,
    List.takeWhile_append_dropWhile.symm, ?_, ?_, ?_, ?_⟩
  · nth_rewrite 1 [whole]
    simp only [List.append_assoc, List.takeWhile_append_dropWhile]
  · simp only [List.mem_append, not_or]
    refine ⟨⟨fun found => ?_, inside⟩, fun found => ?_⟩
    · exact absurd (List.mem_rtakeWhile_imp found) (by decide)
    · exact absurd (List.mem_takeWhile_imp found) (by decide)
  · by_cases none : before.rdropWhile (· ≠ '\n') = []
    · exact .inl none
    · have last : (before.rdropWhile (· ≠ '\n')).getLast none = '\n' := by
        simpa using List.rdropWhile_last_not (· ≠ '\n') before none
      exact .inr ⟨_, (List.dropLast_append_getLast none).symm.trans (by rw [last])⟩
  · cases rest : after.dropWhile (· ≠ '\n') with
    | nil => exact .inl rfl
    | cons c rest' =>
      have stops := head?_dropWhile_stops (· ≠ '\n') after c (by rw [rest]; rfl)
      have newline : c = '\n' := by simpa using stops
      exact .inr ⟨rest', by rw [newline]⟩

/-- Where a lexeme is over if a text follows, it is over if less of that text follows. -/
theorem Spelling.Ends.of_append {spelling : Spelling} {behind more : List Char} (ends : spelling.Ends (behind ++ more)) :
    spelling.Ends behind := by
  cases behind with
  | nil => exact spelling.ends_of_detached (by rintro _ ⟨⟩)
  | cons c rest => exact ⟨ends.word, ends.fixed, ends.minus, ends.slash⟩

/-- A token of a text stands between what the tokens before it and those behind it are read from. -/
theorem Tiled.split {file : Int} {before text : List Char} {tokens earlier later : List Token} {token : Token}
    (tiled : Tiled file before text tokens) (parts : tokens = earlier ++ token :: later) (more : token.kind ≠ .eof) :
    ∃ lead spelling behind, text = lead ++ (Spelling.text spelling ++ behind) ∧
      token = ⟨spelling.content.1, spelling.content.2, spanBehind file (before ++ lead) spelling.text.length⟩ ∧
      Tiled file before lead (earlier ++ [⟨.eof, "", spanBehind file (before ++ lead) 0⟩]) ∧
      Tiled file (before ++ lead) (spelling.text ++ behind) (token :: later) := by
  induction tiled generalizing earlier with
  | @last before trail =>
    cases earlier with
    | nil =>
      cases parts
      exact absurd rfl more
    | cons first earlier => simp at parts
  | @next before behind tokens gap spelling ends rest ih =>
    cases earlier with
    | nil =>
      cases parts
      refine ⟨gapText gap, spelling, behind, rfl, rfl, ?_, ?_⟩
      · have trail : (⟨gap, none, by simp⟩ : Trail).text = gapText gap := List.append_nil _
        rw [← trail]
        exact .last _
      · have none : before ++ gapText gap ++ gapText [] = before ++ gapText gap := List.append_nil _
        rw [← none] at rest
        have here := Tiled.next [] spelling ends rest
        rw [none] at here
        exact here
    | cons first earlier =>
      obtain ⟨rfl, following⟩ := List.cons.inj parts
      obtain ⟨lead, inner, after, rfl, place, tiled, others⟩ := ih following
      have whole : before ++ gapText gap ++ spelling.text ++ lead = before ++ (gapText gap ++ (spelling.text ++ lead)) := by
        simp only [List.append_assoc]
      rw [whole] at place tiled others
      exact ⟨gapText gap ++ (spelling.text ++ lead), inner, after, by simp only [List.append_assoc], place,
        .next gap spelling ends.of_append tiled, others⟩

theorem Spelling.newline_notMem (spelling : Spelling) : '\n' ∉ spelling.text := by
  intro found
  have solid : isSpace '\n' = false := by
    cases spelling with
    | fixed kind text spelled => exact solid_of_spelling? spelled _ found
    | word name word free => exact (solid_of_isWordChar (word.isWordChar found)).1
    | constant first others decimal =>
      exact (solid_of_isWordChar (by rw [isWordChar, decimal _ found, Bool.or_true])).1
  cases solid

/-- The marks below a line: spaces below what is left of a lexeme, and below the lexeme a caret and tildes. -/
def underline (left lexeme : List Char) : List Char :=
  left.map (fun _ => ' ') ++ '^' :: lexeme.tail.map fun _ => '~'

/-- What is shown for a lexeme that stands behind a text: the line it stands in, and the marks below it. -/
theorem excerpt_spanBehind {files : List SourceFile} {file : Int} {name text : String}
    {above left lexeme right below : List Char} (registered : Diagnostic.fileAt? files file = some ⟨name, text⟩)
    (stands : HasLine text.toList above (left ++ lexeme ++ right) below)
    (open' : (above ++ left).rtakeWhile (· ≠ '\n') = left) :
    Diagnostic.excerpt files (spanBehind file (above ++ left) lexeme.length) =
      "  " ++ String.ofList (left ++ lexeme ++ right) ++ "\n" ++ "  " ++ String.ofList (underline left lexeme) ++ "\n" := by
  have lines : (above ++ left).count '\n' = above.count '\n' := by
    have inside := stands.inside
    simp only [List.mem_append, not_or] at inside
    rw [List.count_append, List.count_eq_zero.mpr inside.1.1, Nat.add_zero]
  have span : spanBehind file (above ++ left) lexeme.length =
      ⟨file, 1 + above.count '\n', 1 + left.length, lexeme.length⟩ := by
    rw [spanBehind, lines, open']
  have known : (1 : Int) + above.count '\n' ≠ 0 := by omega
  have indent : ((1 : Int) + left.length - 1).toNat = left.length := by omega
  have marks : ((lexeme.length : Int) - 1).toNat = lexeme.tail.length := by
    rw [List.length_tail]
    omega
  unfold Diagnostic.excerpt
  simp only [span, registered, if_neg known, indent, marks, stands.lineAt]
  refine String.toList_injective ?_
  simp [underline]

/-- A message about a token points at it: below the line that the token stands in, whole, just its characters are
marked. The tokens before it are read from what stands before these characters, and it and the others from there on. -/
theorem excerpt_points_at_token {text : String} {file : Int} {earlier later : List Token} {token : Token}
    (read : tokenize text file = .ok (earlier ++ token :: later)) (more : token.kind ≠ .eof)
    {files : List SourceFile} {name : String}
    (registered : Diagnostic.fileAt? files token.span.file = some ⟨name, text⟩) :
    ∃ (spelling : Spelling) (above left right below : List Char),
      spelling.content = token.content ∧ HasLine text.toList above (left ++ spelling.text ++ right) below ∧
      (∃ last, tokenize (String.ofList (above ++ left)) file = .ok (earlier ++ [last])) ∧
      Scanner.tokens ⟨file, ({} : Position).passing (above ++ left), spelling.text ++ (right ++ below)⟩ =
        .ok (token :: later) ∧
      Diagnostic.excerpt files token.span = "  " ++ String.ofList (left ++ spelling.text ++ right) ++ "\n" ++
        "  " ++ String.ofList (underline left spelling.text) ++ "\n" := by
  have tiled : Tiled file [] text.toList (earlier ++ token :: later) := Scanner.tiled_of_tokens rfl read
  obtain ⟨lead, spelling, behind, whole, rfl, before, after⟩ := tiled.split rfl more
  obtain ⟨above, right, below, parts, rfl, stands⟩ := exists_hasLine lead behind spelling.newline_notMem
  rw [← whole] at stands
  refine ⟨spelling, above, lead.rtakeWhile (· ≠ '\n'), right, below, rfl, stands, ?_, ?_, ?_⟩
  · rw [← parts, tokenize, Scanner.start, String.toList_ofList]
    exact ⟨_, before.tokens⟩
  · rw [← parts]
    exact after.tokens
  · have span := excerpt_spanBehind registered stands (by rw [← parts])
    rwa [← parts] at span

/-- A comment over two lines stands before the first token of the last line, and the text ends with that line. -/
def commentedText : String := "int n;\n/* the\n* rest */\tn = 42;"

/-- The tokens before the constant. -/
def commentedTokens : List Token := [
  ⟨.kwInt, "", ⟨0, 1, 1, 3⟩⟩, ⟨.ident, "n", ⟨0, 1, 5, 1⟩⟩, ⟨.semi, "", ⟨0, 1, 6, 1⟩⟩,
  ⟨.ident, "n", ⟨0, 3, 11, 1⟩⟩, ⟨.assign, "", ⟨0, 3, 13, 1⟩⟩]

theorem excerpt_points_at_token_commented :
    tokenize commentedText 0 = .ok (commentedTokens ++ ⟨.number, "42", ⟨0, 3, 15, 2⟩⟩ ::
      [⟨.semi, "", ⟨0, 3, 17, 1⟩⟩, ⟨.eof, "", ⟨0, 3, 18, 0⟩⟩]) ∧
    (∃ (spelling : Spelling) (above left right below : List Char), spelling.content = (.number, "42") ∧
      HasLine commentedText.toList above (left ++ spelling.text ++ right) below ∧
      Diagnostic.excerpt [⟨"a.c", commentedText⟩] ⟨0, 3, 15, 2⟩ = "  " ++ String.ofList (left ++ spelling.text ++ right) ++
        "\n" ++ "  " ++ String.ofList (underline left spelling.text) ++ "\n") ∧
    Diagnostic.excerpt [⟨"a.c", commentedText⟩] ⟨0, 3, 15, 2⟩ = "  * rest */\tn = 42;\n                ^~\n" := by
  have read : tokenize commentedText 0 = .ok (commentedTokens ++ ⟨.number, "42", ⟨0, 3, 15, 2⟩⟩ ::
      [⟨.semi, "", ⟨0, 3, 17, 1⟩⟩, ⟨.eof, "", ⟨0, 3, 18, 0⟩⟩]) := by decide +kernel
  have registered : Diagnostic.fileAt? [⟨"a.c", commentedText⟩] 0 = some ⟨"a.c", commentedText⟩ := rfl
  obtain ⟨spelling, above, left, right, below, content, stands, -, -, shown⟩ :=
    excerpt_points_at_token read (by decide) registered
  exact ⟨read, ⟨spelling, above, left, right, below, content, stands, shown⟩, by decide +kernel⟩

end IntC
