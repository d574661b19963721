namespace IntC

/-- What a pattern says about one character. -/
inductive PatternItem where
  | any
  | literal (c : Char)
  | among (negated : Bool) (ranges : List (Char × Char))
deriving DecidableEq, Repr, Inhabited

/-- A run of items, behind a star or not. A malformed run has no items. -/
structure PatternChunk where
  star : Bool
  items : Option (List PatternItem)
deriving DecidableEq, Repr, Inhabited

namespace Pattern

/-- A character of a class, which a backslash may precede. The class must go on behind it. -/
def classChar : List Char → Option (Char × List Char)
  | '-' :: _ => none
  | ']' :: _ => none
  | '\\' :: c :: d :: rest => some (c, d :: rest)
  | '\\' :: _ => none
  | c :: d :: rest => some (c, d :: rest)
  | _ => none

theorem classChar_shrinks {text rest : List Char} {c : Char} (read : classChar text = some (c, rest)) :
    rest.length < text.length := by
  unfold classChar at read
  split at read <;> grind

def classRange (text : List Char) : Option ((Char × Char) × List Char) := do
  let (low, rest) ← classChar text
  match rest with
  | '-' :: rest =>
    let (high, rest) ← classChar rest
    return ((low, high), rest)
  | rest => return ((low, low), rest)

theorem classRange_shrinks {text rest : List Char} {range : Char × Char}
    (read : classRange text = some (range, rest)) : rest.length < text.length := by
  unfold classRange at read
  obtain ⟨⟨low, middle⟩, first, read⟩ := Option.bind_eq_some_iff.mp read
  have shorter := classChar_shrinks first
  dsimp only at read
  split at read
  · obtain ⟨⟨high, last⟩, second, same⟩ := Option.bind_eq_some_iff.mp read
    have shorter' := classChar_shrinks second
    simp only [Option.pure_def, Option.some.injEq, Prod.mk.injEq] at same
    simp only [List.length_cons] at shorter
    rw [← same.2]
    omega
  · simp only [Option.pure_def, Option.some.injEq, Prod.mk.injEq] at read
    rw [← read.2]
    exact shorter

/-- The ranges of a class up to its closing bracket, and what follows. -/
def classRanges (ranges : List (Char × Char)) (text : List Char) :
    Option (List (Char × Char) × List Char) :=
  match _closed : text, ranges with
  | ']' :: rest, _ :: _ => some (ranges.reverse, rest)
  | _, _ =>
    match _read : classRange text with
    | none => none
    | some (range, rest) => classRanges (range :: ranges) rest
termination_by text.length
decreasing_by subst _closed; exact classRange_shrinks _read

theorem classRanges_shrinks {ranges result : List (Char × Char)} {text rest : List Char}
    (read : classRanges ranges text = some (result, rest)) : rest.length < text.length := by
  fun_induction classRanges ranges text with
  | case1 => grind
  | case2 => grind
  | case3 =>
    rename_i first _ ih
    have shorter := classRange_shrinks first
    have := ih (by grind)
    omega

def item : List Char → Option (PatternItem × List Char)
  | '?' :: rest => some (.any, rest)
  | '[' :: '^' :: rest => (classRanges [] rest).map fun (ranges, rest) => (.among true ranges, rest)
  | '[' :: rest => (classRanges [] rest).map fun (ranges, rest) => (.among false ranges, rest)
  | '\\' :: c :: rest => some (.literal c, rest)
  | '\\' :: [] => none
  | c :: rest => some (.literal c, rest)
  | [] => none

theorem item_shrinks {text rest : List Char} {first : PatternItem}
    (read : item text = some (first, rest)) : rest.length < text.length := by
  unfold item at read
  split at read
  case h_2 | h_3 =>
    obtain ⟨⟨ranges, left⟩, inside, same⟩ := Option.map_eq_some_iff.mp read
    have := classRanges_shrinks inside
    grind
  all_goals grind

/-- The items of a run, unless it is malformed. -/
def items (text : List Char) : Option (List PatternItem) :=
  if text.isEmpty then some []
  else
    match _read : item text with
    | none => none
    | some (first, rest) => (items rest).map (first :: ·)
termination_by text.length
decreasing_by exact item_shrinks _read

/-- The run taken so far as a chunk, if there is anything to it. -/
def close (star : Bool) (taken : List Char) : List PatternChunk :=
  if !star && taken.isEmpty then [] else [⟨star, items taken.reverse⟩]

/-- Cuts a pattern at its stars, those in classes apart; stars in a row are one star. The characters
taken for the chunk at hand come last first. -/
def cut (star : Bool) (taken : List Char) (inClass : Bool) : List Char → List PatternChunk
  | [] => close star taken
  | '\\' :: c :: rest => cut star (c :: '\\' :: taken) inClass rest
  | '[' :: rest => cut star ('[' :: taken) true rest
  | ']' :: rest => cut star (']' :: taken) false rest
  | '*' :: rest =>
    if inClass then cut star ('*' :: taken) inClass rest
    else if taken.isEmpty then cut true [] false rest
    else close star taken ++ cut true [] false rest
  | c :: rest => cut star (c :: taken) inClass rest

def chunks (text : String) : List PatternChunk := cut false [] false text.toList

/-- Whether a text has any sign of a pattern in it. -/
def isPattern (text : String) : Bool := text.toList.any fun c => "*?[\\".toList.contains c

/-- What is left of a name. A star may pass over a part of a character's encoding; the bytes that are
left of it then count one by one. -/
structure Remainder where
  stray : Nat := 0
  rest : List Char
deriving DecidableEq, Repr, Inhabited

/-- A stray byte is the replacement character to a class. -/
def PatternItem.consume (item : PatternItem) (name : Remainder) : Option Remainder :=
  match name with
  | ⟨stray + 1, rest⟩ =>
    match item with
    | .any => some ⟨stray, rest⟩
    | .literal _ => none
    | .among negated ranges =>
      if ranges.any (fun (low, high) => low ≤ '�' && '�' ≤ high) ≠ negated then some ⟨stray, rest⟩
      else none
  | ⟨0, []⟩ => none
  | ⟨0, c :: rest⟩ =>
    let fits : Bool := match item with
      | .any => c ≠ '/'
      | .literal d => c = d
      | .among negated ranges => ranges.any (fun (low, high) => low ≤ c && c ≤ high) ≠ negated
    if fits then some ⟨0, rest⟩ else none

def consumeAll (items : List PatternItem) (name : Remainder) : Option Remainder :=
  items.foldlM (fun name item => PatternItem.consume item name) name

/-- The stray bytes before `rest`, the most first. -/
def strays (count : Nat) (rest : List Char) : List Remainder :=
  (List.range count).reverse.map fun k => ⟨k + 1, rest⟩

/-- What a star can leave of a name, the longest first. A star never passes a slash. -/
def starts : List Char → List Remainder
  | [] => [⟨0, []⟩]
  | c :: rest =>
    ⟨0, c :: rest⟩ :: if c = '/' then [] else strays (c.utf8Size - 1) rest ++ starts rest

/-- Matches chunk after chunk, each as early as it can; the last must reach the end of the name. There
is no answer if a malformed chunk is reached. -/
def matchChunks : List PatternChunk → Remainder → Option Bool
  | [], name => some (name.stray = 0 && name.rest.isEmpty)
  | ⟨_, none⟩ :: _, _ => none
  | ⟨true, some []⟩ :: _, name => some (!name.rest.contains '/')
  | ⟨star, some items⟩ :: rest, name =>
    let places := if star then strays name.stray name.rest ++ starts name.rest else [name]
    let fit := places.findSome? fun place =>
      (consumeAll items place).filter fun left =>
        !rest.isEmpty || (left.stray = 0 && left.rest.isEmpty)
    match fit with
    | some left => matchChunks rest left
    | none => some false

def fits? (pattern name : String) : Option Bool := matchChunks (chunks pattern) ⟨0, name.toList⟩

end Pattern

end IntC
