import IntC.Digest
import IntC.Path

namespace IntC

section Pieces
variable {separator : Char}

theorem pieces_cons_self (rest : List Char) : pieces separator (separator :: rest) = [] :: pieces separator rest :=
  if_pos rfl

theorem pieces_cons_of_ne {c : Char} (other : c ≠ separator) (rest : List Char) :
    pieces separator (c :: rest) = match pieces separator rest with
      | piece :: more => (c :: piece) :: more
      | [] => [[c]] :=
  if_neg other

theorem pieces_of_not_mem {text : List Char} (apart : separator ∉ text) : pieces separator text = [text] := by
  induction text with
  | nil => rfl
  | cons c rest ih =>
    obtain ⟨other, later⟩ := not_or.mp (mt List.mem_cons.mpr apart)
    rw [pieces_cons_of_ne (Ne.symm other), ih later]

theorem pieces_ne_nil (text : List Char) : pieces separator text ≠ [] := by
  cases text with
  | nil => exact List.cons_ne_nil _ _
  | cons c rest =>
    by_cases same : c = separator
    · rw [same, pieces_cons_self]
      exact List.cons_ne_nil _ _
    · rw [pieces_cons_of_ne same]
      cases pieces separator rest <;> exact List.cons_ne_nil _ _

theorem pieces_append (before after : List Char) :
    pieces separator (before ++ separator :: after) = pieces separator before ++ pieces separator after := by
  induction before with
  | nil => exact pieces_cons_self after
  | cons c rest ih =>
    by_cases same : c = separator
    · rw [same, List.cons_append, pieces_cons_self, pieces_cons_self, ih, List.cons_append]
    · rw [List.cons_append, pieces_cons_of_ne same, pieces_cons_of_ne same, ih]
      cases first : pieces separator rest with
      | nil => exact absurd first (pieces_ne_nil rest)
      | cons piece more => rfl

end Pieces

namespace Path

/-- The name of one thing in a folder, not of the folder or of something above or below it. -/
structure IsPlain (name : String) : Prop where
  given : name ≠ ""
  notHere : name ≠ "."
  notAbove : name ≠ ".."
  single : '/' ∉ name.toList

/-- Behind a start of some length a name is plain as long as there is no slash in it. -/
theorem IsPlain.of_start {start rest : String} (long : 2 < start.toList.length) (single : '/' ∉ start.toList)
    (singleToo : '/' ∉ rest.toList) : IsPlain (start ++ rest) := by
  have tooLong : ∀ short : String, short.toList.length ≤ 2 → start ++ rest ≠ short := by
    rintro _ bound rfl
    rw [String.toList_append, List.length_append] at bound
    omega
  refine ⟨tooLong "" (by decide), tooLong "." (by decide), tooLong ".." (by decide), ?_⟩
  rw [String.toList_append, List.mem_append]
  exact not_or.mpr ⟨single, singleToo⟩

theorem pushPart_of_plain {name : String} (plain : IsPlain name) (rooted : Bool) (stack : List String) :
    pushPart rooted stack name = name :: stack := by
  simp [pushPart, plain.given, plain.notHere, plain.notAbove]

/-- What stands before the last part of a clean path, with the parts kept so far given last one first. -/
def start (rooted : Bool) (stack : List String) : String :=
  (if rooted then "/" else "") ++ if stack = [] then "" else "/".intercalate stack.reverse ++ "/"

theorem clean_of_split {path name : String} {parts : List String} (plain : IsPlain name)
    (divided : split '/' path = parts ++ [name]) :
    clean path = start (isRooted path) (parts.foldl (pushPart (isRooted path)) []) ++ name := by
  unfold clean
  simp only [divided, List.foldl_append, List.foldl_cons, List.foldl_nil, pushPart_of_plain plain]
  generalize parts.foldl (pushPart (isRooted path)) [] = stack
  have body : "/".intercalate (name :: stack).reverse =
      (if stack = [] then "" else "/".intercalate stack.reverse ++ "/") ++ name := by
    rw [List.reverse_cons]
    split
    · rename_i empty
      simp [empty]
    · rename_i filled
      rw [String.intercalate_append_of_ne_nil (by simpa using filled) (by simp), String.intercalate_singleton]
  rw [body]
  cases isRooted path <;> simp [start, String.append_assoc]

theorem split_join (folder : String) {name : String} (plain : IsPlain name) :
    split '/' (folder ++ "/" ++ name) = split '/' folder ++ [name] := by
  have chars : (folder ++ "/" ++ name).toList = folder.toList ++ '/' :: name.toList := by simp
  unfold split
  rw [chars, pieces_append, pieces_of_not_mem plain.single]
  simp

theorem isRooted_append {folder : String} (given : folder ≠ "") (rest : String) :
    isRooted (folder ++ rest) = isRooted folder := by
  unfold isRooted startsWith
  rw [String.toList_append]
  cases chars : folder.toList with
  | nil => exact absurd (String.toList_eq_nil_iff.mp chars) given
  | cons c more => simp [List.isPrefixOf]

/-- The path of a plain name in a folder is that name behind a text that only depends on the folder. -/
theorem exists_join (folder : String) : ∃ before, ∀ name, IsPlain name → join [folder, name] = before ++ name := by
  by_cases none : folder = ""
  · refine ⟨start false [], fun name plain => ?_⟩
    have single : split '/' name = [] ++ [name] := by
      unfold split
      rw [pieces_of_not_mem plain.single]
      simp
    have relative : isRooted name = false := by
      unfold isRooted startsWith
      cases chars : name.toList with
      | nil => rfl
      | cons c more =>
        have other : '/' ≠ c := fun same => plain.single (chars ▸ List.mem_cons.mpr (.inl same))
        simp [List.isPrefixOf, other]
    have cleaned := clean_of_split plain single
    rw [relative] at cleaned
    simpa [join, none, plain.given] using cleaned
  · refine ⟨start (isRooted folder) ((split '/' folder).foldl (pushPart (isRooted folder)) []), fun name plain => ?_⟩
    have cleaned := clean_of_split plain (split_join folder plain)
    rw [String.append_assoc, isRooted_append none, ← String.append_assoc] at cleaned
    simpa [join, none, String.intercalate_cons_cons] using cleaned

theorem join_injective {folder name other : String} (plain : IsPlain name) (plainToo : IsPlain other)
    (same : join [folder, name] = join [folder, other]) : name = other := by
  obtain ⟨start, joined⟩ := exists_join folder
  rw [joined name plain, joined other plainToo] at same
  exact String.append_right_inj start |>.mp same

end Path

theorem slash_not_mem_toDigits (number : Nat) : '/' ∉ Nat.toDigits 16 number := by
  have digit : ∀ n < 16, '/' ≠ Nat.digitChar n := by decide
  induction number using Nat.strongRecOn with
  | ind number ih =>
    rw [Nat.toDigits_eq_if (by decide)]
    split
    · rename_i small
      exact fun member => digit number small (List.mem_singleton.mp member)
    · rename_i large
      simp only [List.mem_append, List.mem_singleton, not_or]
      exact ⟨ih _ (Nat.div_lt_self (by omega) (by decide)), digit _ (Nat.mod_lt _ (by decide))⟩

theorem Digest.slash_not_mem (text : String) : '/' ∉ (Digest.ofText text).toList := by
  unfold ofText hexPadded
  simp only [String.toList_ofList, List.mem_append, List.mem_replicate, not_or, not_and]
  exact ⟨fun _ => by decide, slash_not_mem_toDigits _⟩

end IntC
