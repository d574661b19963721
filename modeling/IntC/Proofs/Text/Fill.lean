import IntC.Text.Fill
import Mathlib.Data.List.Chain

namespace IntC

theorem wordsFrom_eq (current chars : List Char) :
    wordsFrom current chars = ((chars.splitOnP isBlank).modifyHead (current ++ ·)).filter (· ≠ []) := by
  induction chars generalizing current with
  | nil => cases current <;> simp [wordsFrom]
  | cons c rest ih =>
    have fresh : wordsFrom [] rest = (rest.splitOnP isBlank).filter (· ≠ []) := by
      rw [ih]
      cases rest.splitOnP isBlank <;> rfl
    rw [wordsFrom, List.splitOnP_cons_eq_if_modifyHead]
    split
    · cases current <;> simp [fresh]
    · rw [ih, List.modifyHead_modifyHead]
      congr 2
      funext word
      simp

/-- The words of a text are what stands between its white space, where anything does. -/
theorem words_eq (text : String) :
    words text = ((text.toList.splitOnP isBlank).filter (· ≠ [])).map String.ofList := by
  rw [words, wordsFrom_eq]
  cases text.toList.splitOnP isBlank <;> rfl

theorem lineBytes_append {line : List String} (begun : line ≠ []) (word : String) :
    lineBytes (line ++ [word]) = lineBytes line + 1 + word.utf8ByteSize := by
  rw [lineBytes, String.intercalate_append_of_ne_nil begun (List.cons_ne_nil _ _), String.intercalate_singleton]
  simp only [String.utf8ByteSize_append, lineBytes]
  rfl

/-- Lines that hold words in their order. Each holds one at least, and none more bytes than the width unless the word is
its only one; a line ends only where the next word would not have fitted behind a space. -/
structure Fills (width : Nat) (words : List String) (lines : List (List String)) : Prop where
  same : lines.flatten = words
  begun : ∀ line ∈ lines, line ≠ []
  fits : ∀ line ∈ lines, lineBytes line ≤ width ∨ line.length = 1
  greedy : lines.IsChain fun line next => ∀ word ∈ next.head?, width < lineBytes line + 1 + word.utf8ByteSize

theorem fillFrom_begins (width : Nat) (line words : List String) :
    ∃ more others, fillFrom width line words = (line ++ more) :: others := by
  induction words generalizing line with
  | nil => exact ⟨[], [], by simp [fillFrom]⟩
  | cons word rest ih =>
    unfold fillFrom
    split
    · exact ⟨[], _, by rw [List.append_nil]⟩
    · obtain ⟨more, others, same⟩ := ih (line ++ [word])
      exact ⟨word :: more, others, by simp [same]⟩

theorem fillFrom_fills {width : Nat} {line : List String} (begun : line ≠ [])
    (fits : lineBytes line ≤ width ∨ line.length = 1) (words : List String) :
    Fills width (line ++ words) (fillFrom width line words) := by
  induction words generalizing line with
  | nil => exact ⟨by simp [fillFrom], by simpa [fillFrom] using begun, by simpa [fillFrom] using fits, .singleton _⟩
  | cons word rest ih =>
    unfold fillFrom
    split
    · rename_i tooLong
      have later := ih (List.cons_ne_nil word []) (.inr rfl)
      obtain ⟨more, others, next⟩ := fillFrom_begins width [word] rest
      refine ⟨?_, List.forall_mem_cons.mpr ⟨begun, later.begun⟩, List.forall_mem_cons.mpr ⟨fits, later.fits⟩, ?_⟩
      · rw [List.flatten_cons, later.same, List.singleton_append]
      · refine List.isChain_cons.mpr ⟨?_, later.greedy⟩
        rw [next]
        rintro _ ⟨⟩ _ ⟨⟩
        omega
    · rename_i room
      have bytes := lineBytes_append begun word
      have later := @ih (line ++ [word]) (by simp) (.inl (by omega))
      rwa [List.append_assoc] at later

theorem fill_fills (width : Nat) (words : List String) : Fills width words (fill width words) := by
  cases words with
  | nil => exact ⟨rfl, List.forall_mem_nil _, List.forall_mem_nil _, .nil⟩
  | cons word rest => exact fillFrom_fills (List.cons_ne_nil word []) (.inr rfl) rest

theorem intercalate_ne_empty {line : List String} (begun : line ≠ []) (solid : ∀ word ∈ line, word ≠ "") :
    " ".intercalate line ≠ "" := by
  obtain ⟨word, rest, rfl⟩ := List.exists_cons_of_ne_nil begun
  have first := solid word List.mem_cons_self
  cases rest with
  | nil => rwa [String.intercalate_singleton]
  | cons next rest =>
    rw [String.intercalate_cons_cons]
    simp

/-- A text is wrapped by filling its lines one after the other. -/
theorem wrap_fills {width : Nat} (positive : 0 < width) (text : String) :
    ∃ lines, wrap width text = lines.map (" ".intercalate ·) ∧
      Fills width (((text.toList.splitOnP isBlank).filter (· ≠ [])).map String.ofList) lines ∧
      ∀ line ∈ lines, " ".intercalate line ≠ "" := by
  have filled := fill_fills width (words text)
  refine ⟨fill width (words text), if_neg (by omega), words_eq text ▸ filled, fun line member => ?_⟩
  refine intercalate_ne_empty (filled.begun line member) fun word inside => ?_
  have among : word ∈ words text := filled.same ▸ List.mem_flatten_of_mem member inside
  rw [words_eq] at among
  obtain ⟨run, listed, rfl⟩ := List.mem_map.mp among
  simpa using (List.mem_filter.mp listed).2

/-- A letter outside of ASCII takes two bytes, and the second word would have fitted if it took one. -/
theorem wrap_fills_accented : wrap 5 "éé bc\tlongword  de f " = ["éé", "bc", "longword", "de f"] ∧
    ∃ lines, wrap 5 "éé bc\tlongword  de f " = lines.map (" ".intercalate ·) ∧
      Fills 5 (["éé", "bc", "longword", "de", "f"]) lines ∧ ∀ line ∈ lines, " ".intercalate line ≠ "" :=
  ⟨by decide +kernel, wrap_fills (by decide) "éé bc\tlongword  de f "⟩

end IntC
