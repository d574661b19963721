import IntC.Json.Reader
import IntC.Proofs.Name

namespace IntC.JsonValue

namespace Reader

variable {reader : Reader} {c : Char} {chars : List Char} {part : NumberPart}

/-- Reading the characters leads from one reader to another, whatever comes behind them. -/
def Reads (reader : Reader) (chars : List Char) (after : Reader) : Prop :=
  ∀ rest, reader.readAll (chars ++ rest) = after.readAll rest

/-- Whether a character ends a number. The writer puts no other one behind a value. -/
def isEnd (c : Char) : Bool := c = ',' || c = '\n'

def BeginsWithEnd (chars : List Char) : Prop := ∃ c rest, chars = c :: rest ∧ isEnd c = true

/-- Reading the characters leads from one reader to another if nothing behind them goes on with a number. -/
def Settles (reader : Reader) (chars : List Char) (after : Reader) : Prop :=
  ∀ rest, rest = [] ∨ BeginsWithEnd rest → reader.readAll (chars ++ rest) = after.readAll rest

section Reads
variable {reader middle after : Reader} {chars more : List Char} {c : Char}

theorem Reads.refl (reader : Reader) : Reads reader [] reader := fun _ => rfl

theorem Reads.trans (first : Reads reader chars middle) (second : Reads middle more after) :
    Reads reader (chars ++ more) after := by
  intro rest
  rw [List.append_assoc, first, second]

theorem Reads.step (taken : reader.step c = .ok middle) (later : Reads middle chars after) :
    Reads reader (c :: chars) after := by
  intro rest
  rw [List.cons_append, readAll, taken]
  exact later rest

theorem Reads.single (taken : reader.step c = .ok after) : Reads reader [c] after := .step taken (.refl after)

theorem Reads.settles (reads : Reads reader chars after) : Settles reader chars after :=
  fun rest _ => reads rest

theorem Reads.trans_settles (first : Reads reader chars middle) (second : Settles middle more after) :
    Settles reader (chars ++ more) after := by
  intro rest ends
  rw [List.append_assoc, first, second rest ends]

theorem Settles.trans_reads (first : Settles reader chars middle) (ends : BeginsWithEnd more)
    (second : Reads middle more after) : Reads reader (chars ++ more) after := by
  intro rest
  obtain ⟨c, next, rfl, fine⟩ := ends
  rw [List.append_assoc, first (c :: next ++ rest) (.inr ⟨c, next ++ rest, rfl, fine⟩), second]

end Reads

/-- Whether white space changes nothing. -/
def skips (reader : Reader) : Bool :=
  match reader.mode with
  | .value _ | .key _ | .afterKey | .after => true
  | _ => false

theorem step_gap (skips : reader.skips = true) (gap : isGap c = true) : reader.step c = .ok reader := by
  obtain ⟨mode, stack, result⟩ := reader
  cases mode with
  | value mayClose => simp only [step, stepValue, gap, if_true]
  | key mayClose => simp only [step, stepKey, gap, if_true]
  | afterKey => simp only [step, gap, if_true]
  | after => simp only [step, stepAfter, gap, if_true]
  | _ => cases skips

theorem reads_gaps (skips : reader.skips = true) (gaps : ∀ c ∈ chars, isGap c = true) : Reads reader chars reader := by
  induction chars with
  | nil => exact .refl reader
  | cons c rest ih =>
    obtain ⟨gap, later⟩ := List.forall_mem_cons.mp gaps
    exact .step (step_gap skips gap) (ih later)

theorem reads_newline (skips : reader.skips = true) (depth : Nat) : Reads reader (newline depth).toList reader := by
  refine reads_gaps skips fun c member => ?_
  have chars : (newline depth).toList = '\n' :: List.replicate (2 * depth) ' ' := by simp [newline]
  rw [chars] at member
  rcases List.mem_cons.mp member with rfl | space
  · rfl
  · rw [List.eq_of_mem_replicate space]
    rfl

section Text
variable {isKey : Bool} {units : List TextUnit} {stack : List Frame} {result : Option JsonValue}

theorem ofCode_toNat (c : Char) : TextUnit.ofCode c.toNat = .char c := by
  have valid : c.toNat < 0xd800 ∨ (0xdfff < c.toNat ∧ c.toNat < 0x110000) := c.valid
  have whole : ¬(0xd800 ≤ c.toNat ∧ c.toNat < 0xe000) := by omega
  rw [TextUnit.ofCode, Char.ofNat_toNat]
  simp [whole]

theorem step_hex {c : Char} {digits code value : Nat} (read : hexValue? c = some value) :
    step ⟨.hex isKey units digits code, stack, result⟩ c =
      .ok ⟨if digits = 3 then .text isKey (.ofCode (16 * code + value) :: units)
        else .hex isKey units (digits + 1) (16 * code + value), stack, result⟩ := by
  simp only [step, read]
  split <;> rfl

theorem reads_hex {code : Nat} (read : chars.map hexValue? =
      [some (code / 4096), some (code / 256 % 16), some (code / 16 % 16), some (code % 16)]) :
    Reads ⟨.hex isKey units 0 0, stack, result⟩ chars ⟨.text isKey (.ofCode code :: units), stack, result⟩ := by
  obtain ⟨first, _, rfl, read₀, read⟩ := List.map_eq_cons_iff.mp read
  obtain ⟨second, _, rfl, read₁, read⟩ := List.map_eq_cons_iff.mp read
  obtain ⟨third, _, rfl, read₂, read⟩ := List.map_eq_cons_iff.mp read
  obtain ⟨fourth, _, rfl, read₃, read⟩ := List.map_eq_cons_iff.mp read
  obtain rfl := List.map_eq_nil_iff.mp read
  have value : 16 * (16 * (16 * (16 * 0 + code / 4096) + code / 256 % 16) + code / 16 % 16) + code % 16 = code := by
    omega
  have reads := Reads.step (@step_hex isKey units stack result _ 0 0 _ read₀)
    (.step (step_hex read₁) (.step (step_hex read₂) (.single (step_hex read₃))))
  rw [value] at reads
  exact reads

/-- The numbers by which characters are written. -/
def codes : List Nat := List.range 0x20 ++ [0x26, 0x3c, 0x3e, 0x2028, 0x2029]

theorem hexPadded_read : ∀ code ∈ codes, (hexPadded 4 code).toList.map hexValue? =
    [some (code / 4096), some (code / 256 % 16), some (code / 16 % 16), some (code % 16)] := by
  decide

theorem mem_codes (numbered : (c.toNat < 0x20 || c = '<' || c = '>' || c = '&' || c.toNat = 0x2028 ||
    c.toNat = 0x2029) = true) : c.toNat ∈ codes := by
  simp only [Bool.or_eq_true, decide_eq_true_eq] at numbered
  rcases numbered with ((((control | rfl) | rfl) | rfl) | line) | paragraph
  · exact List.mem_append_left _ (List.mem_range.mpr control)
  · decide
  · decide
  · decide
  · rw [line]; decide
  · rw [paragraph]; decide

/-- A character is read back, however it was written. -/
theorem reads_escaped (c : Char) : Reads ⟨.text isKey units, stack, result⟩ (escaped c).toList
    ⟨.text isKey (.char c :: units), stack, result⟩ := by
  unfold escaped
  split
  -- Seven characters have an escape of their own.
  iterate 7 exact fun _ => rfl
  next quote slash _ _ _ _ _ =>
    extract_lets code
    split
    case isTrue numbered =>
      rw [String.toList_append, ← ofCode_toNat]
      exact .step rfl (.step rfl (reads_hex (hexPadded_read code (mem_codes numbered))))
    case isFalse plain =>
      have visible : ¬c.toNat < 0x20 := by
        intro control
        exact plain (by simp [code, control])
      rw [String.toList_singleton]
      refine .single ?_
      simp only [step, if_neg quote, if_neg slash, if_neg visible]

theorem reads_chars (chars : List Char) (units : List TextUnit) :
    Reads ⟨.text isKey units, stack, result⟩ (chars.flatMap fun c => (escaped c).toList)
      ⟨.text isKey ((chars.map .char).reverse ++ units), stack, result⟩ := by
  induction chars generalizing units with
  | nil => exact .refl _
  | cons c rest ih =>
    have later := (reads_escaped c).trans (ih (.char c :: units))
    simpa using later

theorem joinUnits_chars (chars : List Char) : joinUnits (chars.map .char) = chars := by
  induction chars with
  | nil => rfl
  | cons c rest ih => rw [List.map_cons, joinUnits, ih]

end Text

theorem quote_toList (text : String) :
    (quote text).toList = '"' :: ((text.toList.flatMap fun c => (escaped c).toList) ++ ['"']) := by
  simp [quote, String.toList_join, List.flatMap_map]

/-- The text that has been read when its quotation mark comes is the one that was written. -/
theorem reads_quoted (isKey : Bool) (stack : List Frame) (text : String) :
    Reads ⟨.text isKey [], stack, none⟩ ((text.toList.flatMap fun c => (escaped c).toList) ++ ['"'])
      (endText ⟨.text isKey [], stack, none⟩ isKey (text.toList.map .char).reverse) := by
  have inside := @reads_chars isKey stack none text.toList []
  rw [List.append_nil] at inside
  exact inside.trans (.single rfl)

theorem ofList_joinUnits (text : String) :
    String.ofList (joinUnits (text.toList.map TextUnit.char).reverse.reverse) = text := by
  rw [List.reverse_reverse, joinUnits_chars, String.ofList_toList]

theorem reads_text (mayClose : Bool) (stack : List Frame) (text : String) :
    Reads ⟨.value mayClose, stack, none⟩ (quote text).toList (finish stack (.text text)) := by
  have ended := reads_quoted false stack text
  simp only [endText, ofList_joinUnits] at ended
  rw [quote_toList]
  exact .step rfl ended

theorem reads_key (mayClose : Bool) (fields : List (String × JsonValue)) (old : String) (below : List Frame)
    (name : String) : Reads ⟨.key mayClose, .record fields old :: below, none⟩ (quote name).toList
      ⟨.afterKey, .record fields name :: below, none⟩ := by
  have ended := reads_quoted true (.record fields old :: below) name
  simp only [endText, ofList_joinUnits] at ended
  rw [quote_toList]
  refine .step ?_ ended
  cases mayClose <;> rfl

section Number
variable {stack : List Frame} {written : List Char}

theorem finish_mode (stack : List Frame) (value : JsonValue) : (finish stack value).mode = .after := by
  cases stack with
  | nil => rfl
  | cons frame below => cases frame <;> rfl

theorem next_none (whole : part = .zero ∨ part = .whole) (ends : c = ' ' ∨ isEnd c = true) :
    part.next c = .ok none := by
  simp only [isEnd, Bool.or_eq_true, decide_eq_true_eq] at ends
  rcases whole with rfl | rfl <;> rcases ends with rfl | rfl | rfl <;> rfl

/-- What ends a number is taken in as if the number had already been put where it belongs. -/
theorem step_number (ended : part.next c = .ok none) :
    step ⟨.number part written, stack, none⟩ c = (finish stack (.number (String.ofList written.reverse))).step c := by
  simp only [step, ended, finish_mode]
  rfl

theorem settles_number (whole : part = .zero ∨ part = .whole) :
    Settles ⟨.number part written, stack, none⟩ [] (finish stack (.number (String.ofList written.reverse))) := by
  rintro rest (rfl | ⟨c, later, rfl, ends⟩)
  · have unfinished : done? ⟨.number part written, stack, none⟩ = none := by cases stack <;> rfl
    have skips : (finish stack (.number (String.ofList written.reverse))).skips = true := by rw [skips, finish_mode]
    have gap : isGap ' ' = true := rfl
    simp only [List.append_nil, readAll, stop, unfinished, step_number (next_none whole (.inl rfl)), step_gap skips gap]
    cases (finish stack (.number (String.ofList written.reverse))).done? <;> rfl
  · rw [List.nil_append, readAll, readAll, step_number (next_none whole (.inr ends))]

theorem reads_digits (digits : ∀ c ∈ chars, c.isDigit = true) (written : List Char) :
    Reads ⟨.number .whole written, stack, none⟩ chars ⟨.number .whole (chars.reverse ++ written), stack, none⟩ := by
  induction chars generalizing written with
  | nil => exact .refl _
  | cons c rest ih =>
    obtain ⟨digit, later⟩ := List.forall_mem_cons.mp digits
    have taken : step ⟨.number .whole written, stack, none⟩ c = .ok ⟨.number .whole (c :: written), stack, none⟩ := by
      simp only [step, NumberPart.next, digit, if_true]
      rfl
    rw [List.reverse_cons, List.append_assoc]
    exact .step taken (ih later (c :: written))

end Number

/-- The digits a number other than zero may begin with. -/
def leading : List Char := ['1', '2', '3', '4', '5', '6', '7', '8', '9']

theorem toDigits_leading (n : Nat) (positive : 0 < n) : ∃ c rest, Nat.toDigits 10 n = c :: rest ∧ c ∈ leading := by
  induction n using Nat.strongRecOn with
  | ind n ih =>
    by_cases single : n < 10
    · rw [Nat.toDigits_of_lt_base single]
      have table : ∀ digit < 10, 0 < digit → Nat.digitChar digit ∈ leading := by decide
      exact ⟨_, [], rfl, table n single positive⟩
    · obtain ⟨c, rest, digits, first⟩ := ih (n / 10) (by omega) (by omega)
      rw [Nat.toDigits_of_base_le (by decide) (by omega), digits]
      exact ⟨c, _, rfl, first⟩

/-- A number is read once its first digit can be. -/
theorem settles_nat {stack : List Frame} (before : List Char) (n : Nat)
    (zero : reader.step '0' = .ok ⟨.number .zero ('0' :: before), stack, none⟩)
    (whole : ∀ c ∈ leading, reader.step c = .ok ⟨.number .whole (c :: before), stack, none⟩) :
    Settles reader (toString n).toList
      (finish stack (.number (String.ofList (before.reverse ++ (toString n).toList)))) := by
  rw [number_toList]
  by_cases positive : 0 < n
  · obtain ⟨c, rest, digits, first⟩ := toDigits_leading n positive
    have later : ∀ d ∈ rest, d.isDigit = true := by
      intro d member
      have inside : d ∈ Nat.toDigits 10 n := digits ▸ List.mem_cons_of_mem c member
      exact Nat.isDigit_of_mem_toDigits (by decide) (by decide) inside
    have read := (Reads.step (whole c first) (reads_digits later (c :: before))).trans_settles
      (settles_number (Or.inr rfl))
    simpa [digits] using read
  · obtain rfl : n = 0 := by omega
    have read := (Reads.single zero).trans_settles (settles_number (Or.inl rfl))
    simpa using read

theorem step_leading {mode : Mode} {before : List Char} (stack : List Frame)
    (begins : (∃ mayClose, mode = .value mayClose ∧ before = []) ∨ (mode = .number .minus before))
    (member : c ∈ leading) : step ⟨mode, stack, none⟩ c = .ok ⟨.number .whole (c :: before), stack, none⟩ := by
  simp only [leading, List.mem_cons, List.not_mem_nil, or_false] at member
  rcases begins with ⟨mayClose, rfl, rfl⟩ | rfl <;>
    rcases member with rfl | rfl | rfl | rfl | rfl | rfl | rfl | rfl | rfl <;> rfl

theorem settles_int (mayClose : Bool) (stack : List Frame) (n : Int) :
    Settles ⟨.value mayClose, stack, none⟩ (toString n).toList (finish stack (.int n)) := by
  cases n with
  | ofNat n =>
    have read := settles_nat [] n rfl fun c => step_leading stack (.inl ⟨mayClose, rfl, rfl⟩)
    rw [List.reverse_nil, List.nil_append, String.ofList_toList] at read
    exact read
  | negSucc n =>
    have written : toString (Int.negSucc n) = String.ofList (['-'] ++ (toString (n + 1)).toList) := by
      rw [String.ofList_append, String.ofList_toList]
      rfl
    have minus : Reads ⟨.value mayClose, stack, none⟩ ['-'] ⟨.number .minus ['-'], stack, none⟩ := .single rfl
    rw [int, written, String.toList_ofList]
    exact minus.trans_settles (settles_nat ['-'] (n + 1) rfl fun c => step_leading stack (.inr rfl))

end Reader

mutual

/-- A document that can be read back: its numbers are whole, and it is nested no deeper than there is room for. -/
def Readable (room : Nat) : JsonValue → Prop
  | .null | .bool _ | .text _ => True
  | .number written => ∃ n : Int, written = toString n
  | .list items => 0 < room ∧ itemsReadable (room - 1) items
  | .record fields => 0 < room ∧ fieldsReadable (room - 1) fields

def itemsReadable (room : Nat) : List JsonValue → Prop
  | [] => True
  | item :: rest => item.Readable room ∧ itemsReadable room rest

def fieldsReadable (room : Nat) : List (String × JsonValue) → Prop
  | [] => True
  | (_, value) :: rest => value.Readable room ∧ fieldsReadable room rest

end

namespace Reader

attribute [local simp] render renderItems renderFields

theorem step_list {stack : List Frame} (mayClose : Bool) (room : stack.length < maxDepth) :
    step ⟨.value mayClose, stack, none⟩ '[' = .ok ⟨.value true, .list [] :: stack, none⟩ :=
  if_neg (Nat.not_le.mpr room)

theorem step_record {stack : List Frame} (mayClose : Bool) (room : stack.length < maxDepth) :
    step ⟨.value mayClose, stack, none⟩ '\x7b' = .ok ⟨.key true, .record [] "" :: stack, none⟩ :=
  if_neg (Nat.not_le.mpr room)

theorem reads_word (mayClose : Bool) (stack : List Frame) {value : JsonValue} (depth : Nat)
    (word : value = .null ∨ value = .bool true ∨ value = .bool false) :
    Reads ⟨.value mayClose, stack, none⟩ (value.render depth).toList (finish stack value) := by
  rcases word with rfl | rfl | rfl <;> rw [render] <;> exact fun _ => rfl

theorem ends_of_newline (depth : Nat) (more : List Char) : BeginsWithEnd ((newline depth).toList ++ more) := by
  refine ⟨'\n', List.replicate (2 * depth) ' ' ++ more, ?_, rfl⟩
  simp [newline]

/-- What follows the first item of a list, up to its end. -/
def itemsTail (depth : Nat) (rest : List JsonValue) : List Char :=
  (renderItems (depth + 1) rest).toList ++ ((newline depth).toList ++ [']'])

/-- What follows the first field of a record, up to its end. -/
def fieldsTail (depth : Nat) (rest : List (String × JsonValue)) : List Char :=
  (renderFields (depth + 1) rest).toList ++ ((newline depth).toList ++ ['\x7d'])

theorem itemsTail_cons (depth : Nat) (item : JsonValue) (rest : List JsonValue) : itemsTail depth (item :: rest) =
    ',' :: ((newline (depth + 1)).toList ++ ((item.render (depth + 1)).toList ++ itemsTail depth rest)) := by
  simp [itemsTail, String.toList_append]

theorem fieldsTail_cons (depth : Nat) (name : String) (value : JsonValue) (rest : List (String × JsonValue)) :
    fieldsTail depth ((name, value) :: rest) = ',' :: ((newline (depth + 1)).toList ++ ((quote name).toList ++
      (':' :: ' ' :: ((value.render (depth + 1)).toList ++ fieldsTail depth rest)))) := by
  simp [fieldsTail, String.toList_append]

theorem render_list (depth : Nat) (item : JsonValue) (rest : List JsonValue) :
    (render depth (.list (item :: rest))).toList =
      '[' :: ((newline (depth + 1)).toList ++ ((item.render (depth + 1)).toList ++ itemsTail depth rest)) := by
  simp [itemsTail, String.toList_append]

theorem render_record (depth : Nat) (name : String) (value : JsonValue) (rest : List (String × JsonValue)) :
    (render depth (.record ((name, value) :: rest))).toList =
      '\x7b' :: ((newline (depth + 1)).toList ++ ((quote name).toList ++
        (':' :: ' ' :: ((value.render (depth + 1)).toList ++ fieldsTail depth rest)))) := by
  simp [fieldsTail, String.toList_append]

theorem ends_itemsTail (depth : Nat) (rest : List JsonValue) : BeginsWithEnd (itemsTail depth rest) := by
  cases rest with
  | nil => exact ends_of_newline depth _
  | cons item rest => exact ⟨',', _, itemsTail_cons depth item rest, rfl⟩

theorem ends_fieldsTail (depth : Nat) (rest : List (String × JsonValue)) : BeginsWithEnd (fieldsTail depth rest) := by
  cases rest with
  | nil => exact ends_of_newline depth _
  | cons field rest => exact ⟨',', _, fieldsTail_cons depth field.1 field.2 rest, rfl⟩

section Member
variable {mayClose : Bool} {below : List Frame} {depth : Nat} {chars tail : List Char} {after : Reader}

theorem reads_item {acc : List JsonValue} {item : JsonValue}
    (read : Settles ⟨.value mayClose, .list acc :: below, none⟩ chars ⟨.after, .list (item :: acc) :: below, none⟩)
    (ends : BeginsWithEnd tail)
    (later : Reads ⟨.after, .list (item :: acc) :: below, none⟩ tail after) :
    Reads ⟨.value mayClose, .list acc :: below, none⟩ ((newline depth).toList ++ (chars ++ tail)) after :=
  (reads_newline rfl depth).trans (read.trans_reads ends later)

theorem reads_member {acc : List (String × JsonValue)} {old name : String} {value : JsonValue}
    (read : Settles ⟨.value false, .record acc name :: below, none⟩ chars
      ⟨.after, .record ((name, value) :: acc) "" :: below, none⟩)
    (ends : BeginsWithEnd tail)
    (later : Reads ⟨.after, .record ((name, value) :: acc) "" :: below, none⟩ tail after) :
    Reads ⟨.key mayClose, .record acc old :: below, none⟩
      ((newline depth).toList ++ ((quote name).toList ++ (':' :: ' ' :: (chars ++ tail)))) after := by
  have colon : Reads ⟨.afterKey, .record acc name :: below, none⟩ (':' :: ' ' :: (chars ++ tail)) after :=
    .step rfl (.step rfl (read.trans_reads ends later))
  exact (reads_newline rfl depth).trans ((reads_key mayClose acc old below name).trans colon)

end Member

mutual

-- Every bracket takes one level of room and adds one frame, so both together stay within the limit.
/-- A value is read back, whatever it stands in. -/
theorem settles_render (mayClose : Bool) (stack : List Frame) (depth room : Nat)
    (fits : stack.length + room ≤ maxDepth) : (value : JsonValue) → value.Readable room →
      Settles ⟨.value mayClose, stack, none⟩ (value.render depth).toList (finish stack value)
  | .null, _ => (reads_word mayClose stack depth (.inl rfl)).settles
  | .bool true, _ => (reads_word mayClose stack depth (.inr (.inl rfl))).settles
  | .bool false, _ => (reads_word mayClose stack depth (.inr (.inr rfl))).settles
  | .number written, readable => by
    obtain ⟨n, rfl⟩ := readable
    rw [render]
    exact settles_int mayClose stack n
  | .text value, _ => by
    rw [render]
    exact (reads_text mayClose stack value).settles
  | .list [], readable => by
    obtain ⟨space, -⟩ := readable
    have opened := step_list mayClose (show stack.length < maxDepth by omega)
    rw [render]
    exact (Reads.step opened (.single rfl)).settles
  | .list (item :: rest), readable => by
    obtain ⟨space, first, later⟩ := readable
    have opened := step_list mayClose (show stack.length < maxDepth by omega)
    have read := settles_render true (.list [] :: stack) (depth + 1) (room - 1)
      (by rw [List.length_cons]; omega) item first
    have tail := reads_itemsTail [item] stack depth (room - 1) (by omega) rest later
    rw [render_list]
    exact (Reads.step opened (reads_item read (ends_itemsTail depth rest) tail)).settles
  | .record [], readable => by
    obtain ⟨space, -⟩ := readable
    have opened := step_record mayClose (show stack.length < maxDepth by omega)
    rw [render]
    exact (Reads.step opened (.single rfl)).settles
  | .record ((name, value) :: rest), readable => by
    obtain ⟨space, first, later⟩ := readable
    have opened := step_record mayClose (show stack.length < maxDepth by omega)
    have read := settles_render false (.record [] name :: stack) (depth + 1) (room - 1)
      (by rw [List.length_cons]; omega) value first
    have tail := reads_fieldsTail [(name, value)] stack depth (room - 1) (by omega) rest later
    rw [render_record]
    exact (Reads.step opened (reads_member read (ends_fieldsTail depth rest) tail)).settles

theorem reads_itemsTail (acc : List JsonValue) (below : List Frame) (depth room : Nat)
    (fits : below.length + 1 + room ≤ maxDepth) : (rest : List JsonValue) → itemsReadable room rest →
      Reads ⟨.after, .list acc :: below, none⟩ (itemsTail depth rest) (finish below (.list (acc.reverse ++ rest)))
  | [], _ => by
    rw [List.append_nil]
    exact (reads_newline rfl depth).trans (.single rfl)
  | item :: rest, readable => by
    obtain ⟨first, later⟩ := readable
    rw [itemsTail_cons]
    have read := settles_render false (.list acc :: below) (depth + 1) room (by rw [List.length_cons]; omega) item first
    have tail := reads_itemsTail (item :: acc) below depth room fits rest later
    rw [List.reverse_cons, List.append_assoc] at tail
    exact .step rfl (reads_item read (ends_itemsTail depth rest) tail)

theorem reads_fieldsTail (acc : List (String × JsonValue)) (below : List Frame) (depth room : Nat)
    (fits : below.length + 1 + room ≤ maxDepth) : (rest : List (String × JsonValue)) → fieldsReadable room rest →
      Reads ⟨.after, .record acc "" :: below, none⟩ (fieldsTail depth rest)
        (finish below (.record (acc.reverse ++ rest)))
  | [], _ => by
    rw [List.append_nil]
    exact (reads_newline rfl depth).trans (.single rfl)
  | (name, value) :: rest, readable => by
    obtain ⟨first, later⟩ := readable
    rw [fieldsTail_cons]
    have read := settles_render false (.record acc name :: below) (depth + 1) room
      (by rw [List.length_cons]; omega) value first
    have tail := reads_fieldsTail ((name, value) :: acc) below depth room fits rest later
    rw [List.reverse_cons, List.append_assoc] at tail
    exact .step rfl (reads_member read (ends_fieldsTail depth rest) tail)

end

end Reader

theorem parse_indented {value : JsonValue} (readable : value.Readable Reader.maxDepth) :
    parse value.indented = .ok value := by
  have read := Reader.settles_render false [] 0 Reader.maxDepth (by decide) value readable [] (.inl rfl)
  rw [List.append_nil] at read
  rw [parse, indented]
  exact read

end IntC.JsonValue
