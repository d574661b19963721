import IntC.Proofs.Il.Syntax
import IntC.Proofs.Name

namespace IntC.Il

/-- A character that words are made of. -/
def isPlain (c : Char) : Bool := !isBlank c && (mark? c).isNone && c ≠ '\n'

/-- A name that can stand behind the sign that tells what it names. -/
def isName (name : String) : Bool := name.toList.all isPlain

/-- The words that have a meaning of their own. -/
def keys : List String :=
  Op.all.map Op.name ++ ["copy", "neg", "loadw", "call", "w", "=w", "storew", "jmp", "jnz", "ret", "export", "data", "=",
    "align", "z", "function"]

theorem keys_read {word : String} (known : word ∈ keys) :
    word.toList ≠ [] ∧ isName word = true ∧ Atom.ofWord word.toList = .key word := by
  have all : ∀ word ∈ keys, word.toList ≠ [] ∧ isName word = true ∧ Atom.ofWord word.toList = .key word := by
    decide
  exact all word known

namespace Atom

def text : Atom → List Char
  | .temp name => '%' :: name.toList
  | .symbol name => '$' :: name.toList
  | .block name => '@' :: name.toList
  | .number value => (toString value).toList
  | .key word => word.toList
  | .comma => [',']
  | .paren => ['(']
  | .unparen => [')']
  | .brace => ['\x7b']
  | .unbrace => ['\x7d']

def isMark : Atom → Bool
  | .comma | .paren | .unparen | .brace | .unbrace => true
  | _ => false

/-- An atom that is read as it is written. -/
def Fine : Atom → Prop
  | .temp name | .symbol name | .block name => isName name = true
  | .key word => word ∈ keys
  | _ => True

end Atom

theorem fine_key {word : String} : (Atom.key word).Fine ↔ word ∈ keys := Iff.rfl

@[simp] theorem fine_comma : Atom.comma.Fine := trivial

@[simp] theorem fine_paren : Atom.paren.Fine := trivial

@[simp] theorem fine_unparen : Atom.unparen.Fine := trivial

@[simp] theorem fine_brace : Atom.brace.Fine := trivial

@[simp] theorem fine_unbrace : Atom.unbrace.Fine := trivial

@[simp] theorem fine_number (value : Int) : (Atom.number value).Fine := trivial

/-- The characters that words are not made of. -/
def special : List Char := [' ', '\t', ',', '(', ')', '\x7b', '\x7d', '\n']

theorem isPlain_iff {c : Char} : isPlain c = true ↔ c ∉ special := by
  constructor
  · intro plain member
    have none : special.all (fun c => !isPlain c) = true := by decide
    have other := List.all_eq_true.mp none c member
    rw [plain] at other
    cases other
  · intro other
    simp only [special, List.mem_cons, List.not_mem_nil, or_false, not_or] at other
    obtain ⟨space, tab, comma, paren, unparen, brace, unbrace, newline⟩ := other
    simp [isPlain, isBlank, mark?, space, tab, comma, paren, unparen, brace, unbrace, newline]

theorem isPlain_of_isDigit {c : Char} (digit : c.isDigit = true) : isPlain c = true := by
  refine isPlain_iff.mpr fun member => ?_
  have none : special.all (fun c => !c.isDigit) = true := by decide
  have other := List.all_eq_true.mp none c member
  rw [digit] at other
  cases other

theorem isDigit_of_mem_number {number : Nat} {c : Char} (member : c ∈ (toString number).toList) : c.isDigit = true := by
  rw [number_toList] at member
  exact Nat.isDigit_of_mem_toDigits (by decide) (by decide) member

theorem number_ne_nil (number : Nat) : (toString number).toList ≠ [] := by
  rw [number_toList]
  exact Nat.toDigits_ne_nil

theorem magnitude?_number (number : Nat) : magnitude? (toString number).toList = some (number : Int) := by
  have digits : (toString number).toList.all Char.isDigit = true :=
    List.all_eq_true.mpr fun c member => isDigit_of_mem_number member
  rw [magnitude?, if_pos ⟨number_ne_nil number, digits⟩, number_toList,
    Nat.ofDigitChars_toDigits (by decide) (by decide)]

/-- What begins neither with a sign nor with a minus is a number or a word. -/
theorem Atom.ofWord_of_digit {c : Char} (rest : List Char) (digit : c.isDigit = true) :
    Atom.ofWord (c :: rest) = ((magnitude? (c :: rest)).map Atom.number).getD (.key (String.ofList (c :: rest))) := by
  unfold Atom.ofWord
  split
  · rename_i same
    cases same
    cases digit
  · rename_i same
    cases same
    cases digit
  · rename_i same
    cases same
    cases digit
  · unfold number?
    split
    · rename_i same
      cases same
      cases digit
    · rfl

theorem Atom.ofWord_number (value : Int) : Atom.ofWord (toString value).toList = .number value := by
  rw [Int.toString_eq_repr, Int.repr_eq_if]
  split
  · rename_i positive
    obtain ⟨c, rest, digits⟩ := List.exists_cons_of_ne_nil (number_ne_nil value.toNat)
    have digit : c.isDigit = true := isDigit_of_mem_number (digits ▸ List.mem_cons_self)
    change Atom.ofWord (toString value.toNat).toList = _
    rw [digits, Atom.ofWord_of_digit rest digit, ← digits, magnitude?_number, Int.toNat_of_nonneg positive]
    rfl
  · rename_i negative
    rw [String.toList_append]
    change ((magnitude? (toString (-value).toNat).toList).map (- ·) |>.map Atom.number).getD _ = _
    rw [magnitude?_number, Int.toNat_of_nonneg (by omega)]
    simp

theorem isName_number (number : Nat) : isName (toString number) = true :=
  List.all_eq_true.mpr fun _ member => isPlain_of_isDigit (isDigit_of_mem_number member)

@[simp] theorem isName_append (first second : String) : isName (first ++ second) = (isName first && isName second) := by
  simp [isName]

theorem isName_integer (value : Int) : isName (toString value) = true := by
  rw [Int.toString_eq_repr, Int.repr_eq_if]
  split
  · exact isName_number _
  · rw [isName_append, Bool.and_eq_true]
    exact ⟨by decide, isName_number _⟩

namespace Atom

theorem Fine.plain {atom : Atom} (fine : atom.Fine) (word : atom.isMark = false) :
    atom.text ≠ [] ∧ atom.text.all isPlain = true := by
  cases atom with
  | temp name | symbol name | block name =>
    refine ⟨List.cons_ne_nil _ _, ?_⟩
    rw [text, List.all_cons, Bool.and_eq_true]
    exact ⟨by decide, fine⟩
  | number value =>
    refine ⟨fun empty => ?_, isName_integer value⟩
    have read := Atom.ofWord_number value
    rw [show (toString value).toList = [] from empty] at read
    cases read
  | key word =>
    obtain ⟨some, plain, -⟩ := keys_read fine
    exact ⟨some, plain⟩
  | _ => cases word

theorem Fine.ofWord {atom : Atom} (fine : atom.Fine) (word : atom.isMark = false) : Atom.ofWord atom.text = atom := by
  cases atom with
  | temp name => exact congrArg Atom.temp String.ofList_toList
  | symbol name => exact congrArg Atom.symbol String.ofList_toList
  | block name => exact congrArg Atom.block String.ofList_toList
  | number value => exact Atom.ofWord_number value
  | key word => exact (keys_read fine).2.2
  | _ => cases word

end Atom

/-- A blank, a tab or an atom, as a line is made of them. -/
inductive Piece where
  | blank | tab
  | atom (inner : Atom)

namespace Piece

def text : Piece → List Char
  | .blank => [' ']
  | .tab => ['\t']
  | .atom inner => inner.text

def atom? : Piece → Option Atom
  | .atom inner => some inner
  | _ => none

def isWord : Piece → Bool
  | .atom inner => !inner.isMark
  | _ => false

end Piece

section Atoms
variable (rest : List Piece)

@[simp] theorem filterMap_blank : (Piece.blank :: rest).filterMap Piece.atom? = rest.filterMap Piece.atom? := rfl

@[simp] theorem filterMap_tab : (Piece.tab :: rest).filterMap Piece.atom? = rest.filterMap Piece.atom? := rfl

@[simp] theorem filterMap_atom (atom : Atom) :
    (Piece.atom atom :: rest).filterMap Piece.atom? = atom :: rest.filterMap Piece.atom? := rfl

end Atoms

theorem atoms_plain {word plain : List Char} (all : plain.all isPlain = true) (rest : List Char) :
    atoms word (plain ++ rest) = atoms (word ++ plain) rest := by
  induction plain generalizing word with
  | nil => simp
  | cons c plain ih =>
    rw [List.all_cons, Bool.and_eq_true] at all
    obtain ⟨here, later⟩ := all
    simp only [isPlain, Bool.and_eq_true, Bool.not_eq_true', Option.isNone_iff_eq_none] at here
    rw [List.cons_append, atoms, if_neg (by simp [here.1.1]), here.1.2]
    simp [ih later]

theorem atoms_stop {word rest : List Char} (begun : word ≠ [])
    (stops : ∀ c ∈ rest.head?, isBlank c = true ∨ (mark? c).isSome = true) :
    atoms word rest = Atom.ofWord word :: atoms [] rest := by
  cases rest with
  | nil => simp [atoms, endWord, begun]
  | cons c rest =>
    unfold atoms
    split
    · simp [endWord, begun]
    · rename_i solid
      obtain ⟨mark, found⟩ := Option.isSome_iff_exists.mp ((stops c rfl).resolve_left solid)
      simp [found, endWord, begun]

theorem Piece.stops {piece : Piece} (plain : piece.isWord = false) (rest : List Char) :
    ∀ c ∈ (piece.text ++ rest).head?, isBlank c = true ∨ (mark? c).isSome = true := by
  cases piece with
  | blank | tab =>
    rintro _ ⟨⟩
    exact .inl (by decide)
  | atom atom =>
    cases atom with
    | comma | paren | unparen | brace | unbrace =>
      rintro _ ⟨⟩
      exact .inr (by decide)
    | _ => cases plain

def isApart : List Piece → Bool
  | .atom first :: .atom second :: rest => (first.isMark || second.isMark) && isApart (.atom second :: rest)
  | _ :: rest => isApart rest
  | [] => true

attribute [local simp] isApart

theorem isApart_paren (rest : List Piece) : isApart (.atom .paren :: rest) = isApart rest := by
  rcases rest with _ | ⟨_ | _ | _, rest⟩ <;> simp [Atom.isMark]

/-- Where no two words touch, the atoms are found one after the other. -/
theorem atoms_pieces {pieces : List Piece} (apart : isApart pieces = true) (fine : ∀ atom, .atom atom ∈ pieces → atom.Fine) :
    atoms [] (pieces.flatMap Piece.text) = pieces.filterMap Piece.atom? := by
  induction pieces with
  | nil => rfl
  | cons piece rest ih =>
    have later : atoms [] (rest.flatMap Piece.text) = rest.filterMap Piece.atom? := by
      refine ih ?_ fun atom member => fine atom (List.mem_cons_of_mem _ member)
      unfold isApart at apart
      split at apart
      · rename_i same
        cases same
        exact (Bool.and_eq_true_iff.mp apart).2
      · rename_i same
        cases same
        exact apart
      · rename_i same
        cases same
    rw [List.flatMap_cons]
    cases piece with
    | blank | tab => exact later
    | atom atom =>
      rw [filterMap_atom, ← later]
      cases mark : atom.isMark with
      | true =>
        cases atom with
        | comma | paren | unparen | brace | unbrace => rfl
        | _ => cases mark
      | false =>
        have here := fine atom List.mem_cons_self
        obtain ⟨some, plain⟩ := here.plain mark
        have stops : ∀ c ∈ (rest.flatMap Piece.text).head?, isBlank c = true ∨ (mark? c).isSome = true := by
          cases rest with
          | nil => nofun
          | cons next others =>
            have word : next.isWord = false := by
              cases next with
              | atom other => simpa [mark, Piece.isWord] using (Bool.and_eq_true_iff.mp apart).1
              | _ => rfl
            rw [List.flatMap_cons]
            exact next.stops word _
        rw [Piece.text, atoms_plain plain, List.nil_append, atoms_stop some stops, here.ofWord mark]

def Operand.atom : Operand → Atom
  | .temp name => .temp name
  | .const value => .number value

abbrev Piece.key (word : String) : Piece := .atom (.key word)

def itemPieces : List Atom → List Piece
  | [] => []
  | [last] => [.key "w", .blank, .atom last]
  | first :: rest => [.key "w", .blank, .atom first, .atom .comma, .blank] ++ itemPieces rest

def Result.pieces : Result → List Piece
  | .copy source => [.key "copy", .blank, .atom source.atom]
  | .neg source => [.key "neg", .blank, .atom source.atom]
  | .binary op left right =>
    [.key op.name, .blank, .atom left.atom, .atom .comma, .blank, .atom right.atom]
  | .load symbol => [.key "loadw", .blank, .atom (.symbol symbol)]
  | .call callee args =>
    [.key "call", .blank, .atom (.symbol callee), .atom .paren] ++ (itemPieces (args.map Operand.atom) ++ [.atom .unparen])

def Instr.pieces : Instr → List Piece
  | .block name => [.atom (.block name)]
  | .assign dest result => [.tab, .atom (.temp dest), .blank, .key "=w", .blank] ++ result.pieces
  | .store source symbol =>
    [.tab, .key "storew", .blank, .atom source.atom, .atom .comma, .blank, .atom (.symbol symbol)]
  | .jump target => [.tab, .key "jmp", .blank, .atom (.block target)]
  | .branch cond yes no =>
    [.tab, .key "jnz", .blank, .atom cond.atom, .atom .comma, .blank, .atom (.block yes), .atom .comma, .blank,
      .atom (.block no)]
  | .ret value => [.tab, .key "ret", .blank, .atom value.atom]

def exportPieces (global : Bool) : List Piece := if global then [.key "export", .blank] else []

def Line.pieces : Line → List Piece
  | .blank => []
  | .data var => exportPieces var.global ++ [.key "data", .blank, .atom (.symbol var.name), .blank, .key "=", .blank,
      .key "align", .blank, .atom (.number var.align), .blank, .atom .brace, .blank,
      .key (if var.zero then "z" else "w"), .blank, .atom (.number var.value), .blank, .atom .unbrace]
  | .head global name params => exportPieces global ++ [.key "function", .blank, .key "w", .blank,
      .atom (.symbol name), .atom .paren] ++ (itemPieces (params.map Atom.temp) ++ [.atom .unparen, .blank, .atom .brace])
  | .code instr => instr.pieces
  | .close => [.atom .unbrace]

def Line.text (line : Line) : List Char := line.pieces.flatMap Piece.text

attribute [local simp] itemPieces Instr.pieces Line.pieces

theorem Op.ofName?_name (op : Op) : Op.ofName? op.name = some op := by
  cases op <;> rfl

theorem Op.name_mem_keys (op : Op) : op.name ∈ keys := by
  refine List.mem_append_left _ (List.mem_map_of_mem ?_)
  cases op <;> decide

@[simp] theorem Operand.operand?_atom (operand : Operand) : operand.atom.operand? = some operand := by
  cases operand <;> rfl

section Items
variable {α : Type} {item : Atom → Option α} {write : α → Atom}

theorem readItems_itemPieces (inverse : ∀ a, item (write a) = some a) (first : α) (others : List α) (rest : List Atom) :
    readItems item ((itemPieces ((first :: others).map write)).filterMap Piece.atom? ++ .unparen :: rest) =
      some (first :: others, rest) := by
  induction others generalizing first with
  | nil => simp [readItems, inverse]
  | cons second others ih =>
    have more := ih second
    simp only [List.map_cons] at more ⊢
    simp [readItems, inverse, more]

theorem readList_itemPieces (inverse : ∀ a, item (write a) = some a) (values : List α) (rest : List Atom) :
    readList item ((itemPieces (values.map write)).filterMap Piece.atom? ++ .unparen :: rest) = some (values, rest) := by
  cases values with
  | nil => rfl
  | cons first others =>
    have read := readItems_itemPieces inverse first others rest
    cases others with
    | nil | cons second others => exact read

end Items

theorem isApart_itemPieces (atoms : List Atom) (rest : List Piece) :
    isApart (itemPieces atoms ++ .atom .unparen :: rest) = isApart (.atom .unparen :: rest) := by
  induction atoms with
  | nil => rfl
  | cons first others ih =>
    cases others with
    | nil => simp [Atom.isMark]
    | cons second others => simpa [Atom.isMark] using ih

theorem Result.ofAtoms_pieces (result : Result) : Result.ofAtoms (result.pieces.filterMap Piece.atom?) = some result := by
  cases result with
  | copy source | neg source | load symbol => simp [Result.pieces, Result.ofAtoms, Atom.symbol?]
  | binary op left right => simp [Result.pieces, Result.ofAtoms, Op.ofName?_name]
  | call callee args =>
    have read := readList_itemPieces Operand.operand?_atom args []
    simp [Result.pieces, Result.ofAtoms, read]

theorem Line.ofAtoms_pieces (line : Line) : Line.ofAtoms (line.pieces.filterMap Piece.atom?) = some line := by
  cases line with
  | blank | close => rfl
  | code instr =>
    cases instr with
    | assign dest result =>
      have read := result.ofAtoms_pieces
      simp [Line.ofAtoms, read]
    | block | jump | ret | store | branch => simp [Line.ofAtoms, Line.ofKey]
  | data var =>
    obtain ⟨global, name, align, zero, value⟩ := var
    cases global <;> cases zero <;>
      simp [exportPieces, Line.ofAtoms, Line.ofKey, Line.definition]
  | head global name params =>
    have inverse : ∀ name, Atom.temp? (.temp name) = some name := fun _ => rfl
    have read := readList_itemPieces inverse params [.brace]
    cases global <;> simp [exportPieces, Line.ofAtoms, Line.ofKey, Line.definition, read]

theorem Line.isApart_pieces (line : Line) : isApart line.pieces = true := by
  cases line with
  | blank | close => rfl
  | code instr =>
    cases instr with
    | assign dest result =>
      cases result with
      | call callee args =>
        simp [Result.pieces, Atom.isMark, isApart_paren, isApart_itemPieces]
      | _ => simp [Result.pieces, Atom.isMark]
    | _ => simp [Atom.isMark]
  | data var => cases global : var.global <;> simp [exportPieces, global]
  | head global name params =>
    cases global <;>
      simp [exportPieces, Atom.isMark, isApart_paren, isApart_itemPieces]

def Operand.names : Operand → List String
  | .temp name => [name]
  | .const _ => []

def Result.names : Result → List String
  | .copy source | .neg source => source.names
  | .binary _ left right => left.names ++ right.names
  | .load symbol => [symbol]
  | .call callee args => callee :: args.flatMap Operand.names

def Instr.names : Instr → List String
  | .block name => [name]
  | .assign dest result => dest :: result.names
  | .store source symbol => symbol :: source.names
  | .jump target => [target]
  | .branch cond yes no => yes :: no :: cond.names
  | .ret value => value.names

def Line.names : Line → List String
  | .blank | .close => []
  | .data var => [var.name]
  | .head _ name params => name :: params
  | .code instr => instr.names

theorem Operand.fine_atom {operand : Operand} (names : ∀ name ∈ operand.names, isName name = true) :
    operand.atom.Fine := by
  cases operand with
  | temp name => exact names name (List.mem_singleton_self _)
  | const value => trivial

/-- All atoms among some pieces are read as they are written. -/
def AllFine (pieces : List Piece) : Prop := ∀ atom, .atom atom ∈ pieces → atom.Fine

section AllFine
variable {pieces rest : List Piece}

@[simp] theorem allFine_nil : AllFine [] := nofun

@[simp] theorem allFine_blank : AllFine (.blank :: rest) ↔ AllFine rest := by simp [AllFine]

@[simp] theorem allFine_tab : AllFine (.tab :: rest) ↔ AllFine rest := by simp [AllFine]

@[simp] theorem allFine_atom {atom : Atom} : AllFine (.atom atom :: rest) ↔ atom.Fine ∧ AllFine rest := by
  simp only [AllFine, List.mem_cons, Piece.atom.injEq]
  constructor
  · exact fun fine => ⟨fine atom (.inl rfl), fun other member => fine other (.inr member)⟩
  · rintro ⟨here, later⟩ other (rfl | member)
    · exact here
    · exact later other member

@[simp] theorem allFine_append : AllFine (pieces ++ rest) ↔ AllFine pieces ∧ AllFine rest := by
  simp only [AllFine, List.mem_append]
  exact ⟨fun fine => ⟨fun atom member => fine atom (.inl member), fun atom member => fine atom (.inr member)⟩,
    fun both atom member => member.elim (both.1 atom) (both.2 atom)⟩

theorem allFine_itemPieces {atoms : List Atom} (fine : ∀ atom ∈ atoms, atom.Fine) : AllFine (itemPieces atoms) := by
  have word : (Atom.key "w").Fine := fine_key.mpr (by decide)
  induction atoms with
  | nil => exact allFine_nil
  | cons first others ih =>
    obtain ⟨here, later⟩ := List.forall_mem_cons.mp fine
    have more := ih later
    cases others with
    | nil => simp [here, word]
    | cons second others => simp [here, word, more]

end AllFine

theorem Result.allFine {result : Result} (names : ∀ name ∈ result.names, isName name = true) : AllFine result.pieces := by
  cases result with
  | copy source | neg source =>
    have first := Operand.fine_atom names
    simp [Result.pieces, fine_key, keys, first]
  | binary op left right =>
    obtain ⟨first, second⟩ := List.forall_mem_append.mp names
    have known := op.name_mem_keys
    simp [Result.pieces, fine_key, known, Operand.fine_atom first, Operand.fine_atom second]
  | load symbol =>
    have first : (Atom.symbol symbol).Fine := names symbol (List.mem_singleton_self _)
    simp [Result.pieces, fine_key, keys, first]
  | call callee args =>
    obtain ⟨here, later⟩ := List.forall_mem_cons.mp names
    have first : (Atom.symbol callee).Fine := here
    have list : AllFine (itemPieces (args.map Operand.atom)) := by
      refine allFine_itemPieces (List.forall_mem_map.mpr fun arg member => Operand.fine_atom fun name among => ?_)
      exact later name (List.mem_flatMap.mpr ⟨arg, member, among⟩)
    simp [Result.pieces, fine_key, keys, first, list]

theorem Instr.allFine {instr : Instr} (names : ∀ name ∈ instr.names, isName name = true) : AllFine instr.pieces := by
  cases instr with
  | block name | jump name =>
    have first : (Atom.block name).Fine := names name (List.mem_singleton_self _)
    simp [fine_key, keys, first]
  | assign dest result =>
    obtain ⟨here, later⟩ := List.forall_mem_cons.mp names
    have first : (Atom.temp dest).Fine := here
    have second := Result.allFine later
    simp [fine_key, keys, first, second]
  | store source symbol =>
    obtain ⟨here, later⟩ := List.forall_mem_cons.mp names
    have first : (Atom.symbol symbol).Fine := here
    simp [fine_key, keys, first, Operand.fine_atom later]
  | branch cond yes no =>
    obtain ⟨here, others⟩ := List.forall_mem_cons.mp names
    obtain ⟨there, later⟩ := List.forall_mem_cons.mp others
    have first : (Atom.block yes).Fine := here
    have second : (Atom.block no).Fine := there
    simp [fine_key, keys, first, second, Operand.fine_atom later]
  | ret value =>
    have first := Operand.fine_atom names
    simp [fine_key, keys, first]

theorem Line.allFine {line : Line} (names : ∀ name ∈ line.names, isName name = true) : AllFine line.pieces := by
  have exported : ∀ global, AllFine (exportPieces global) := by
    rintro (_ | _) <;> simp [exportPieces, fine_key, keys]
  cases line with
  | blank => exact allFine_nil
  | close => simp
  | code instr => exact Instr.allFine names
  | data var =>
    have first : (Atom.symbol var.name).Fine := names _ (List.mem_singleton_self _)
    cases zero : var.zero <;> simp [exported, fine_key, keys, first, zero]
  | head global name params =>
    obtain ⟨here, later⟩ := List.forall_mem_cons.mp names
    have first : (Atom.symbol name).Fine := here
    have list : AllFine (itemPieces (params.map Atom.temp)) := allFine_itemPieces (List.forall_mem_map.mpr later)
    simp [exported, fine_key, keys, first, list]

theorem Line.read?_text {line : Line} (names : ∀ name ∈ line.names, isName name = true) :
    Line.read? line.text = some line := by
  rw [Line.read?, Line.text, atoms_pieces line.isApart_pieces (Line.allFine names), line.ofAtoms_pieces]

theorem newline_not_mem {pieces : List Piece} (fine : AllFine pieces) : '\n' ∉ pieces.flatMap Piece.text := by
  intro member
  obtain ⟨piece, among, inside⟩ := List.mem_flatMap.mp member
  cases piece with
  | blank | tab => simp [Piece.text] at inside
  | atom atom =>
    have here := fine atom among
    cases mark : atom.isMark with
    | true =>
      cases atom with
      | comma | paren | unparen | brace | unbrace => simp [Piece.text, Atom.text] at inside
      | _ => cases mark
    | false =>
      have plain := List.all_eq_true.mp (here.plain mark).2 _ inside
      simp [isPlain] at plain

def written (lines : List Line) : String := String.ofList (lines.flatMap fun line => line.text ++ ['\n'])

@[simp] theorem written_nil : written [] = "" := rfl

theorem written_cons (line : Line) (rest : List Line) :
    written (line :: rest) = String.ofList (line.text ++ ['\n']) ++ written rest := by
  apply String.toList_inj.mp
  simp [written, String.toList_append]

@[simp] theorem written_append (first second : List Line) : written (first ++ second) = written first ++ written second := by
  apply String.toList_inj.mp
  simp [written, String.toList_append]

theorem mapM_read? {lines : List Line} (names : ∀ line ∈ lines, ∀ name ∈ line.names, isName name = true) :
    ((written lines).toList.splitOn '\n').mapM Line.read? = some (lines ++ [.blank]) := by
  induction lines with
  | nil => rfl
  | cons line rest ih =>
    obtain ⟨here, later⟩ := List.forall_mem_cons.mp names
    have free : ∀ c ∈ line.text, (c == '\n') = false := fun c inside => by
      rw [beq_eq_false_iff_ne]
      rintro rfl
      exact newline_not_mem (Line.allFine here) inside
    have parts : (written (line :: rest)).toList.splitOn '\n' = line.text :: (written rest).toList.splitOn '\n' := by
      rw [written_cons, String.toList_append, String.toList_ofList, List.append_assoc, List.singleton_append]
      exact List.splitOnP_append_cons_of_forall_mem free '\n' (by decide) _
    rw [parts, List.mapM_cons, Line.read?_text here, ih later]
    rfl

/-- The lines of a function, with a blank one before it. -/
def Func.lines (func : Func) : List Line :=
  [.blank, .head func.global func.name func.params] ++ (func.body.map Line.code ++ [.close])

def Program.lines (program : Program) : List Line :=
  program.data.map Line.data ++ program.funcs.flatMap Func.lines

theorem Program.ofLines_body {func : Func} {code : List Instr} (rest : List Line) :
    Program.ofLines (some func) (code.map Line.code ++ rest) =
      Program.ofLines (some { func with body := func.body ++ code }) rest := by
  induction code generalizing func with
  | nil => simp
  | cons instr code ih =>
    rw [List.map_cons, List.cons_append, Program.ofLines, ih, List.append_assoc, List.singleton_append]

/-- A text is read as the program that it is written for. -/
theorem Program.read?_written {program : Program} (lawful : ∀ func ∈ program.funcs, func.isLawful = true)
    (names : ∀ line ∈ program.lines, ∀ name ∈ line.names, isName name = true) :
    Program.read? (written program.lines) = some program := by
  rw [Program.read?, mapM_read? names, Option.bind_eq_bind, Option.bind_some]
  obtain ⟨data, funcs⟩ := program
  have functions : ∀ funcs : List Func, (∀ func ∈ funcs, func.isLawful = true) →
      Program.ofLines none (funcs.flatMap Func.lines ++ [.blank]) = some ⟨[], funcs⟩ := by
    intro funcs lawful
    induction funcs with
    | nil => rfl
    | cons func rest ih =>
      obtain ⟨here, later⟩ := List.forall_mem_cons.mp lawful
      have more := ih later
      rw [List.flatMap_cons, Func.lines]
      simp only [List.cons_append, List.nil_append, List.append_assoc, Program.ofLines, Program.ofLines_body]
      rw [if_pos here, more]
      rfl
  unfold Program.lines
  dsimp only
  clear names
  induction data with
  | nil => exact functions funcs lawful
  | cons var rest ih =>
    rw [List.map_cons, List.cons_append, List.cons_append, Program.ofLines, ih lawful]
    rfl

end IntC.Il
