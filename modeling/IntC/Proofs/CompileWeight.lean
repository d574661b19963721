import IntC.Proofs.CompilePasses
import IntC.Proofs.Machine.Encoding
import IntC.Proofs.Tac.LoweringWeight
import IntC.Proofs.Tree.ParserWeight

namespace IntC

variable {w : Weights} {func : Tac.Func} {value : Int} {name : String}

section Passes
variable {source : String} {file : Int} {tokens : List Token} {tree resolved program : Program}
  {symbols : SymbolTable} {names : NameSupply} {code : Tac.Program}

theorem Passes.lexes (passes : Passes source file tokens tree resolved program symbols names code) :
    Lexed source.toList tokens := by
  have meets := tokenize_lexed source file
  rw [passes.lexed] at meets
  exact meets

/-- The tree that is lowered weighs no more than the tokens of the source. -/
theorem Passes.tree_weight (passes : Passes source file tokens tree resolved program symbols names code)
    (fair : w.Fair) : itemsWeight w program.items ≤ tokensWeight w tokens := by
  have read := parse_weight w passes.parsed
  obtain ⟨before, after, renamed, labelled⟩ := passes.renamed
  have first := Program.resolve_weight fair (written_of_parse passes.lexed passes.parsed) renamed
  have second := (Program.label_weight fair resolved after.names).of_ok labelled
  exact Nat.le_trans second (Nat.le_trans first read)

theorem Passes.func_weight (passes : Passes source file tokens tree resolved program symbols names code)
    (covering : w.Covering) (member : func ∈ code.funcs) : func.weight w ≤ 10 * tokensWeight w tokens := by
  have light := passes.tree_weight covering.toFair
  have each := passes.forall₂ fun made among func first last le lowered =>
    lowered.weight covering (mem_definitions.mp among).2
  obtain ⟨made, among, below⟩ := exists_of_mem_right each member
  have inside : made.1.weight w ≤ _ := FuncDecl.weight_le (mem_definitions.mp among).1
  omega

theorem tokensWeight_eq_zero (free : ∀ token ∈ tokens, token.weight w = 0) : tokensWeight w tokens = 0 := by
  refine List.sum_eq_zero fun weight member => ?_
  obtain ⟨token, inside, rfl⟩ := List.mem_map.mp member
  exact free token inside

theorem readConstant_fits {text : String} (read : readConstant text = .ok value) :
    Machine.fitsImmediate value = true := by
  have bounds := readConstant_bounds read
  simp only [Machine.fitsImmediate, Bool.and_eq_true, decide_eq_true_eq]
  omega

/-- Only constants outside of a set weigh anything. -/
def Weights.outside (set : Int → Prop) [DecidablePred set] : Weights where
  value value := if set value then 0 else 1
  name _ := 0
  loop _ := 0
  mark := 0

section Outside
variable {set : Int → Prop} [DecidablePred set]

theorem Weights.fair_outside : (Weights.outside set).Fair where
  numbered _ _ := le_rfl
  loops _ _ _ _ := le_rfl

theorem Weights.covering_outside (zero : set 0) (one : set 1) : (Weights.outside set).Covering where
  toFair := Weights.fair_outside
  coined _ _ := le_rfl
  zero := Nat.le_of_eq (if_pos zero)
  one := Nat.le_of_eq (if_pos one)
  breakTarget _ := le_rfl
  continueTarget _ := le_rfl

theorem Weights.of_outside (light : (Weights.outside set).value value ≤ 0) : set value := by
  by_contra outside
  have heavy : (Weights.outside set).value value = 1 := if_neg outside
  omega

theorem tokensWeight_outside (each : ∀ token ∈ tokens, token.kind = .number →
    ∀ value, readConstant token.value = .ok value → set value) : tokensWeight (.outside set) tokens = 0 := by
  refine tokensWeight_eq_zero fun token member => ?_
  unfold Token.weight
  split
  · split
    · exact if_pos (each token member ‹_› _ ‹_›)
    · rfl
  all_goals rfl

/-- What holds of the constants of the source, of zero and of one holds of every constant of the code. -/
theorem Passes.const_among (passes : Passes source file tokens tree resolved program symbols names code)
    (set : Int → Prop) [DecidablePred set] (zero : set 0) (one : set 1)
    (each : ∀ token ∈ tokens, token.kind = .number → ∀ value, readConstant token.value = .ok value → set value)
    (member : func ∈ code.funcs) {instr : Tac.Instr} (inside : instr ∈ func.body) (among : .const value ∈ instr.values) :
    set value := by
  have light := passes.func_weight (Weights.covering_outside zero one) member
  rw [tokensWeight_outside each] at light
  have first := @Tac.Instr.weight_le_codeWeight (.outside set) _ _ inside
  have second := @Tac.Value.weight_le (.outside set) _ _ among
  unfold Tac.Func.weight at light
  exact Weights.of_outside (by rw [Tac.Value.weight] at second; omega)

end Outside

theorem Passes.const_fits (passes : Passes source file tokens tree resolved program symbols names code)
    (member : func ∈ code.funcs) {instr : Tac.Instr} (inside : instr ∈ func.body) (among : .const value ∈ instr.values) :
    Machine.fitsImmediate value = true :=
  passes.const_among (Machine.fitsImmediate · = true) (by decide) (by decide) (fun _ _ _ _ => readConstant_fits) member inside among

/-- Everything weighs alike. -/
def Weights.ones : Weights where
  value _ := 1
  name _ := 1
  loop _ := 1
  mark := 1

theorem Weights.covering_ones : Weights.ones.Covering where
  numbered _ _ := le_rfl
  loops _ _ _ _ := le_rfl
  coined _ _ := le_rfl
  zero := le_rfl
  one := le_rfl
  breakTarget _ := le_rfl
  continueTarget _ := le_rfl

theorem Token.weight_ones (token : Token) : token.weight .ones = 1 := by
  unfold Token.weight
  split
  · split <;> rfl
  all_goals rfl

theorem Passes.func_size (passes : Passes source file tokens tree resolved program symbols names code)
    (member : func ∈ code.funcs) : func.weight .ones ≤ 10 * (source.length + 1) := by
  have light := passes.func_weight Weights.covering_ones member
  have count : tokensWeight .ones tokens = tokens.length := by
    rw [tokensWeight, List.map_congr_left fun token _ => token.weight_ones]
    simp
  have short := passes.lexes.short
  rw [String.length_toList] at short
  omega

/-- Text made of words, with dots between them. -/
def isTame (text : String) : Bool := text.toList.all fun c => isWordChar c || c = '.'

/-- A name that begins like a word and goes on with words, with dots between them. -/
def isTidy (name : String) : Bool := name.toList.head?.any isWordStart && isTame name

@[simp] theorem isTame_append (first second : String) : isTame (first ++ second) = (isTame first && isTame second) := by
  simp only [isTame, String.toList_append, List.all_append]

theorem isTame_of_isTidy (tidy : isTidy name = true) : isTame name = true :=
  (Bool.and_eq_true_iff.mp tidy).2

theorem isTidy_append {first second : String} (tidy : isTidy first = true) (tame : isTame second = true) :
    isTidy (first ++ second) = true := by
  obtain ⟨start, others⟩ := Bool.and_eq_true_iff.mp tidy
  refine Bool.and_eq_true_iff.mpr ⟨?_, by rw [isTame_append, others, tame, Bool.true_and]⟩
  rw [String.toList_append]
  cases letters : first.toList with
  | nil =>
    rw [letters] at start
    cases start
  | cons c rest =>
    rw [letters] at start
    exact start

theorem isDigit_number {number : Nat} {c : Char} (member : c ∈ (toString number).toList) : isDigit c = true := by
  rw [number_toList] at member
  have digit := Nat.isDigit_of_mem_toDigits (by decide) (by decide) member
  simp only [Char.isDigit, ge_iff_le, Bool.and_eq_true, decide_eq_true_eq] at digit
  simp only [isDigit, Bool.and_eq_true, decide_eq_true_eq]
  exact digit

theorem isTame_number (number : Nat) : isTame (toString number) = true :=
  List.all_eq_true.mpr fun c member => by simp [isWordChar, isDigit_number member]

theorem isTidy_numbered {stem : String} (tidy : isTidy stem = true) (number : Nat) :
    isTidy (stem ++ "." ++ toString number) = true :=
  isTidy_append (isTidy_append tidy (by decide)) (isTame_number number)

theorem IsWord.isTidy (word : IsWord name) : isTidy name = true := by
  refine Bool.and_eq_true_iff.mpr ⟨?_, List.all_eq_true.mpr fun _ member => by simp [word.isWordChar member]⟩
  obtain ⟨c, rest, same, start, -⟩ := word
  rw [same]
  exact start

/-- Only names that are not tidy weigh anything. -/
def Weights.untidy : Weights where
  value _ := 0
  name name := if isTidy name then 0 else 1
  loop id := if isTame id then 0 else 1
  mark := 0

theorem Weights.isTidy_of_untidy (light : Weights.untidy.name name = 0) : isTidy name = true := by
  by_contra untidy
  have heavy : Weights.untidy.name name = 1 := if_neg untidy
  omega

theorem Weights.isTame_of_untidy {id : String} (light : Weights.untidy.loop id = 0) : isTame id = true := by
  by_contra wild
  have heavy : Weights.untidy.loop id = 1 := if_neg wild
  omega

theorem Weights.untidy_le {limit : Nat} (kept : limit = 0 → isTidy name = true) :
    Weights.untidy.name name ≤ limit := by
  by_cases zero : limit = 0
  · exact (if_pos (kept zero)).trans_le (Nat.zero_le _)
  · unfold Weights.untidy
    dsimp only
    split <;> omega

theorem Weights.covering_untidy : Weights.untidy.Covering where
  numbered stem number := Weights.untidy_le fun light => isTidy_numbered (Weights.isTidy_of_untidy light) number
  loops stem listed number old := by
    have tidy : ∀ stem ∈ ["while", "dowhile", "for"], isTidy stem = true := by decide
    exact (if_pos (isTame_of_isTidy (isTidy_numbered (tidy stem listed) number))).trans_le (Nat.zero_le _)
  coined stem listed := by
    have tidy : ∀ stem ∈ loweringStems, isTidy stem = true := by decide
    exact Nat.le_of_eq (if_pos (tidy stem listed))
  zero := le_rfl
  one := le_rfl
  breakTarget id := Weights.untidy_le fun light =>
    isTidy_append (by decide) (Weights.isTame_of_untidy light)
  continueTarget id := Weights.untidy_le fun light =>
    isTidy_append (by decide) (Weights.isTame_of_untidy light)

theorem Token.weight_untidy {token : Token} (word : token.kind = .ident → IsWord token.value) :
    token.weight .untidy = 0 := by
  unfold Token.weight
  split
  · split <;> rfl
  · exact if_pos (word ‹_›).isTidy
  all_goals rfl

theorem Passes.tokens_untidy (passes : Passes source file tokens tree resolved program symbols names code) :
    tokensWeight .untidy tokens = 0 :=
  tokensWeight_eq_zero fun token member => token.weight_untidy (passes.lexes.words token member)

end Passes

end IntC
