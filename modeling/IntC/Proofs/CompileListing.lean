import IntC.Proofs.CompileConstants
import IntC.Proofs.CompileIl

namespace IntC

/-- A word and the mark that ends it. -/
@[ext] structure Chunk where
  word : String
  mark : Char

theorem isTame_keyword {word : String}
    (known : word ∈ ["", "return", "jump", "jz", "jnz", "static", "global", "function"]) : isTame word = true := by
  revert word
  decide

namespace Chunk

def isFair (chunk : Chunk) : Bool := isTame chunk.word && " \n,:()=~-!+*/%<>".toList.contains chunk.mark

def join (chunks : List Chunk) : List Char := chunks.flatMap fun chunk => chunk.word.toList ++ [chunk.mark]

@[simp] theorem join_nil : join [] = [] := rfl

@[simp] theorem join_cons (chunk : Chunk) (rest : List Chunk) :
    join (chunk :: rest) = chunk.word.toList ++ chunk.mark :: join rest := by
  simp [join]

@[simp] theorem join_append (first second : List Chunk) : join (first ++ second) = join first ++ join second :=
  List.flatMap_append

theorem isFair_mk {word : String} {mark : Char} (known : " \n,:()=~-!+*/%<>".toList.contains mark = true) :
    isFair ⟨word, mark⟩ = isTame word := by
  rw [isFair, known, Bool.and_true]

theorem span_join {chunk : Chunk} (fair : chunk.isFair = true) (rest : List Chunk) :
    (join (chunk :: rest)).span (fun c => isWordChar c || c = '.') = (chunk.word.toList, chunk.mark :: join rest) := by
  obtain ⟨tame, listed⟩ := Bool.and_eq_true_iff.mp fair
  have stops : (" \n,:()=~-!+*/%<>".toList.all fun c => !(isWordChar c || c = '.')) = true := by decide
  have ends : ¬((isWordChar chunk.mark || chunk.mark = '.') = true) := by
    simpa using List.all_eq_true.mp stops _ (List.contains_iff_mem.mp listed)
  have all := List.all_eq_true.mp tame
  rw [join_cons, List.span_eq_takeWhile_dropWhile, List.takeWhile_append_of_pos all, List.dropWhile_append_of_pos all,
    List.takeWhile_cons, if_neg ends, List.dropWhile_cons, if_neg ends, List.append_nil]

theorem join_inj {chunks others : List Chunk} (fair : chunks.all isFair = true) (fairs : others.all isFair = true)
    (same : join chunks = join others) : chunks = others := by
  induction chunks generalizing others with
  | nil =>
    cases others with
    | nil => rfl
    | cons => simp at same
  | cons chunk chunks ih =>
    cases others with
    | nil => simp at same
    | cons other others =>
      rw [List.all_cons, Bool.and_eq_true] at fair fairs
      have parts := congrArg (List.span fun c => isWordChar c || c = '.') same
      rw [span_join fair.1, span_join fairs.1, Prod.mk.injEq, List.cons.injEq, String.toList_inj] at parts
      rw [ih fair.2 fairs.2 parts.2.2, Chunk.ext parts.1 parts.2.1]

def marks (text : String) : List Chunk := text.toList.map (⟨"", ·⟩)

@[simp] theorem join_marks (text : String) : join (marks text) = text.toList := by
  simp [join, marks, List.flatMap_map]

/-- Words up to a bracket, with commas and blanks between them. -/
def listed : List String → List Chunk
  | [] => [⟨"", ')'⟩]
  | [word] => [⟨word, ')'⟩]
  | word :: rest => ⟨word, ','⟩ :: ⟨"", ' '⟩ :: listed rest

theorem join_listed (words : List String) : join (listed words) = (", ".intercalate words).toList ++ [')'] := by
  induction words with
  | nil => rfl
  | cons word rest ih =>
    cases rest with
    | nil => simp [listed]
    | cons next rest => simp [listed, ih, String.intercalate_cons_cons]

theorem fair_listed (words : List String) : (listed words).all isFair = words.all isTame := by
  induction words with
  | nil => rfl
  | cons word rest ih =>
    cases rest with
    | nil => simp [listed, isFair_mk]
    | cons next rest => simp [listed, isFair_mk, isTame_keyword, ih]

theorem listed_inj {words others : List String} {rest rests : List Chunk} (solid : "" ∉ words) (solids : "" ∉ others)
    (same : listed words ++ rest = listed others ++ rests) : words = others ∧ rest = rests := by
  induction words generalizing others with
  | nil => rcases others with _ | ⟨other, _ | ⟨_, _⟩⟩ <;> simp_all [listed]
  | cons word words ih =>
    rcases words with _ | ⟨next, words⟩ <;> rcases others with _ | ⟨other, _ | ⟨second, others⟩⟩
    case cons.cons.cons =>
      obtain ⟨rfl, behind⟩ : word = other ∧ listed (next :: words) ++ rest = listed (second :: others) ++ rests := by
        simpa [listed] using same
      rw [List.mem_cons, not_or] at solid solids
      simpa using ih solid.2 solids.2 behind
    all_goals simp_all [listed]

end Chunk

namespace Tac

open Chunk

/-- A value that the listing can tell from any other. -/
def Value.Plain : Value → Prop
  | .const value => 0 ≤ value
  | .var name => isTidy name = true
  | .absent => False

/-- The value that a text stands for. -/
def Value.ofText (text : String) : Value :=
  if text.toList.head?.any isDigit then .const (Nat.ofDigitChars 10 text.toList 0) else .var text

section Value
variable {value other : Value} {values others : List Value}

theorem Value.Plain.ofText (plain : value.Plain) : Value.ofText value.text = value := by
  cases value with
  | const value =>
    obtain ⟨number, rfl⟩ := Int.eq_ofNat_of_zero_le plain
    have digits : (Value.const number).text.toList = Nat.toDigits 10 number := number_toList number
    obtain ⟨c, rest, starts⟩ := List.exists_cons_of_ne_nil (@Nat.toDigits_ne_nil number 10)
    have first : isDigit c = true := @isDigit_number number c (by rw [number_toList, starts]; exact List.mem_cons_self)
    rw [Value.ofText, digits, Nat.ofDigitChars_toDigits (by decide) (by decide), starts, if_pos (by exact first)]
  | var name =>
    obtain ⟨c, found, letter⟩ := (Option.any_eq_true _ _).mp (Bool.and_eq_true_iff.mp plain).1
    refine if_neg fun digit => ?_
    rw [Value.text, found] at digit
    rw [isWordStart_of_isDigit digit] at letter
    cases letter
  | absent => cases plain

theorem Value.Plain.isTame (plain : value.Plain) : isTame value.text = true := by
  cases value with
  | const value =>
    obtain ⟨number, rfl⟩ := Int.eq_ofNat_of_zero_le plain
    exact isTame_number number
  | var name => exact isTame_of_isTidy plain
  | absent => cases plain

theorem Value.Plain.inj (plain : value.Plain) (plains : other.Plain) (same : value.text = other.text) : value = other := by
  rw [← plain.ofText, same, plains.ofText]

theorem Value.listed_inj {rest rests : List Chunk} (plain : ∀ value ∈ values, value.Plain)
    (plains : ∀ value ∈ others, value.Plain)
    (same : listed (values.map Value.text) ++ rest = listed (others.map Value.text) ++ rests) :
    values = others ∧ rest = rests := by
  have read {values : List Value} (plain : ∀ value ∈ values, value.Plain) :
      (values.map Value.text).map Value.ofText = values := by
    rw [List.map_map]
    exact (List.map_congr_left fun value inside => (plain value inside).ofText).trans (List.map_id _)
  have solid {values : List Value} (plain : ∀ value ∈ values, value.Plain) : "" ∉ values.map Value.text := by
    intro inside
    obtain ⟨value, member, empty⟩ := List.mem_map.mp inside
    have whole := (plain value member).ofText
    rw [empty] at whole
    cases whole
    cases plain _ member
  obtain ⟨texts, last⟩ := Chunk.listed_inj (solid plain) (solid plains) same
  exact ⟨by rw [← read plain, texts, read plains], last⟩

end Value

def UnaryOp.mark : UnaryOp → Char
  | .complement => '~'
  | .negate => '-'
  | .not => '!'

theorem UnaryOp.mark_inj {op other : UnaryOp} : op.mark = other.mark ↔ op = other := by
  cases op <;> cases other <;> decide

theorem UnaryOp.mark_ne (op : UnaryOp) : op.mark ≠ '\n' ∧ op.mark ≠ ' ' ∧ op.mark ≠ '(' := by
  cases op <;> decide

theorem UnaryOp.sign_eq (op : UnaryOp) : op.sign = String.singleton op.mark ∧ isFair ⟨"", op.mark⟩ = true := by
  cases op <;> decide

theorem BinaryOp.fair_sign (op : BinaryOp) : ∀ chunk ∈ marks op.sign, chunk.isFair = true := by
  cases op <;> decide

theorem BinaryOp.sign_inj {op other : BinaryOp} {rest rests : List Chunk} :
    marks op.sign ++ ⟨"", ' '⟩ :: rest = marks other.sign ++ ⟨"", ' '⟩ :: rests ↔ op = other ∧ rest = rests := by
  cases op <;> cases other <;> simp [marks, BinaryOp.sign]

theorem marks_two : marks "  " = [⟨"", ' '⟩, ⟨"", ' '⟩] := rfl

theorem marks_four : marks "    " = [⟨"", ' '⟩, ⟨"", ' '⟩, ⟨"", ' '⟩, ⟨"", ' '⟩] := rfl

/-- What lowering makes: an instruction with a line that no other has. -/
def Instr.Plain : Instr → Prop
  | .ret value => value.Plain
  | .jump target | .label target => isTidy target = true
  | .jumpIfZero cond target | .jumpIfNotZero cond target => cond.Plain ∧ isTidy target = true
  | .call callee args dest => isTidy callee = true ∧ (∀ value ∈ args, value.Plain) ∧ dest.Plain
  | .copy source dest | .unary _ source dest => source.Plain ∧ dest.Plain
  | .binary _ left right dest => left.Plain ∧ right.Plain ∧ dest.Plain
  | .unknown _ | .lacking _ | .mention _ => False

/-- A line of a listing. -/
inductive Line where
  | static (var : StaticVar)
  | opening (name : String) (global : Bool) (params : List Value)
  | step (instr : Instr)

namespace Line

def text : Line → String
  | .static var => var.line
  | .opening name global params =>
    "\n" ++ linkage global ++ "function " ++ name ++ "(" ++ ", ".intercalate (params.map Value.text) ++ "):\n"
  | .step instr => instr.line

def Plain : Line → Prop
  | .static var => isTidy var.name = true ∧ (Value.const var.init).Plain
  | .opening name _ params => isTidy name = true ∧ ∀ value ∈ params, value.Plain
  | .step instr => instr.Plain

def linked (global : Bool) : List Chunk := if global then [⟨"global", ' '⟩] else []

def into (dest : Value) : List Chunk := marks "    " ++ [⟨dest.text, ' '⟩, ⟨"", '='⟩, ⟨"", ' '⟩]

def chunks : Line → List Chunk
  | .static var => linked var.global ++
    [⟨"static", ' '⟩, ⟨var.name, ' '⟩, ⟨"", '='⟩, ⟨"", ' '⟩, ⟨(Value.const var.init).text, '\n'⟩]
  | .opening name global params =>
    ⟨"", '\n'⟩ :: linked global ++ [⟨"function", ' '⟩, ⟨name, '('⟩] ++ listed (params.map Value.text) ++
      [⟨"", ':'⟩, ⟨"", '\n'⟩]
  | .step (.label name) => marks "  " ++ [⟨name, ':'⟩, ⟨"", '\n'⟩]
  | .step (.ret value) => marks "    " ++ [⟨"return", ' '⟩, ⟨value.text, '\n'⟩]
  | .step (.jump target) => marks "    " ++ [⟨"jump", ' '⟩, ⟨target, '\n'⟩]
  | .step (.jumpIfZero cond target) => marks "    " ++ [⟨"jz", ' '⟩, ⟨cond.text, ','⟩, ⟨"", ' '⟩, ⟨target, '\n'⟩]
  | .step (.jumpIfNotZero cond target) => marks "    " ++ [⟨"jnz", ' '⟩, ⟨cond.text, ','⟩, ⟨"", ' '⟩, ⟨target, '\n'⟩]
  | .step (.copy source dest) => into dest ++ [⟨source.text, '\n'⟩]
  | .step (.call callee args dest) => into dest ++ ⟨callee, '('⟩ :: listed (args.map Value.text) ++ [⟨"", '\n'⟩]
  | .step (.unary op source dest) => into dest ++ [⟨"", op.mark⟩, ⟨source.text, '\n'⟩]
  | .step (.binary op left right dest) =>
    into dest ++ ⟨left.text, ' '⟩ :: marks op.sign ++ [⟨"", ' '⟩, ⟨right.text, '\n'⟩]
  | .step (.unknown _) | .step (.lacking _) | .step (.mention _) => []

variable {line other : Line}

theorem chunks_inj {rest rests : List Chunk} (plain : line.Plain) (plains : other.Plain)
    (same : line.chunks ++ rest = other.chunks ++ rests) : line = other ∧ rest = rests := by
  -- Lines of different kinds differ in a mark, and words end where the next mark stands.
  rcases line with ⟨_, _ | _, _⟩ | ⟨_, _ | _, _⟩ | ⟨_ | _⟩ <;>
    rcases other with ⟨_, _ | _, _⟩ | ⟨_, _ | _, _⟩ | ⟨_ | _⟩ <;>
    simp [chunks, Plain, Instr.Plain, linked, into, marks_two, marks_four, BinaryOp.sign_inj, UnaryOp.mark_inj,
      UnaryOp.mark_ne, (UnaryOp.mark_ne _).1.symm, (UnaryOp.mark_ne _).2.1.symm, (UnaryOp.mark_ne _).2.2.symm]
      at plain plains same
  all_goals grind [Value.Plain.inj, Value.listed_inj]

theorem fair_chunks (plain : line.Plain) : line.chunks.all isFair = true := by
  rcases line with ⟨_, _ | _, _⟩ | ⟨_, _ | _, _⟩ | ⟨_ | _⟩ <;> simp only [Plain, Instr.Plain] at plain <;>
    simp_all [chunks, linked, into, marks_two, marks_four, isFair_mk, fair_listed, isTame_keyword, isTame_of_isTidy,
      Value.Plain.isTame, UnaryOp.sign_eq]
  exact BinaryOp.fair_sign _

theorem join_chunks (plain : line.Plain) : join line.chunks = line.text.toList := by
  have needed {value : Value} (plain : value.Plain) : value.needed = .ok value.text := by
    cases value with
    | absent => cases plain
    | _ => rfl
  have all {values : List Value} (plain : ∀ value ∈ values, value.Plain) :
      values.mapM Value.needed = .ok (values.map Value.text) :=
    mapM_ok_map fun value inside => needed (plain value inside)
  rcases line with ⟨_, _ | _, _⟩ | ⟨_, _ | _, _⟩ | ⟨_ | _⟩ <;> simp only [Plain, Instr.Plain] at plain <;>
    simp +contextual [chunks, linked, into, text, join_listed, StaticVar.line, linkage, Instr.line, Instr.text,
      Instr.written, bind, Except.bind, pure, Except.pure, plain, needed, all, Value.text, UnaryOp.sign_eq]

end Line

theorem flatMap_chunks_inj {lines others : List Line} (plain : ∀ line ∈ lines, line.Plain)
    (plains : ∀ line ∈ others, line.Plain) (same : lines.flatMap Line.chunks = others.flatMap Line.chunks) :
    lines = others := by
  have solid {line : Line} (plain : line.Plain) : line.chunks ≠ [] := by
    rcases line with ⟨_, _ | _, _⟩ | ⟨_, _ | _, _⟩ | ⟨_ | _⟩ <;>
      simp_all [Line.chunks, Line.Plain, Instr.Plain, Line.linked, Line.into, marks_two, marks_four]
  induction lines generalizing others with
  | nil =>
    cases others with
    | nil => rfl
    | cons other others => simp [solid (plains other List.mem_cons_self)] at same
  | cons line lines ih =>
    obtain ⟨first, rest⟩ := List.forall_mem_cons.mp plain
    cases others with
    | nil => simp [solid first] at same
    | cons other others =>
      obtain ⟨firsts, rests⟩ := List.forall_mem_cons.mp plains
      obtain ⟨rfl, behind⟩ := Line.chunks_inj first firsts same
      rw [ih rest rests behind]

def Program.lines (program : Program) : List Line :=
  program.statics.map .static ++
    program.funcs.flatMap fun func => .opening func.name func.global (func.params.map .var) :: func.body.map .step

/-- Puts a line before the instructions and the program that stand behind it. -/
def Program.gather : Line → List Instr × Program → List Instr × Program
  | .static var, (body, program) => (body, { program with statics := var :: program.statics })
  | .opening name global params, (body, program) =>
    ([], { program with funcs := ⟨name, global, params.map Value.text, body⟩ :: program.funcs })
  | .step instr, (body, program) => (instr :: body, program)

theorem Program.gather_lines (program : Program) : program.lines.foldr gather ([], ⟨[], []⟩) = ([], program) := by
  have body (instrs : List Instr) (program : Program) :
      (instrs.map Line.step).foldr gather ([], program) = (instrs, program) := by
    induction instrs with
    | nil => rfl
    | cons instr instrs ih => rw [List.map_cons, List.foldr_cons, ih, gather]
  obtain ⟨statics, funcs⟩ := program
  rw [lines, List.foldr_append]
  induction statics with
  | nil =>
    induction funcs with
    | nil => rfl
    | cons func funcs ih => simp_all [gather, Function.comp_def, Value.text]
  | cons var statics ih => rw [List.map_cons, List.foldr_cons, ih, gather]

theorem Program.toList_listing (program : Program) :
    program.listing.toList = program.lines.flatMap fun line => line.text.toList := by
  simp [listing, lines, Func.listing, Line.text, String.toList_join, List.flatMap_map, List.flatMap_assoc,
    Function.comp_def, Value.text]

theorem Program.listing_inj {program other : Program} (plain : ∀ line ∈ program.lines, line.Plain)
    (plains : ∀ line ∈ other.lines, line.Plain) (same : program.listing = other.listing) : program = other := by
  have cut {program : Program} (plain : ∀ line ∈ program.lines, line.Plain) :
      join (program.lines.flatMap Line.chunks) = program.listing.toList ∧
        (program.lines.flatMap Line.chunks).all isFair = true := by
    refine ⟨?_, List.all_flatMap.trans (List.all_eq_true.mpr fun line inside => line.fair_chunks (plain line inside))⟩
    rw [toList_listing, join, List.flatMap_assoc]
    exact List.flatMap_congr fun line inside => line.join_chunks (plain line inside)
  obtain ⟨text, fair⟩ := cut plain
  obtain ⟨texts, fairs⟩ := cut plains
  have lines := flatMap_chunks_inj plain plains (join_inj fair fairs (by rw [text, texts, same]))
  have gathered := gather_lines program
  rw [lines, gather_lines] at gathered
  exact (Prod.mk.inj gathered).2.symm

end Tac

theorem IsConstantOf.nonneg {tokens : List Token} {value : Int} (constant : IsConstantOf tokens value) : 0 ≤ value := by
  obtain ⟨token, -, -, same, -⟩ := constant
  omega

section Passes
variable {source : String} {file : Int} {tokens : List Token} {tree resolved program : Program}
  {symbols : SymbolTable} {names : NameSupply} {code : Tac.Program}
  (passes : Passes source file tokens tree resolved program symbols names code)
include passes

theorem Passes.not_mention {func : Tac.Func} (member : func ∈ code.funcs) {instr : Tac.Instr}
    (inside : instr ∈ func.body) : instr.isMention = false := by
  have light := passes.func_weight Weights.covering_untidy member
  rw [passes.tokens_untidy, Tac.Func.weight] at light
  have within := @Tac.Instr.weight_le_codeWeight .untidy _ _ inside
  rw [Tac.Instr.weight] at within
  exact Bool.toNat_eq_zero.mp (by omega)

theorem Passes.lines_plain (complete : ∀ func ∈ code.funcs, ∀ instr ∈ func.body, instr.isComplete = true) :
    ∀ line ∈ code.lines, line.Plain := by
  refine List.forall_mem_append.mpr ⟨List.forall_mem_map.mpr fun var inside => ⟨passes.statics_tidy var inside, ?_⟩, ?_⟩
  · rcases passes.static_origin inside with zero | constant
    · exact zero.ge
    · exact constant.nonneg
  · refine List.forall_mem_flatMap.mpr fun func inside => ?_
    obtain ⟨name, known, named⟩ := passes.func_tidy inside
    refine List.forall_mem_cons.mpr ⟨⟨name, List.forall_mem_map.mpr fun param listed =>
      known param (List.mem_append_left _ listed)⟩, List.forall_mem_map.mpr fun instr among => ?_⟩
    have values : ∀ value ∈ instr.values, value.isPresent = true → value.Plain := by
      intro value listed present
      cases value with
      | const value =>
        rcases passes.const_origin inside among listed with rfl | rfl | constant
        · exact Int.le_refl 0
        · exact Int.one_nonneg
        · exact constant.nonneg
      | var name => exact passes.vars_tidy inside instr among name listed
      | absent => cases present
    have vars : ∀ value ∈ instr.values, value.isVar = true → value.Plain := by
      intro value listed var
      refine values value listed ?_
      cases value with
      | var => rfl
      | _ => cases var
    have known : instr.isMention = false := passes.not_mention inside among
    have symbols := named instr among
    have whole := complete func inside instr among
    cases instr <;> simp_all [Tac.Line.Plain, Tac.Instr.Plain, Tac.Instr.isComplete, Tac.Instr.values, Tac.Instr.symbols,
      Tac.Instr.isMention, or_imp, forall_and]

end Passes

section Compile
variable {compiler compiler' : Compiler} {config config' : Config} {source source' : String} {file file' : Int}
  {code code' : Tac.Program} {symbols symbols' : SymbolTable}

theorem lines_plain (made : (compiler.compile config source file .lower).1 = .ok (.code code symbols)) :
    ∀ line ∈ code.lines, line.Plain := by
  obtain ⟨tokens, tree, resolved, program, names, passes⟩ := exists_passes made
  exact passes.lines_plain fun func inside => (sound_of_compile made func inside).2

/-- The listing of the code of a source is unambiguous: code of any other source that has the same listing is the same,
with its variables, functions, parameters and instructions. -/
theorem listing_tells_apart (made : (compiler.compile config source file .lower).1 = .ok (.code code symbols))
    (made' : (compiler'.compile config' source' file' .lower).1 = .ok (.code code' symbols'))
    (same : code.listing = code'.listing) : code = code' :=
  Tac.Program.listing_inj (lines_plain made) (lines_plain made') same

end Compile

def Product.listing? : Product → Option String
  | .code program _ => some program.listing
  | _ => none

theorem exists_of_listing? {outcome : Except Error Product} {text : String}
    (listed : outcome.toOption.bind Product.listing? = some text) :
    ∃ code symbols, outcome = .ok (.code code symbols) ∧ code.listing = text := by
  rcases outcome with _ | ⟨_ | _⟩ <;> cases listed
  exact ⟨_, _, rfl, rfl⟩

/-- A variable with the name of an operation. -/
def jumpySource : String := "int jz; int main(void) { while (jz) jz = -main(); }"

/-- The same, written in another way. -/
def jumpyAgain : String := "int jz = 0; int main(void) { ; while ((jz)) jz = -(main()); }"

theorem listing_tells_apart_jumpy : ∃ code symbols code' symbols',
    (Compiler.compile {} {} jumpySource 0 .lower).1 = .ok (.code code symbols) ∧
    (Compiler.compile {} {} jumpyAgain 0 .lower).1 = .ok (.code code' symbols') ∧ code = code' := by
  have listed : ((Compiler.compile {} {} jumpySource 0 .lower).1.toOption.bind Product.listing?).isSome = true := by
    decide +kernel
  have same : (Compiler.compile {} {} jumpyAgain 0 .lower).1.toOption.bind Product.listing? =
      (Compiler.compile {} {} jumpySource 0 .lower).1.toOption.bind Product.listing? := by
    decide +kernel
  obtain ⟨text, first⟩ := Option.isSome_iff_exists.mp listed
  obtain ⟨code, symbols, made, written⟩ := exists_of_listing? first
  obtain ⟨code', symbols', made', written'⟩ := exists_of_listing? (same.trans first)
  exact ⟨code, symbols, code', symbols', made, made', listing_tells_apart made made' (written.trans written'.symm)⟩

end IntC
