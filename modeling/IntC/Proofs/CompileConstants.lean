import IntC.Proofs.CompileLinkage
import IntC.Proofs.Tree.Constant

namespace IntC

namespace Machine

/-- Immediate operands of a finished function are constants of the code, or zero. -/
theorem finished_imm {func : Tac.Func} {selected : Func} {symbols : SymbolTable} {align : Int}
    (made : selectFunc func = .ok selected) {part : Instr} (member : part ∈ (selected.finished symbols align).instrs)
    {value : Int} (inside : .imm value ∈ part.operands) :
    value = 0 ∨ ∃ instr ∈ func.body, .const value ∈ instr.values := by
  rcases finished_source made member inside with scratch | ⟨before, source, frame, same⟩
  · cases scratch
  · cases before with
    | imm other =>
      cases same
      cases source with
      | zero => exact .inl rfl
      | const body among => exact .inr ⟨_, body, among⟩
    | pseudo name =>
      rw [Frame.place_pseudo] at same
      split at same
      · cases same
      · split at same <;> cases same
    | _ => cases same

end Machine

/-- The value of a constant that stands in the source. -/
def IsConstantOf (tokens : List Token) (value : Int) : Prop :=
  ∃ token ∈ tokens, token.kind = .number ∧ value = decimal token.value.toList ∧ value ≤ 2147483647

theorem IsConstantOf.of_read {source : String} {file : Int} {tokens : List Token}
    (lexed : tokenize source file = .ok tokens) (token : Token) (member : token ∈ tokens) (number : token.kind = .number)
    (value : Int) (read : readConstant token.value = .ok value) : IsConstantOf tokens value := by
  rw [tokenize_constant lexed member number] at read
  split at read
  · cases read
    exact ⟨token, member, number, rfl, by omega⟩
  · cases read

section Passes
variable {source : String} {file : Int} {tokens : List Token} {tree resolved program : Program}
  {symbols : SymbolTable} {names : NameSupply} {code : Tac.Program}
  (passes : Passes source file tokens tree resolved program symbols names code)
include passes

theorem Passes.const_origin {func : Tac.Func} (member : func ∈ code.funcs) {instr : Tac.Instr}
    (inside : instr ∈ func.body) {value : Int} (among : .const value ∈ instr.values) :
    value = 0 ∨ value = 1 ∨ IsConstantOf tokens value := by
  classical
  refine passes.const_among (fun value => value = 0 ∨ value = 1 ∨ IsConstantOf tokens value) (.inl rfl) (.inr (.inl rfl))
    (fun token listed number value read => ?_) member inside among
  exact .inr (.inr (.of_read passes.lexed token listed number value read))

/-- The checker records no initial value but zero and constants of the source. -/
theorem Passes.static_origin {var : Tac.StaticVar} (member : var ∈ code.statics) :
    var.init = 0 ∨ IsConstantOf tokens var.init := by
  classical
  have light := passes.tree_weight (@Weights.fair_outside (IsConstantOf tokens) _)
  rw [tokensWeight_outside fun token => IsConstantOf.of_read passes.lexed token] at light
  obtain ⟨last, checked, rfl⟩ := passes.checked
  rw [passes.statics_eq] at member
  obtain ⟨⟨name, type, attr⟩, inside, found⟩ := List.mem_filterMap.mp member
  have recorded := (@Program.check_records (.outside (IsConstantOf tokens)) program {}
    ⟨List.nodup_nil, List.forall_mem_nil _⟩).of_ok checked
  have known := (recorded.entries _ inside).2
  dsimp only at found
  split at found <;> cases found
  · exact .inl rfl
  · exact Or.imp_right (fun small => Weights.of_outside (Nat.le_trans small light)) known

end Passes

/-- Constants keep their value from the text to the machine. A constant of the source, with any number of digits, is read
as an operand of its decimal value if that is at most 2147483647, and else reported as too large; there is no other fault
to find with it. The tree that is read holds the values of all of them. The code has no constants but these values, zero
and one, its variables start with one of these values or with zero, and lowering to the machine adds nothing. -/
theorem compile_keeps_constants {source : String} {file : Int} {tokens : List Token}
    (lexed : tokenize source file = .ok tokens) :
    (∀ depth cursor, cursor.current ∈ tokens → cursor.current.kind = .number → Parse.factor (depth + 1) cursor =
      if decimal cursor.current.value.toList ≤ 2147483647 then
        .ok (.number cursor.current.span (decimal cursor.current.value.toList), cursor.advance)
      else .error ⟨.constantTooLarge cursor.current.value, cursor.current.span⟩) ∧
    (∀ error, parse tokens = .error error → ∀ text, error.cause ≠ .malformedConstant text ∧
      (error.cause = .constantTooLarge text → ∃ token ∈ tokens, token.kind = .number ∧ token.value = text ∧
        token.span = error.span ∧ 2147483647 < decimal text.toList)) ∧
    (∀ tree, parse tokens = .ok tree →
      Derives (.unit tree.items) ((tokens.takeWhile fun token => token.kind ≠ .eof).map Token.terminal) ∧
      ∀ token ∈ tokens, token.kind = .number →
        token.terminal = .constant (.ok (decimal token.value.toList)) ∧ IsConstantOf tokens (decimal token.value.toList)) ∧
    (∀ compiler config code symbols,
      (Compiler.compile compiler config source file .lower).1 = .ok (.code code symbols) →
      (∀ func ∈ code.funcs, ∀ instr ∈ func.body, ∀ value, .const value ∈ instr.values →
        value = 0 ∨ value = 1 ∨ IsConstantOf tokens value) ∧
      (∀ var ∈ code.statics, var.init = 0 ∨ IsConstantOf tokens var.init) ∧
      ∀ align, ∃ machine, Machine.lower code symbols align = .ok machine ∧
        (∀ func ∈ machine.funcs, ∀ instr ∈ func.instrs, ∀ value, .imm value ∈ instr.operands →
          value = 0 ∨ value = 1 ∨ IsConstantOf tokens value) ∧
        ∀ var ∈ machine.statics, var.init = 0 ∨ IsConstantOf tokens var.init) ∧
    ∀ value, IsConstantOf tokens value → 0 ≤ value ∧ value ≤ 2147483647 := by
  refine ⟨fun depth cursor member number => ?_, fun error failed text => ?_, fun tree parsed => ⟨?_, ?_⟩, ?_, ?_⟩
  · have step : Parse.factor (depth + 1) cursor = Parse.constant cursor.current cursor.advance := by
      obtain ⟨⟨kind, value, span⟩, rest⟩ := cursor
      cases number
      unfold Parse.factor
      rfl
    rw [step, Parse.constant, tokenize_constant lexed member number]
    split <;> rfl
  · have complains := parse_walks tokens
    rw [failed] at complains
    have fault {fault : ConstantFault} (same : error.cause = fault.cause text) : fault = .tooLarge ∧
        ∃ token ∈ tokens, token.kind = .number ∧ token.value = text ∧ token.span = error.span ∧
          2147483647 < decimal text.toList := by
      obtain ⟨token, among, number, rfl, span, read⟩ := complains.constant fault text same
      have member := Cursor.mem_of_ofTokens among (number ▸ by decide)
      rw [tokenize_constant lexed member number] at read
      split at read
      · cases read
      · cases read
        exact ⟨rfl, token, member, number, rfl, span, by omega⟩
    refine ⟨fun same => ?_, fun same => (@fault .tooLarge same).2⟩
    cases (@fault .malformed same).1
  · have derives := parse_takes tokens
    rw [parsed] at derives
    exact derives
  · intro token member number
    have derives := parse_takes tokens
    rw [parsed] at derives
    have tiled : Tiled file [] source.toList tokens := Scanner.tiled_of_tokens rfl lexed
    have among := tiled.mem_takeWhile member (number ▸ by decide)
    have proper := derives.proper _ (List.mem_map_of_mem among)
    have terminal : token.terminal = .constant (readConstant token.value) := by
      simp only [Token.terminal, number]
    rw [terminal] at proper ⊢
    rw [tokenize_constant lexed member number] at proper ⊢
    split at proper
    · rename_i small
      rw [if_pos small]
      exact ⟨rfl, token, member, number, rfl, by omega⟩
    · cases proper
  · intro compiler config code symbols made
    obtain ⟨others, tree, resolved, program, names, passes⟩ := exists_passes made
    cases lexed.symm.trans passes.lexed
    refine ⟨fun func member instr inside value => passes.const_origin member inside, fun var => passes.static_origin,
      fun align => ?_⟩
    obtain ⟨funcs, each, lowered⟩ := Machine.exists_lower_eq symbols align fun func member =>
      (sound_of_compile made func member).2
    refine ⟨_, lowered, fun func member instr inside value among => ?_, List.forall_mem_map.mpr fun var => passes.static_origin⟩
    obtain ⟨selected, listed, rfl⟩ := List.mem_map.mp member
    obtain ⟨origin, found, done⟩ := exists_of_mem_right each listed
    rcases Machine.finished_imm done inside among with zero | ⟨old, body, here⟩
    · exact .inl zero
    · exact passes.const_origin found body here
  · rintro value ⟨token, -, -, rfl, small⟩
    exact ⟨Int.natCast_nonneg _, small⟩

/-- The largest constant behind zeros, and a variable that starts with a constant. -/
def extremeSource : String :=
  "static int n = 0042; int main(void) \x7b return 0000000000002147483647 - n; \x7d"

def Product.isExtreme : Product → Bool
  | .code made symbols => made.statics = [⟨"n", false, 42⟩] ∧
    ∃ machine ∈ (Machine.lower made symbols 16).toOption, ∃ func ∈ machine.funcs, ∃ instr ∈ func.instrs,
      .imm 2147483647 ∈ instr.operands
  | _ => false

def extreme : Sample .lower Product.isExtreme where
  source := extremeSource
  passes := by decide +kernel

theorem compile_keeps_constants_extreme : ∃ tokens code symbols,
    tokenize extremeSource 0 = .ok tokens ∧
    (Compiler.compile {} {} extremeSource 0 .lower).1 = .ok (.code code symbols) ∧
    code.statics = [⟨"n", false, 42⟩] ∧ IsConstantOf tokens 42 ∧ IsConstantOf tokens 2147483647 := by
  obtain ⟨code, symbols, made, shape⟩ := extreme.exists_code
  obtain ⟨statics, machine, lowered, func, member, instr, inside, among⟩ :
      code.statics = [⟨"n", false, 42⟩] ∧ ∃ machine ∈ (Machine.lower code symbols 16).toOption,
        ∃ func ∈ machine.funcs, ∃ instr ∈ func.instrs, Machine.Operand.imm 2147483647 ∈ instr.operands :=
    of_decide_eq_true shape
  obtain ⟨tokens, tree, resolved, program, names, passes⟩ := exists_passes made
  obtain ⟨-, -, -, keeps, -⟩ := compile_keeps_constants passes.lexed
  obtain ⟨-, starts, machines⟩ := keeps _ _ _ _ made
  obtain ⟨other, same, operands, -⟩ := machines 16
  rw [same] at lowered
  cases lowered
  refine ⟨tokens, code, symbols, passes.lexed, made, statics, ?_, ?_⟩
  · rcases starts ⟨"n", false, 42⟩ (by simp [statics]) with zero | found
    · cases zero
    · exact found
  · rcases operands func member instr inside _ among with zero | one | found
    · cases zero
    · cases one
    · exact found

end IntC
