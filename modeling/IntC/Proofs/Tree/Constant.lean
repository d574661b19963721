import IntC.Proofs.Token.Tiling
import IntC.Proofs.Tree.Parser
import Mathlib.Data.Nat.Digits.Defs
import Mathlib.Tactic.Ring

namespace IntC

/-- The number that a row of digits stands for. -/
def decimal (digits : List Char) : Nat := Nat.ofDigits 10 (digits.map fun c => c.toNat - '0'.toNat).reverse

theorem decimal_cons (c : Char) (rest : List Char) :
    decimal (c :: rest) = (c.toNat - '0'.toNat) * 10 ^ rest.length + decimal rest := by
  simp only [decimal, List.map_cons, List.reverse_cons, Nat.ofDigits_append, Nat.ofDigits_singleton, List.length_reverse,
    List.length_map]
  ring

/-- Digits behind a value are read as long as they do not lift it above the largest unsigned word, and then no further
digit could bring it back. -/
theorem readDigits_eq {digits : List Char} (all : ∀ c ∈ digits, isDigit c = true) {value : Nat}
    (small : value < 0x100000000) :
    readDigits value digits = if value * 10 ^ digits.length + decimal digits < 0x100000000 then
      .ok (value * 10 ^ digits.length + decimal digits) else .error .tooLarge := by
  induction digits generalizing value with
  | nil =>
    have same : value * 10 ^ ([] : List Char).length + decimal [] = value := Nat.mul_one value
    rw [same, if_pos small]
    rfl
  | cons c rest ih =>
    obtain ⟨digit, others⟩ := List.forall_mem_cons.mp all
    have same : value * 10 ^ (c :: rest).length + decimal (c :: rest) =
        (value * 10 + (c.toNat - '0'.toNat)) * 10 ^ rest.length + decimal rest := by
      rw [decimal_cons, List.length_cons]
      ring
    rw [same, readDigits, if_pos digit]
    generalize value * 10 + (c.toNat - '0'.toNat) = longer
    have grows : longer ≤ longer * 10 ^ rest.length := Nat.le_mul_of_pos_right _ (Nat.pow_pos (by decide))
    dsimp only
    split
    · rw [if_neg (by omega)]
    · exact ih others (by omega)

/-- A row of digits is read as the number it stands for, or else that number is too large. -/
theorem readConstant_eq {text : String} (some : text.toList ≠ []) (all : ∀ c ∈ text.toList, isDigit c = true) :
    readConstant text = if decimal text.toList ≤ 2147483647 then .ok (decimal text.toList : Int) else .error .tooLarge := by
  have plain {c : Char} (other : isDigit c = false) {rest : List Char} : text.toList ≠ c :: rest := by
    intro same
    rw [same] at all
    exact Bool.noConfusion (other.symm.trans (all c List.mem_cons_self))
  have magnitude : readMagnitude text.toList =
      if decimal text.toList < 0x100000000 then .ok (decimal text.toList) else .error .tooLarge := by
    unfold readMagnitude
    split
    · exact absurd ‹_› some
    · have read := readDigits_eq all (by decide : 0 < 0x100000000)
      rwa [Nat.zero_mul, Nat.zero_add] at read
  unfold readConstant
  split
  · exact absurd ‹_› (plain (by decide))
  · exact absurd ‹_› (plain (by decide))
  · rw [magnitude]
    by_cases fits : decimal text.toList ≤ 2147483647
    · rw [if_pos fits, if_pos (by omega)]
      exact if_neg (by omega)
    · rw [if_neg fits]
      split
      · exact if_pos (by omega)
      · rfl

theorem Tiled.digits {file : Int} {before text : List Char} {tokens : List Token} (tiled : Tiled file before text tokens) :
    ∀ token ∈ tokens, token.kind = .number → token.value.toList ≠ [] ∧ ∀ c ∈ token.value.toList, isDigit c = true := by
  induction tiled with
  | last trail =>
    refine List.forall_mem_singleton.mpr fun number => ?_
    cases number
  | next gap spelling _ _ ih =>
    refine List.forall_mem_cons.mpr ⟨fun number => ?_, ih⟩
    cases spelling with
    | fixed kind text spelled =>
      cases number
      cases spelled
    | word => cases number
    | constant first others all =>
      change (String.ofList (first :: others)).toList ≠ [] ∧ ∀ c ∈ (String.ofList (first :: others)).toList, _
      rw [String.toList_ofList]
      exact ⟨List.cons_ne_nil _ _, all⟩

theorem Tiled.mem_takeWhile {file : Int} {before text : List Char} {tokens : List Token}
    (tiled : Tiled file before text tokens) {token : Token} (member : token ∈ tokens) (inside : token.kind ≠ .eof) :
    token ∈ tokens.takeWhile fun token => token.kind ≠ .eof := by
  induction tiled with
  | last trail => exact absurd (List.mem_singleton.mp member ▸ rfl) inside
  | next gap spelling _ _ ih =>
    rw [List.takeWhile_cons, if_pos (decide_eq_true spelling.content_ne_eof)]
    exact List.mem_cons.mpr ((List.mem_cons.mp member).imp_right ih)

theorem tokenize_constant {source : String} {file : Int} {tokens : List Token} (lexed : tokenize source file = .ok tokens)
    {token : Token} (member : token ∈ tokens) (number : token.kind = .number) :
    readConstant token.value = if decimal token.value.toList ≤ 2147483647 then .ok (decimal token.value.toList : Int)
      else .error .tooLarge := by
  have tiled : Tiled file [] source.toList tokens := Scanner.tiled_of_tokens rfl lexed
  obtain ⟨some, all⟩ := tiled.digits token member number
  exact readConstant_eq some all

end IntC
