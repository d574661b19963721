import IntC.Proofs.Il.Lawful

namespace IntC

namespace Il

/-- The body of a function is made up of blocks: the first one is named `start`, only a block stands behind what ends
one, and a return ends the last. Each block has a name of its own, and control goes to named blocks only, but not back
to the first. -/
structure Func.InBlocks (func : Func) : Prop where
  starts : func.body.head? = some (.block "start")
  ended : func.body.IsChain fun instr next => instr.ends = true → next.block?.isSome = true
  returns : ∃ value, func.body.getLast? = some (.ret value)
  distinct : (blocks func.body).Nodup
  targets : ∀ instr ∈ func.body, ∀ target ∈ instr.targets, target ∈ blocks func.body ∧ target ≠ "start"

/-- What is allowed behind an instruction that ends its block is the name of a block. -/
theorem block_of_follows {instr next : Instr} {before middle after : Bool} (here : instr.follows before = some middle)
    (behind : next.follows middle = some after) (ends : instr.ends = true) : next.block?.isSome = true := by
  have closed : middle = true := by
    cases instr with
    | jump | branch | ret =>
      cases before with
      | true => cases here
      | false => exact (Option.some.inj here).symm
    | _ => cases ends
  subst closed
  cases next with
  | block name => rfl
  | _ => cases behind

theorem isChain_of_follows {body : List Instr} {before last : Bool} (row : body.foldlM Instr.follows before = some last) :
    body.IsChain fun instr next => instr.ends = true → next.block?.isSome = true := by
  induction body generalizing before with
  | nil => exact .nil
  | cons instr rest ih =>
    rw [List.foldlM_cons] at row
    obtain ⟨middle, here, later⟩ := Option.bind_eq_some_iff.mp row
    cases rest with
    | nil => exact .singleton _
    | cons next rest =>
      have chain := ih later
      rw [List.foldlM_cons] at later
      obtain ⟨after, behind, -⟩ := Option.bind_eq_some_iff.mp later
      exact .cons_cons (block_of_follows here behind) chain

end Il

namespace Qbe

/-- What a function becomes is made up of blocks. -/
theorem FuncBecomes.inBlocks {table : SymbolTable} {func : Tac.Func} {il : Il.Func} (becomes : FuncBecomes table func il)
    (sound : func.Sound) (ends : ∃ front value, func.body = front ++ [.ret value]) (lawful : il.isLawful = true) :
    il.InBlocks := by
  obtain ⟨row, distinct, targets⟩ := of_decide_eq_true lawful
  obtain ⟨rest, starts⟩ := becomes.starts
  refine ⟨by rw [starts, List.head?_cons], Il.isChain_of_follows row, ?_, distinct, fun instr member target inside => ?_⟩
  · obtain ⟨front, value, body⟩ := ends
    obtain ⟨count, code, after, all, rfl⟩ := becomes
    rw [body] at all
    obtain ⟨-, operand, last⟩ := all.returns
    exact ⟨operand, by rw [List.getLast?_append, last, Option.some_or]⟩
  · refine ⟨targets instr member target inside, ?_⟩
    have later := becomes.targets sound member inside
    have names : Il.blocks il.body = "start" :: Il.blocks rest := by rw [starts]; rfl
    rw [names, List.tail_cons] at later
    rw [names, List.nodup_cons] at distinct
    rintro rfl
    exact distinct.1 later

end Qbe

end IntC
