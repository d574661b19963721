import IntC.Proofs.Name
import IntC.Proofs.Tac.Run
import IntC.Tac.Lowering
import Mathlib.Data.Set.Insert

namespace IntC

/-- A name that was given out for an intermediate value, from the first number up to the last one. -/
def Temporary (first last : Nat) (name : String) : Prop :=
  ∃ number, first ≤ number ∧ number < last ∧ name = (NameSupply.temp ⟨number⟩).1

theorem Temporary.minted {first last : Nat} {name : String} (temporary : Temporary first last name) :
    Minted first last name := by
  obtain ⟨number, lower, upper, rfl⟩ := temporary
  exact ⟨number, lower, upper, numbered_fresh "tmp" ⟨number⟩⟩

theorem Temporary.mono {first last first' last' : Nat} {name : String} (temporary : Temporary first last name)
    (lower : first' ≤ first) (upper : last ≤ last') : Temporary first' last' name := by
  obtain ⟨number, after, before, same⟩ := temporary
  exact ⟨number, Nat.le_trans lower after, Nat.lt_of_lt_of_le before upper, same⟩

/-- What is from before a number is no intermediate value from that number on. -/
theorem Temporary.not_before {bound first last : Nat} {name : String} (temporary : Temporary first last name)
    (le : bound ≤ first) : ¬Before bound name := fun before =>
  temporary.minted.ne_before (before.mono le) rfl

theorem Temporary.apart {first middle last : Nat} {name other : String} (early : Temporary first middle name)
    (late : Temporary middle last other) : name ≠ other := by
  rintro rfl
  exact late.not_before le_rfl early.minted.before

namespace Tac

def Instr.reads : Instr → List Value
  | .ret value => [value]
  | .copy source _ | .unary _ source _ => [source]
  | .jumpIfZero cond _ | .jumpIfNotZero cond _ => [cond]
  | .call _ args _ => args
  | .binary _ left right _ => [left, right]
  | .jump _ | .label _ | .unknown _ | .lacking _ | .mention _ => []

/-- The variable that an instruction gives a value. -/
def Instr.writes? : Instr → Option String
  | .copy _ (.var name) | .call _ _ (.var name) | .unary _ _ (.var name) | .binary _ _ _ (.var name) => some name
  | _ => none

/-- Whether control can go on to the next instruction. -/
def Instr.goesOn : Instr → Bool
  | .jump _ | .ret _ => false
  | _ => true

/-- A path through a body from its first instruction, wherever the data may lead it: the instructions it has passed, and
those from its next one on. A conditional jump may be taken or passed. -/
inductive Path (body : List Instr) : List Instr → List Instr → Prop
  | start : Path body [] body
  | on {passed instr rest} : Path body passed (instr :: rest) → instr.goesOn = true → Path body (passed ++ [instr]) rest
  | jump {passed instr rest target next} : Path body passed (instr :: rest) → instr.target? = some target →
      seek target body = some next → Path body (passed ++ [instr]) next

/-- The value can be read: it is a constant, or a variable from before the bound, or one that is known to have a value. -/
def Value.Ready (bound : Nat) (known : Set String) (value : Value) : Prop :=
  ∀ name, value = .var name → Before bound name ∨ name ∈ known

/-- The variables that have a value behind an instruction. Where control never comes to, any variable has one. -/
def Instr.leaves (known : Set String) (instr : Instr) : Set String :=
  {name | instr.goesOn = true → name ∈ known ∨ instr.writes? = some name}

/-- Going through the code line by line, every value can be read where it is read. A table tells which variables have a
value at a label: no fewer have one wherever control comes to it. -/
inductive Assured (bound : Nat) (table : String → Set String) : Set String → List Instr → Set String → Prop
  | nil {known more} : more ⊆ known → Assured bound table known [] more
  | step {known instr rest more} : instr.label? = none → (∀ value ∈ instr.reads, value.Ready bound known) →
      (∀ target ∈ instr.target?, table target ⊆ known) → Assured bound table (instr.leaves known) rest more →
      Assured bound table known (instr :: rest) more
  | label {known name rest more} : table name ⊆ known → Assured bound table (table name) rest more →
      Assured bound table known (.label name :: rest) more

section Assured
variable {bound : Nat} {table : String → Set String} {known wider middle more : Set String} {code rest : List Instr}

theorem Value.Ready.mono {value : Value} (ready : value.Ready bound known) (wide : known ⊆ wider) :
    value.Ready bound wider := fun name same => (ready name same).imp_right (@wide name)

theorem Instr.leaves_mono (instr : Instr) (wide : known ⊆ wider) : instr.leaves known ⊆ instr.leaves wider :=
  fun name here on => (here on).imp_left (@wide name)

theorem Assured.widen (assured : Assured bound table known code more) (wide : known ⊆ wider) :
    Assured bound table wider code more := by
  induction assured generalizing wider with
  | nil fewer => exact .nil (fewer.trans wide)
  | @step known instr rest more plain ready targets _ ih =>
    have still := fun value member => (ready value member).mono wide
    exact .step plain still (fun target found => (targets target found).trans wide) (ih (instr.leaves_mono wide))
  | label here later => exact .label (here.trans wide) later

theorem Assured.append (assured : Assured bound table known code middle) (later : Assured bound table middle rest more) :
    Assured bound table known (code ++ rest) more := by
  induction assured with
  | nil fewer => exact later.widen fewer
  | step plain ready targets _ ih => exact .step plain ready targets (ih later)
  | label here _ ih => exact .label here (ih later)

theorem Assured.behind_label {name : String} {next : List Instr} (assured : Assured bound table known code more)
    (place : .label name :: next <:+ code) : Assured bound table (table name) next more := by
  induction assured with
  | nil => simp at place
  | step plain _ _ _ ih =>
    rcases List.suffix_cons_iff.mp place with same | later
    · cases same
      cases plain
    · exact ih later
  | label here assured ih =>
    rcases List.suffix_cons_iff.mp place with same | later
    · cases same
      exact assured
    · exact ih later

theorem Assured.ready {instr : Instr} (assured : Assured bound table known (instr :: rest) more) :
    ∀ value ∈ instr.reads, value.Ready bound known := by
  cases assured with
  | step _ ready => exact ready
  | label => nofun

/-- Along a path, whatever is known to have a value was written on the way. -/
theorem Assured.path {body passed point : List Instr} (assured : Assured bound table ∅ body more)
    (path : Path body passed point) :
    ∃ known, (∀ name ∈ known, ∃ earlier ∈ passed, earlier.writes? = some name) ∧
      Assured bound table known point more := by
  induction path with
  | start => exact ⟨∅, nofun, assured⟩
  | @on passed instr rest _ goesOn ih =>
    obtain ⟨known, written, here⟩ := ih
    have still : ∀ name ∈ known, ∃ earlier ∈ passed ++ [instr], earlier.writes? = some name := by
      intro name member
      obtain ⟨earlier, among, wrote⟩ := written name member
      exact ⟨earlier, List.mem_append_left _ among, wrote⟩
    cases here with
    | step _ _ _ later =>
      refine ⟨_, fun name member => ?_, later⟩
      rcases member goesOn with old | new
      · exact still name old
      · exact ⟨instr, List.mem_append_right _ (List.mem_singleton_self _), new⟩
    | label below later => exact ⟨_, fun name member => still name (below member), later⟩
  | @jump passed instr rest target next _ jumps found ih =>
    obtain ⟨known, written, here⟩ := ih
    refine ⟨table target, fun name member => ?_, assured.behind_label (label_suffix_of_seek found)⟩
    have below : table target ⊆ known := by
      cases here with
      | step _ _ targets _ => exact targets target jumps
      | label => cases jumps
    obtain ⟨earlier, among, wrote⟩ := written name (below member)
    exact ⟨earlier, List.mem_append_left _ among, wrote⟩

end Assured

end Tac

end IntC
