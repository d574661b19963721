import IntC.Proofs.Tac.Assigned
import IntC.Proofs.Tac.Lowering
import Mathlib.Data.List.Nodup

namespace IntC

variable {bound : Nat} {known : List String}

namespace Tac

variable {values : List Value} {instr : Instr} {dest done name id : String} {table : String → Set String}
  {known more : Set String}

/-- There is a table under which every value of the code can be read where it is read, as long as no variable needs to
have a value at the outer labels. The table is settled at the labels of the code itself only. -/
def Secured (bound : Nat) (outer : List String) (known : Set String) (code : List Instr) (more : Set String) : Prop :=
  ∃ wants : List (String × Set String), wants.map Prod.fst = labels code ∧ ∀ table : String → Set String,
    (∀ want ∈ wants, table want.1 = want.2) → (∀ name ∈ outer, table name = ∅) → Assured bound table known code more

/-- Whatever is known before, the code of an expression can be passed, and then its value can be read. -/
def Settles (bound : Nat) (code : List Instr) (values : List Value) : Prop :=
  ∀ known, ∃ more, known ⊆ more ∧ (∀ value ∈ values, value.Ready bound more) ∧ Secured bound [] known code more

section Secured
variable {bound : Nat} {outer : List String} {known middle more less : Set String} {code rest : List Instr}
  {instr : Instr}

theorem Value.ready_const (value : Int) : (Value.const value).Ready bound known := nofun

theorem Secured.nil (fewer : more ⊆ known) : Secured bound outer known [] more := ⟨[], rfl, fun _ _ _ => .nil fewer⟩

theorem Secured.append (secured : Secured bound outer known code middle) (later : Secured bound outer middle rest more) :
    Secured bound outer known (code ++ rest) more := by
  obtain ⟨wants, names, first⟩ := secured
  obtain ⟨others, namesToo, second⟩ := later
  refine ⟨wants ++ others, by rw [List.map_append, labels_append, names, namesToo], fun table agrees free => ?_⟩
  obtain ⟨here, there⟩ := List.forall_mem_append.mp agrees
  exact (first table here free).append (second table there free)

theorem Secured.fewer (secured : Secured bound outer known code more) (fewer : less ⊆ more) :
    Secured bound outer known code less := by
  have whole := secured.append (.nil fewer)
  rwa [List.append_nil] at whole

theorem Secured.alone (secured : Secured bound [] known code more) : Secured bound outer known code more := by
  obtain ⟨wants, names, first⟩ := secured
  exact ⟨wants, names, fun table agrees _ => first table agrees nofun⟩

/-- An instruction that does not jump out of the code, or only to outer labels. -/
theorem Secured.single (plain : instr.label? = none) (ready : ∀ value ∈ instr.reads, value.Ready bound known)
    (targets : ∀ target ∈ instr.target?, target ∈ outer) : Secured bound outer known [instr] (instr.leaves known) := by
  refine ⟨[], by simp [plain], fun table _ free => .step plain ready (fun target found => ?_) (.nil subset_rfl)⟩
  rw [free target (targets target found)]
  exact Set.empty_subset known

end Secured

section Settles
variable {bound : Nat} {code rest : List Instr} {value other : Value}

theorem Settles.nil (ready : ∀ value ∈ values, ∀ known, value.Ready bound known) :
    Settles bound [] values := fun known =>
  ⟨known, subset_rfl, fun value member => ready value member known, .nil subset_rfl⟩

theorem Settles.append {others : List Value} (settles : Settles bound code values) (later : Settles bound rest others) :
    Settles bound (code ++ rest) (values ++ others) := by
  intro known
  obtain ⟨middle, wide, ready, first⟩ := settles known
  obtain ⟨more, wider, readyToo, second⟩ := later middle
  refine ⟨more, wide.trans wider, List.forall_mem_append.mpr ⟨fun value member => ?_, readyToo⟩, first.append second⟩
  exact (ready value member).mono wider

/-- An operation on values that can be read has a result that can be read. -/
theorem Settles.operation (settles : Settles bound code values) (reads : instr.reads = values)
    (writes : instr.writes? = some dest) (plain : instr.label? = none) (stays : instr.target? = none) :
    Settles bound (code ++ [instr]) [.var dest] := by
  intro known
  obtain ⟨more, wide, ready, secured⟩ := settles known
  have kept : known ⊆ instr.leaves more := fun name member _ => .inl (wide member)
  refine ⟨instr.leaves more, kept, ?_, secured.append (.single plain (reads ▸ ready) (by simp [stays]))⟩
  intro value member name same
  rw [List.mem_singleton.mp member] at same
  cases same
  exact .inr fun _ => .inr writes

/-- The steps of code at which nothing but control changes, or one variable gets a value. -/
theorem Assured.copy {source : Value} (ready : source.Ready bound known)
    (later : Assured bound table (insert dest known) rest more) :
    Assured bound table known (.copy source (.var dest) :: rest) more := by
  refine .step rfl (List.forall_mem_singleton.mpr ready) nofun (later.widen ?_)
  rintro name (rfl | old) _
  · exact .inr rfl
  · exact .inl old

theorem Assured.jump {target : String} (below : table target ⊆ known) (later : Assured bound table Set.univ rest more) :
    Assured bound table known (.jump target :: rest) more := by
  refine .step rfl nofun ?_ (later.widen fun name _ on => nomatch on)
  rintro _ ⟨⟩
  exact below

theorem Assured.branch {cond : Value} {target : String} (reads : instr.reads = [cond])
    (jumps : instr.target? = some target) (plain : instr.label? = none) (ready : cond.Ready bound known)
    (below : table target ⊆ known) (later : Assured bound table known rest more) :
    Assured bound table known (instr :: rest) more := by
  refine .step plain (by simpa [reads] using ready) ?_ (later.widen fun name old _ => .inl old)
  rw [jumps]
  rintro _ ⟨⟩
  exact below

@[simp] theorem reads_leave (op : ShortCircuit) (cond : Value) (target : String) : (op.leave cond target).reads = [cond] := by
  cases op <;> rfl

@[simp] theorem target?_leave (op : ShortCircuit) (cond : Value) (target : String) :
    (op.leave cond target).target? = some target := by
  cases op <;> rfl

@[simp] theorem writes?_leave (op : ShortCircuit) (cond : Value) (target : String) :
    (op.leave cond target).writes? = none := by
  cases op <;> rfl

/-- Both ways to the end of the code write the result. -/
theorem Settles.shortCircuit (op : ShortCircuit) {short : String} (left : Settles bound code [value])
    (right : Settles bound rest [other]) : Settles bound (code ++ [op.leave value short] ++ rest ++ [
      op.leave other short,
      Instr.copy (.const op.fullValue) (.var dest),
      Instr.jump done,
      Instr.label short,
      Instr.copy (.const op.shortValue) (.var dest),
      Instr.label done]) [.var dest] := by
  intro known
  obtain ⟨first, wide, ready, wants, names, here⟩ := left known
  obtain ⟨second, wider, readyToo, others, namesToo, there⟩ := right first
  rw [List.forall_mem_singleton] at ready readyToo
  refine ⟨insert dest known, Set.subset_insert dest known, ?_,
    wants ++ others ++ [(short, known), (done, insert dest known)], ?_, fun table agrees _ => ?_⟩
  · simp [Value.Ready]
  · simp only [List.map_append, names, namesToo, labels_append, labels_cons, label?_leave]
    simp [Instr.label?]
  · simp only [List.forall_mem_append, List.forall_mem_cons] at agrees
    obtain ⟨⟨agreesHere, agreesThere⟩, atShort, atDone, -⟩ := agrees
    have before := here table agreesHere (List.forall_mem_nil _)
    have after := there table agreesThere (List.forall_mem_nil _)
    simp only [List.append_assoc, List.singleton_append]
    refine before.append (.branch (reads_leave ..) (target?_leave ..) (label?_leave ..) ready (atShort ▸ wide) ?_)
    refine after.append (.branch (reads_leave ..) (target?_leave ..) (label?_leave ..) readyToo
      (atShort ▸ wide.trans wider) ?_)
    refine .copy (Value.ready_const _) (.jump ?_ (.label ?_ (.copy (Value.ready_const _) (.label ?_ (.nil ?_)))))
    · rw [atDone]
      exact Set.insert_subset_insert (wide.trans wider)
    · exact Set.subset_univ _
    · rw [atShort, atDone]
    · rw [atDone]

theorem Settles.conditional {otherwise : String} {no : Value} {noCode : List Instr} (cond : Settles bound code [value])
    (yes : Settles bound rest [other]) (last : Settles bound noCode [no]) :
    Settles bound (code ++ [Instr.jumpIfZero value otherwise] ++ rest
      ++ [Instr.copy other (.var dest), Instr.jump done, Instr.label otherwise] ++ noCode ++ [Instr.copy no (.var dest), Instr.label done]) [.var dest] := by
  intro known
  obtain ⟨first, wide, ready, wants, names, here⟩ := cond known
  obtain ⟨second, wider, readyYes, yesWants, yesNames, there⟩ := yes first
  obtain ⟨third, widen, readyNo, noWants, noNames, behind⟩ := last known
  rw [List.forall_mem_singleton] at ready readyYes readyNo
  refine ⟨insert dest known, Set.subset_insert dest known, by simp [Value.Ready],
    wants ++ yesWants ++ [(otherwise, known)] ++ noWants ++ [(done, insert dest known)], ?_, fun table agrees _ => ?_⟩
  · simp [names, yesNames, noNames, Instr.label?]
  · simp only [List.forall_mem_append, List.forall_mem_cons] at agrees
    obtain ⟨⟨⟨⟨agreesCond, agreesYes⟩, atOtherwise, -⟩, agreesNo⟩, atDone, -⟩ := agrees
    have noPart := behind table agreesNo (List.forall_mem_nil _)
    simp only [List.append_assoc, List.cons_append]
    refine (here table agreesCond (List.forall_mem_nil _)).append (.branch rfl rfl rfl ready (atOtherwise ▸ wide) ?_)
    refine (there table agreesYes (List.forall_mem_nil _)).append (.copy readyYes (.jump ?_ (.label (Set.subset_univ _) ?_)))
    · rw [atDone]
      exact Set.insert_subset_insert (wide.trans wider)
    · rw [atOtherwise]
      refine noPart.append (.copy readyNo (.label ?_ (.nil ?_)))
      · rw [atDone]
        exact Set.insert_subset_insert widen
      · rw [atDone]

end Settles

/-- The code of a statement needs no intermediate value from before, and leaves none behind. -/
abbrev Runs (bound : Nat) (outer : List String) (code : List Instr) : Prop := Secured bound outer ∅ code ∅

section Runs
variable {bound : Nat} {outer : List String} {code rest : List Instr} {cond : Value}

theorem Assured.start {table : String → Set String} {known more : Set String} (assured : Assured bound table ∅ code more) :
    Assured bound table known code more := assured.widen (Set.empty_subset known)

theorem Assured.free (empty : table name = ∅) (later : Assured bound table ∅ rest ∅) :
    Assured bound table known (.label name :: rest) ∅ :=
  .label (empty ▸ Set.empty_subset known) (empty ▸ later)

theorem Settles.runs (settles : Settles bound code values) : Runs bound outer code := by
  obtain ⟨more, -, -, secured⟩ := settles ∅
  exact secured.alone.fewer (Set.empty_subset more)

/-- What reads the value of an expression, and then writes a variable or leaves the code. -/
theorem Settles.reading (settles : Settles bound code values) (reads : instr.reads = values)
    (plain : instr.label? = none) (targets : ∀ target ∈ instr.target?, target ∈ outer) :
    Runs bound outer (code ++ [instr]) := by
  obtain ⟨more, -, ready, secured⟩ := settles ∅
  exact (secured.alone.append (.single plain (reads ▸ ready) targets)).fewer (Set.empty_subset _)

theorem Runs.ifThen (settles : Settles bound code [cond]) (yes : Runs bound outer rest) :
    Runs bound outer (code ++ [Instr.jumpIfZero cond done] ++ rest ++ [Instr.label done]) := by
  obtain ⟨more, -, ready, wants, names, here⟩ := settles ∅
  obtain ⟨others, namesToo, there⟩ := yes
  rw [List.forall_mem_singleton] at ready
  refine ⟨wants ++ others ++ [(done, ∅)], by simp [names, namesToo, Instr.label?], fun table agrees free => ?_⟩
  simp only [List.forall_mem_append, List.forall_mem_singleton] at agrees
  obtain ⟨⟨agreesCond, agreesYes⟩, atDone⟩ := agrees
  have ends : Assured bound table ∅ [.label done] ∅ := .free atDone (.nil subset_rfl)
  simp only [List.append_assoc, List.singleton_append]
  refine (here table agreesCond (List.forall_mem_nil _)).append (.branch rfl rfl rfl ready (atDone ▸ Set.empty_subset more) ?_)
  exact ((there table agreesYes free).append ends).start

theorem Runs.ifElse {otherwise : String} {noCode : List Instr} (settles : Settles bound code [cond])
    (yes : Runs bound outer rest) (no : Runs bound outer noCode) :
    Runs bound outer (code ++ [Instr.jumpIfZero cond otherwise] ++ rest ++ [Instr.jump done, Instr.label otherwise]
      ++ noCode ++ [Instr.label done]) := by
  obtain ⟨more, -, ready, wants, names, here⟩ := settles ∅
  obtain ⟨yesWants, yesNames, there⟩ := yes
  obtain ⟨noWants, noNames, behind⟩ := no
  rw [List.forall_mem_singleton] at ready
  refine ⟨wants ++ yesWants ++ [(otherwise, ∅)] ++ noWants ++ [(done, ∅)], by simp [names, yesNames, noNames, Instr.label?],
    fun table agrees free => ?_⟩
  simp only [List.forall_mem_append, List.forall_mem_singleton] at agrees
  obtain ⟨⟨⟨⟨agreesCond, agreesYes⟩, atOtherwise⟩, agreesNo⟩, atDone⟩ := agrees
  have ends : Assured bound table ∅ [.label done] ∅ := .free atDone (.nil subset_rfl)
  have second : Assured bound table ∅ (Instr.label otherwise :: (noCode ++ [Instr.label done])) ∅ :=
    .free atOtherwise ((behind table agreesNo free).append ends)
  simp only [List.append_assoc, List.cons_append, List.nil_append]
  refine (here table agreesCond (List.forall_mem_nil _)).append (.branch rfl rfl rfl ready (atOtherwise ▸ Set.empty_subset more) ?_)
  exact ((there table agreesYes free).append (.jump atDone.subset second.start)).start

theorem Runs.whileLoop (settles : Settles bound code [cond]) (body : Runs bound (loopLabels [id]) rest) :
    Runs bound outer ([Instr.label (continueTarget id)] ++ code ++ [Instr.jumpIfZero cond (breakTarget id)] ++ rest
      ++ [Instr.jump (continueTarget id), Instr.label (breakTarget id)]) := by
  obtain ⟨more, -, ready, wants, names, here⟩ := settles ∅
  obtain ⟨others, namesToo, there⟩ := body
  rw [List.forall_mem_singleton] at ready
  refine ⟨(continueTarget id, ∅) :: (wants ++ others ++ [(breakTarget id, ∅)]), by simp [names, namesToo, Instr.label?],
    fun table agrees _ => ?_⟩
  simp only [List.forall_mem_append, List.forall_mem_cons] at agrees
  obtain ⟨atContinue, ⟨agreesCond, agreesBody⟩, atBreak, -⟩ := agrees
  have again := there table agreesBody (by simp [atContinue, atBreak])
  have ends : Assured bound table ∅ [.label (breakTarget id)] ∅ := .free atBreak (.nil subset_rfl)
  simp only [List.append_assoc, List.singleton_append]
  refine .free atContinue ((here table agreesCond (List.forall_mem_nil _)).append (.branch rfl rfl rfl ready ?_ ?_))
  · exact atBreak ▸ Set.empty_subset more
  · exact (again.append (.jump atContinue.subset ends.start)).start

theorem Runs.doLoop {start : String} (settles : Settles bound code [cond]) (body : Runs bound (loopLabels [id]) rest) :
    Runs bound outer ([Instr.label start] ++ rest ++ [Instr.label (continueTarget id)] ++ code
      ++ [Instr.jumpIfNotZero cond start, Instr.label (breakTarget id)]) := by
  obtain ⟨more, -, ready, wants, names, here⟩ := settles ∅
  obtain ⟨others, namesToo, there⟩ := body
  rw [List.forall_mem_singleton] at ready
  refine ⟨(start, ∅) :: (others ++ [(continueTarget id, ∅)] ++ wants ++ [(breakTarget id, ∅)]),
    by simp [names, namesToo, Instr.label?], fun table agrees _ => ?_⟩
  simp only [List.forall_mem_append, List.forall_mem_cons] at agrees
  obtain ⟨atStart, ⟨⟨agreesBody, atContinue, -⟩, agreesCond⟩, atBreak, -⟩ := agrees
  have first := there table agreesBody (by simp [atContinue, atBreak])
  have ends : Assured bound table ∅ [.label (breakTarget id)] ∅ := .free atBreak (.nil subset_rfl)
  simp only [List.append_assoc, List.singleton_append]
  refine .free atStart (first.append (.free atContinue ((here table agreesCond (List.forall_mem_nil _)).append ?_)))
  exact .branch rfl rfl rfl ready (atStart ▸ Set.empty_subset more) ends.start

theorem Runs.forLoop {start : String} {init post : List Instr} (first : Runs bound [] init)
    (guard : Runs bound (loopLabels [id]) code) (body : Runs bound (loopLabels [id]) rest) (last : Runs bound [] post) :
    Runs bound outer (init ++ [Instr.label start] ++ code ++ rest ++ [Instr.label (continueTarget id)] ++ post
      ++ [Instr.jump start, Instr.label (breakTarget id)]) := by
  obtain ⟨initWants, initNames, before⟩ := first
  obtain ⟨wants, names, here⟩ := guard
  obtain ⟨others, namesToo, there⟩ := body
  obtain ⟨postWants, postNames, behind⟩ := last
  refine ⟨initWants ++ [(start, ∅)] ++ wants ++ others ++ [(continueTarget id, ∅)] ++ postWants ++ [(breakTarget id, ∅)],
    by simp [initNames, names, namesToo, postNames, Instr.label?], fun table agrees _ => ?_⟩
  simp only [List.forall_mem_append, List.forall_mem_singleton] at agrees
  obtain ⟨⟨⟨⟨⟨⟨agreesInit, atStart⟩, agreesCond⟩, agreesBody⟩, atContinue⟩, agreesPost⟩, atBreak⟩ := agrees
  have free : ∀ name ∈ loopLabels [id], table name = ∅ := by simp [atContinue, atBreak]
  have ends : Assured bound table ∅ [.label (breakTarget id)] ∅ := .free atBreak (.nil subset_rfl)
  simp only [List.append_assoc, List.singleton_append]
  refine (before table agreesInit (List.forall_mem_nil _)).append (.free atStart ?_)
  refine (here table agreesCond free).append ((there table agreesBody free).append (.free atContinue ?_))
  exact (behind table agreesPost (List.forall_mem_nil _)).append (.jump atStart.subset ends.start)

end Runs

/-- An operation on values, or a call. -/
def Instr.operates : Instr → Bool
  | .unary .. | .binary .. | .call .. => true
  | _ => false

/-- The variables that operations and calls write, in their order. -/
def results (code : List Instr) : List String := (code.filter Instr.operates).filterMap Instr.writes?

/-- The variables that all other instructions write. -/
def copies (code : List Instr) : List String := (code.filter (!·.operates)).filterMap Instr.writes?

section Results
variable {instr : Instr} {code rest : List Instr}

@[simp] theorem results_nil : results [] = [] := rfl

@[simp] theorem copies_nil : copies [] = [] := rfl

@[simp] theorem results_append : results (code ++ rest) = results code ++ results rest := by simp [results]

@[simp] theorem copies_append : copies (code ++ rest) = copies code ++ copies rest := by simp [copies]

@[simp] theorem results_cons :
    results (instr :: rest) = (if instr.operates then instr.writes?.toList else []) ++ results rest := by
  unfold results
  by_cases operates : instr.operates = true
  · cases written : instr.writes? <;> simp [operates, written]
  · simp [operates]

@[simp] theorem copies_cons :
    copies (instr :: rest) = (if instr.operates then [] else instr.writes?.toList) ++ copies rest := by
  unfold copies
  by_cases operates : instr.operates = true
  · simp [operates]
  · cases written : instr.writes? <;> simp [operates, written]

@[simp] theorem operates_leave (op : ShortCircuit) (cond : Value) (target : String) :
    (op.leave cond target).operates = false := by
  cases op <;> rfl

theorem mem_results : name ∈ results code ↔ ∃ instr ∈ code, instr.operates = true ∧ instr.writes? = some name := by
  simp [results, and_assoc]

theorem mem_copies : name ∈ copies code ↔ ∃ instr ∈ code, instr.operates = false ∧ instr.writes? = some name := by
  simp [copies, and_assoc]

end Results

/-- What code writes: every operation an intermediate value of its own, given out in between, and all other instructions
variables from before the bound or intermediate values that no operation writes. -/
structure Writes (bound first last : Nat) (code : List Instr) : Prop where
  le : first ≤ last
  results : ∀ name ∈ results code, Temporary first last name
  distinct : (Tac.results code).Nodup
  copies : ∀ name ∈ copies code, Before bound name ∨ Temporary first last name ∧ name ∉ Tac.results code

section Writes
variable {bound first middle last : Nat} {code rest : List Instr}

theorem Writes.nil (le : first ≤ last) : Writes bound first last [] := ⟨le, nofun, List.nodup_nil, nofun⟩

theorem Writes.widen {first' noPart : Nat} (writes : Writes bound first last code) (lower : first' ≤ first)
    (upper : last ≤ noPart) : Writes bound first' noPart code := by
  refine ⟨Nat.le_trans lower (Nat.le_trans writes.le upper), fun name member => (writes.results name member).mono lower upper,
    writes.distinct, fun name member => (writes.copies name member).imp_right ?_⟩
  rintro ⟨temporary, apart⟩
  exact ⟨temporary.mono lower upper, apart⟩

theorem Writes.append (writes : Writes bound first middle code) (later : Writes bound middle last rest) :
    Writes bound first last (code ++ rest) := by
  refine ⟨Nat.le_trans writes.le later.le, ?_, ?_, ?_⟩
  · rw [results_append, List.forall_mem_append]
    exact ⟨fun name member => (writes.results name member).mono le_rfl later.le,
      fun name member => (later.results name member).mono writes.le le_rfl⟩
  · rw [results_append, List.nodup_append]
    exact ⟨writes.distinct, later.distinct, fun name here other there =>
      (writes.results name here).apart (later.results other there)⟩
  · rw [copies_append, results_append, List.forall_mem_append]
    refine ⟨fun name member => ?_, fun name member => ?_⟩
    · rcases writes.copies name member with old | ⟨temporary, apart⟩
      · exact .inl old
      · refine .inr ⟨temporary.mono le_rfl later.le, fun among => ?_⟩
        rcases List.mem_append.mp among with here | there
        · exact apart here
        · exact temporary.apart (later.results name there) rfl
    · rcases later.copies name member with old | ⟨temporary, apart⟩
      · exact .inl old
      · refine .inr ⟨temporary.mono writes.le le_rfl, fun among => ?_⟩
        rcases List.mem_append.mp among with here | there
        · exact (writes.results name here).apart temporary rfl
        · exact apart there

/-- Instructions that are no operations may stand in between, as long as they write no result of one. -/
theorem Writes.extend {whole : List Instr} (writes : Writes bound first last code) (same : Tac.results whole = Tac.results code)
    (more : ∀ name ∈ Tac.copies whole, name ∈ Tac.copies code ∨ Before bound name ∨
      Temporary first last name ∧ name ∉ Tac.results code) : Writes bound first last whole := by
  refine ⟨writes.le, same ▸ writes.results, same ▸ writes.distinct, fun name member => ?_⟩
  rw [same]
  rcases more name member with old | other
  · exact writes.copies name old
  · exact other

/-- Instructions that write nothing may stand around the code of a statement. -/
theorem Writes.around {first' : Nat} {whole : List Instr} (writes : Writes bound first last code) (lower : first' ≤ first)
    (same : Tac.results whole = Tac.results code) (still : Tac.copies whole = Tac.copies code) :
    Writes bound first' last whole :=
  (writes.widen lower le_rfl).extend same fun _ member => .inl (still ▸ member)

theorem Writes.operation {names : NameSupply} (writes : Writes bound first names.next code)
    (operates : instr.operates = true) (written : instr.writes? = some names.temp.1) :
    Writes bound first names.temp.2.next (code ++ [instr]) := by
  refine writes.append ⟨Nat.le_succ _, ?_, ?_, ?_⟩
  · simp only [results_cons, operates, written]
    simpa using ⟨names.next, le_rfl, Nat.lt_succ_self _, rfl⟩
  · simp [operates, written]
  · simp [operates]

end Writes

end Tac

open Tac

/-- The code of expressions: it writes intermediate values only once they are needed, and then their values can be read. -/
structure Delivers (bound first last : Nat) (code : List Instr) (values : List Value) : Prop where
  writes : Writes bound first last code
  settles : Settles bound code values

section Delivers
variable {bound first middle last : Nat} {code rest : List Instr} {value other : Value}

theorem Delivers.shortCircuit (op : ShortCircuit) {short done : String} (left : Delivers bound (first + 3) middle code [value])
    (right : Delivers bound middle last rest [other]) : Delivers bound first last (code ++ [op.leave value short] ++ rest ++ [
      op.leave other short,
      Instr.copy (.const op.fullValue) (.var (NameSupply.temp ⟨first + 2⟩).1),
      Instr.jump done,
      Instr.label short,
      Instr.copy (.const op.shortValue) (.var (NameSupply.temp ⟨first + 2⟩).1),
      Instr.label done]) [.var (NameSupply.temp ⟨first + 2⟩).1] := by
  have operands := left.writes.append right.writes
  have dest : Temporary first (first + 3) (NameSupply.temp ⟨first + 2⟩).1 := ⟨first + 2, by omega, by omega, rfl⟩
  have apart : (NameSupply.temp ⟨first + 2⟩).1 ∉ results (code ++ rest) := fun member =>
    dest.apart (operands.results _ member) rfl
  refine ⟨(operands.widen (by omega : first ≤ first + 3) le_rfl).extend ?_ fun name member => ?_,
    left.settles.shortCircuit op right.settles⟩
  · simp [Instr.operates]
  · have parts : name ∈ copies (code ++ rest) ∨ name = (NameSupply.temp ⟨first + 2⟩).1 := by
      simp only [copies_append, copies_cons, operates_leave, writes?_leave] at member
      simp [Instr.operates, Instr.writes?] at member ⊢
      tauto
    rcases parts with old | rfl
    · exact .inl old
    · exact .inr (.inr ⟨dest.mono le_rfl operands.le, apart⟩)

theorem Delivers.conditional {second third : Nat} {otherwise done : String} {noCode : List Instr} {no : Value}
    (cond : Delivers bound first second code [value]) (yes : Delivers bound (second + 1) third rest [other])
    (noPart : Delivers bound (third + 2) last noCode [no]) :
    Delivers bound first last (code ++ [Instr.jumpIfZero value otherwise] ++ rest
      ++ [Instr.copy other (.var (NameSupply.temp ⟨third⟩).1), Instr.jump done, Instr.label otherwise] ++ noCode
      ++ [Instr.copy no (.var (NameSupply.temp ⟨third⟩).1), Instr.label done]) [.var (NameSupply.temp ⟨third⟩).1] := by
  have before := cond.writes.append (yes.writes.widen (Nat.le_succ second) le_rfl)
  have dest : Temporary third (third + 2) (NameSupply.temp ⟨third⟩).1 := ⟨third, by omega, by omega, rfl⟩
  have whole := before.append (noPart.writes.widen (Nat.le_add_right third 2) le_rfl)
  have apart : (NameSupply.temp ⟨third⟩).1 ∉ results (code ++ rest ++ noCode) := by
    rw [results_append, List.mem_append]
    rintro (early | late)
    · exact (before.results _ early).apart dest rfl
    · exact dest.apart (noPart.writes.results _ late) rfl
  refine ⟨whole.extend ?_ fun name member => ?_, cond.settles.conditional yes.settles noPart.settles⟩
  · simp [Instr.operates]
  · have parts : name ∈ copies (code ++ rest ++ noCode) ∨ name = (NameSupply.temp ⟨third⟩).1 := by
      simp [Instr.operates, Instr.writes?] at member ⊢
      tauto
    rcases parts with old | rfl
    · exact .inl old
    · exact .inr (.inr ⟨dest.mono before.le noPart.writes.le, apart⟩)

end Delivers

mutual

/-- Whatever an expression is, its code gives every intermediate value before it reads it. -/
theorem Expr.Lowered.delivers {bound : Nat} {known : List String} (old : AllBefore bound known) {expr : Expr}
    {first last : Nat} {code : List Instr} {value : Value} :
    expr.Lowered first last code value → expr.Uses known → Delivers bound first last code [value]
  | .number, _ => ⟨.nil le_rfl, .nil (List.forall_mem_singleton.mpr fun _ => Value.ready_const _)⟩
  | .ident, uses => by
    refine ⟨.nil le_rfl, .nil (List.forall_mem_singleton.mpr ?_)⟩
    rintro known _ ⟨⟩
    exact .inl (old _ uses)
  | .unary _ operand, uses => by
    obtain ⟨writes, settles⟩ := operand.delivers old uses.2
    exact ⟨writes.operation rfl rfl, settles.operation rfl rfl rfl rfl⟩
  | .shortCircuit meaning _ left right, uses =>
    (left.delivers old uses.2.1).shortCircuit meaning (right.delivers old uses.2.2)
  | .binary _ _ left right, uses => by
    obtain ⟨writes, settles⟩ := left.delivers old uses.2.1
    obtain ⟨writesToo, settlesToo⟩ := right.delivers old uses.2.2
    exact ⟨(writes.append writesToo).operation rfl rfl, (settles.append settlesToo).operation rfl rfl rfl rfl⟩
  | .assign value, uses => by
    obtain ⟨writes, settles⟩ := value.delivers old uses.2
    refine ⟨writes.extend (by simp [Instr.operates]) fun other member => ?_, settles.operation rfl rfl rfl rfl⟩
    rw [copies_append, List.mem_append] at member
    refine member.imp_right fun same => .inl ?_
    rw [List.mem_singleton.mp same]
    exact old _ uses.1
  | .conditional cond yes no, uses =>
    (cond.delivers old uses.1).conditional (yes.delivers old uses.2.1) (no.delivers old uses.2.2)
  | .call args, uses => by
    obtain ⟨writes, settles⟩ := args.delivers old uses.2
    exact ⟨writes.operation rfl rfl, settles.operation rfl rfl rfl rfl⟩

theorem ArgsLowered.delivers {bound : Nat} {known : List String} (old : AllBefore bound known) {args : List Expr}
    {first last : Nat} {code : List Instr} {values : List Value} :
    ArgsLowered args first last code values → argsUse known args → Delivers bound first last code values
  | .nil, _ => ⟨.nil le_rfl, .nil nofun⟩
  | .cons arg rest, uses => by
    obtain ⟨writes, settles⟩ := arg.delivers old uses.1
    obtain ⟨writesToo, settlesToo⟩ := rest.delivers old uses.2
    exact ⟨writes.append writesToo, settles.append settlesToo⟩

end

/-- The code of a statement: it writes intermediate values as that of expressions does, and each is read only behind
where it is written. -/
structure Performs (bound first last : Nat) (outer : List String) (code : List Instr) : Prop where
  writes : Writes bound first last code
  runs : Runs bound outer code

section Performs
variable {bound first middle last : Nat} {outer : List String} {code rest : List Instr} {values : List Value}

theorem Performs.nil (le : first ≤ last) : Performs bound first last outer [] := ⟨.nil le, .nil subset_rfl⟩

theorem Performs.append (performs : Performs bound first middle outer code) (later : Performs bound middle last outer rest) :
    Performs bound first last outer (code ++ rest) :=
  ⟨performs.writes.append later.writes, performs.runs.append later.runs⟩

theorem Performs.alone (performs : Performs bound first last [] code) : Performs bound first last outer code :=
  ⟨performs.writes, performs.runs.alone⟩

theorem Delivers.performs (delivers : Delivers bound first last code values) : Performs bound first last outer code :=
  ⟨delivers.writes, delivers.settles.runs⟩

/-- The instruction that an expression is evaluated for: a return, a jump, or a copy to a variable of the source. -/
theorem Delivers.reading {instr : Instr} (delivers : Delivers bound first last code values) (reads : instr.reads = values)
    (quiet : instr.operates = false) (written : ∀ name ∈ instr.writes?, Before bound name) (plain : instr.label? = none)
    (targets : ∀ target ∈ instr.target?, target ∈ outer) : Performs bound first last outer (code ++ [instr]) := by
  refine ⟨delivers.writes.extend (by simp [quiet]) fun name member => ?_, delivers.settles.reading reads plain targets⟩
  have parts : name ∈ copies code ∨ instr.writes? = some name := by simpa [quiet] using member
  rcases parts with old | here
  · exact .inl old
  · exact .inr (.inl (written name here))

end Performs

section Parts
variable {first last : Nat} {code : List Instr}

theorem VarDecl.Lowered.performs (old : AllBefore bound known) {decl : VarDecl} (lowered : decl.Lowered first last code)
    (fits : decl.Bound bound known) : Performs bound first last [] code := by
  have named : Before bound decl.name := fits.before le_rfl
  cases lowered with
  | initialized init =>
    have inside := ((VarDecl.bound_of_ne_external (by exact nofun)).mp fits).2
    have delivers := init.delivers (List.forall_mem_cons.mpr ⟨named, old⟩) (inside _ rfl)
    refine delivers.reading rfl rfl ?_ rfl nofun
    rintro _ ⟨⟩
    exact named
  | silent => exact .nil le_rfl

theorem ForInit.Lowered.performs (old : AllBefore bound known) {init : ForInit} (lowered : init.Lowered first last code)
    (fits : init.Bound bound known) : Performs bound first last [] code := by
  cases lowered with
  | none => exact .nil le_rfl
  | var decl => exact decl.performs old fits
  | expr value => exact (value.delivers old fits).performs

theorem GuardLowered.performs (old : AllBefore bound known) {id : String} {cond : Option Expr}
    (lowered : GuardLowered id cond first last code) (uses : ∀ value ∈ cond, value.Uses known) :
    Performs bound first last (loopLabels [id]) code := by
  cases lowered with
  | none => exact .nil le_rfl
  | some cond =>
    refine (cond.delivers old (uses _ rfl)).reading rfl rfl nofun rfl ?_
    rintro _ ⟨⟩
    simp

theorem PostLowered.performs (old : AllBefore bound known) {post : Option Expr}
    (lowered : PostLowered post first last code) (uses : ∀ value ∈ post, value.Uses known) :
    Performs bound first last [] code := by
  cases lowered with
  | none => exact .nil le_rfl
  | some post => exact (post.delivers old (uses _ rfl)).performs

end Parts

mutual

theorem Stmt.Lowered.performs {bound : Nat} {known : List String} {loop : Option String} {stmt : Stmt} {first last : Nat}
    {code : List Instr} (old : AllBefore bound known) : stmt.Lowered first last code → stmt.Bound bound known →
      stmt.Labelled loop → Performs bound first last (loopLabels loop.toList) code
  | .ret value, fits, _ => (value.delivers old fits).reading rfl rfl nofun rfl nofun
  | .expr value, fits, _ => (value.delivers old fits).performs
  | .ifThen cond yes, fits, labelled => by
    obtain ⟨writes, settles⟩ := cond.delivers old fits.1
    obtain ⟨yesWrites, yesRuns⟩ := yes.performs old fits.2 labelled
    have parts := writes.append (yesWrites.widen (Nat.le_succ _) le_rfl)
    refine ⟨parts.around le_rfl ?_ ?_, .ifThen settles yesRuns⟩
    · simp [Instr.operates]
    · simp [Instr.operates, Instr.writes?]
  | .ifElse cond yes no, fits, labelled => by
    obtain ⟨writes, settles⟩ := cond.delivers old fits.1
    obtain ⟨yesWrites, yesRuns⟩ := yes.performs old fits.2.1 labelled.1
    obtain ⟨noWrites, noRuns⟩ := no.performs old fits.2.2 labelled.2
    have parts := writes.append ((yesWrites.widen (Nat.le_succ _) (Nat.le_succ _)).append noWrites)
    refine ⟨parts.around le_rfl ?_ ?_, .ifElse settles yesRuns noRuns⟩
    · simp [Instr.operates]
    · simp [Instr.operates, Instr.writes?]
  | .block items, fits, labelled => items.performs old fits labelled
  | .breakLoop, _, labelled | .continueLoop, _, labelled => by
    cases labelled
    have empty : Delivers bound first first [] [] := ⟨.nil le_rfl, .nil nofun⟩
    refine empty.reading rfl rfl nofun rfl ?_
    rintro _ ⟨⟩
    simp
  | .whileLoop _ cond body, fits, labelled => by
    obtain ⟨writes, settles⟩ := cond.delivers old fits.1
    obtain ⟨bodyWrites, bodyRuns⟩ := body.performs old fits.2 labelled
    refine ⟨(writes.append bodyWrites).around le_rfl ?_ ?_, .whileLoop settles bodyRuns⟩
    · simp [Instr.operates]
    · simp [Instr.operates, Instr.writes?]
  | .doLoop _ body cond, fits, labelled => by
    obtain ⟨bodyWrites, bodyRuns⟩ := body.performs old fits.1 labelled
    obtain ⟨writes, settles⟩ := cond.delivers old fits.2
    refine ⟨(bodyWrites.append writes).around (Nat.le_succ first) ?_ ?_, .doLoop settles bodyRuns⟩
    · simp [Instr.operates]
    · simp [Instr.operates, Instr.writes?]
  | .forLoop _ init cond body post, fits, labelled => by
    obtain ⟨initFits, condUses, postUses, bodyFits⟩ := fits
    have more := List.forall_mem_append.mpr ⟨initFits.before le_rfl, old⟩
    obtain ⟨initWrites, initRuns⟩ := init.performs old initFits
    obtain ⟨condWrites, condRuns⟩ := cond.performs more condUses
    obtain ⟨bodyWrites, bodyRuns⟩ := body.performs more bodyFits labelled
    obtain ⟨postWrites, postRuns⟩ := post.performs more postUses
    have parts := initWrites.append (condWrites.append (bodyWrites.append postWrites))
    refine ⟨parts.around (Nat.le_succ first) ?_ ?_, .forLoop initRuns condRuns bodyRuns postRuns⟩
    · simp [Instr.operates]
    · simp [Instr.operates, Instr.writes?]
  | .empty, _, _ => .nil le_rfl

theorem ItemsLowered.performs {bound : Nat} {known : List String} {loop : Option String} {items : List Item}
    {first last : Nat} {code : List Instr} (old : AllBefore bound known) : ItemsLowered items first last code →
      itemsBound bound known items → itemsLabelled loop items → Performs bound first last (loopLabels loop.toList) code
  | .nil, _, _ => .nil le_rfl
  | .func rest, fits, labelled =>
    rest.performs (List.forall_mem_cons.mpr ⟨fits.1.1.before _, old⟩) fits.2 labelled
  | .var decl rest, fits, labelled =>
    (decl.performs old fits.1).alone.append
      (rest.performs (List.forall_mem_cons.mpr ⟨fits.1.before le_rfl, old⟩) fits.2 labelled)
  | .stmt stmt rest, fits, labelled =>
    (stmt.performs old fits.1 labelled.1).append (rest.performs old fits.2 labelled.2)

end

section Accepted
variable {bound first last : Nat} {program : Program} {symbols : SymbolTable}

theorem Accepted.performs {made : FuncDecl × Block} {func : Tac.Func} (accepted : Accepted bound program symbols)
    (member : made ∈ definitions program.items) (lowered : FuncDecl.Lowered symbols made first last func) :
    Performs bound first last [] func.body := by
  obtain ⟨among, defined⟩ := mem_definitions.mp member
  obtain ⟨known, old, fits⟩ := accepted.scope among defined
  obtain ⟨marked, -⟩ := accepted.labelled made.1 among made.2 defined
  cases lowered with
  | made _ body =>
    have zero : Delivers bound last last [] [.const 0] := by
      refine ⟨.nil le_rfl, .nil ?_⟩
      exact List.forall_mem_singleton.mpr fun known => Value.ready_const 0
    exact (body.performs old fits marked).append (zero.reading rfl rfl nofun rfl nofun)

/-- All the code of a unit, one function behind the other, and each of them. -/
theorem UnitLowered.performs {made : List (FuncDecl × Block)} {funcs : List Tac.Func}
    (lowered : UnitLowered symbols made first last funcs) (accepted : Accepted bound program symbols)
    (inside : ∀ one ∈ made, one ∈ definitions program.items) :
    Writes bound first last (funcs.flatMap Tac.Func.body) ∧ ∀ func ∈ funcs, Runs bound [] func.body := by
  induction lowered with
  | nil => exact ⟨.nil le_rfl, nofun⟩
  | cons here _ ih =>
    obtain ⟨member, others⟩ := List.forall_mem_cons.mp inside
    obtain ⟨writes, runs⟩ := ih others
    have performs := accepted.performs member here
    exact ⟨performs.writes.append writes, List.forall_mem_cons.mpr ⟨performs.runs, runs⟩⟩

theorem Accepted.lower_performs (accepted : Accepted bound program symbols) (names : NameSupply) :
    Pass.Meets (program.lower symbols) names (fun code after =>
      Writes bound names.next after.next (code.funcs.flatMap Tac.Func.body) ∧ ∀ func ∈ code.funcs, Runs bound [] func.body)
      fun _ => False :=
  (accepted.lower_meets names).mono fun _ _ lowered => lowered.performs accepted fun _ member => member

end Accepted

theorem Tac.Runs.exists_table {code : List Instr} (runs : Runs bound [] code) (distinct : (Tac.labels code).Nodup) :
    ∃ table, Assured bound table ∅ code ∅ := by
  obtain ⟨wants, names, assured⟩ := runs
  rw [← names] at distinct
  refine ⟨fun name => { known | ∃ want ∈ wants, want.1 = name ∧ known ∈ want.2 }, assured _ ?_ nofun⟩
  intro want member
  refine Set.Subset.antisymm ?_ fun known inside => ⟨want, member, rfl, inside⟩
  rintro known ⟨other, among, same, inside⟩
  have only : other = want := List.inj_on_of_nodup_map distinct among member same
  exact only ▸ inside

end IntC
