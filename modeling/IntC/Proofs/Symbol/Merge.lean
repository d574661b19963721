import IntC.Proofs.Symbol.Check
import Mathlib.Data.List.Perm.Basic

namespace IntC

variable {decl : VarDecl} {state : Checking} {old : Initial} {global : Bool} {rest decls : List VarDecl}

namespace SymbolTable

theorem put_of_lookup {name : String} {symbol : Symbol} {entries : List (String × Symbol)}
    (found : entries.lookup name = some symbol) : put name symbol entries = entries := by
  induction entries with
  | nil => cases found
  | cons entry rest ih =>
    obtain ⟨key, old⟩ := entry
    rw [lookup_cons_eq] at found
    by_cases same : key = name
    · rw [if_pos same.symm] at found
      cases found
      rw [put, if_pos same, same]
    · rw [if_neg (Ne.symm same)] at found
      rw [put, if_neg same, ih found]

theorem put_put (name : String) (symbol other : Symbol) (entries : List (String × Symbol)) :
    put name other (put name symbol entries) = put name other entries := by
  induction entries with
  | nil => simp [put]
  | cons entry rest ih => by_cases same : entry.1 = name <;> simp [put, same, ih]

theorem set_of_get? {table : SymbolTable} {name : String} {symbol : Symbol} (found : table.get? name = some symbol) :
    table.set name symbol = table :=
  congrArg SymbolTable.mk (put_of_lookup found)

theorem set_set (table : SymbolTable) (name : String) (symbol other : Symbol) :
    (table.set name symbol).set name other = table.set name other :=
  congrArg SymbolTable.mk (put_put name symbol other table.entries)

end SymbolTable

/-- The constant that a declaration gives to its variable. -/
def VarDecl.constant? (decl : VarDecl) : Option Int :=
  match decl.init with
  | some (.number _ value) => some value
  | _ => none

/-- An initializer that the declaration has is a constant. -/
def VarDecl.HasConstant (decl : VarDecl) : Prop := ∀ init ∈ decl.init, ∃ span value, init = .number span value

/-- What declarations of one variable say together about its initial value: the constant that one of them gives, and
else as much as it takes for one that is not from elsewhere. -/
def jointInitial (decls : List VarDecl) : Initial :=
  match (decls.filterMap VarDecl.constant?).head? with
  | some value => .value value
  | none => if decls.all (·.storage = .external) then .none else .tentative

/-- Declarations that go together if the first declaration of their variable is static or not. -/
structure Compatible (static : Bool) (decls : List VarDecl) : Prop where
  constant : ∀ decl ∈ decls, decl.HasConstant
  once : decls.countP (·.init.isSome) ≤ 1
  linkage : ∀ decl ∈ decls, decl.storage ≠ .external → (decl.storage = .static ↔ static = true)

/-- Checks declarations of variables at file scope, one after the other. -/
def checkGlobals (decls : List VarDecl) : Pass Checking Unit := ({ items := decls.map .var } : Program).check

theorem checkGlobals_cons (decl : VarDecl) (rest : List VarDecl) :
    checkGlobals (decl :: rest) = (do decl.checkAtFileScope; checkGlobals rest) := rfl

def Initial.isValue : Initial → Bool
  | .value _ => true
  | _ => false

theorem Initial.merge_assoc (first second third : Initial) :
    (first.merge second).merge third = first.merge (second.merge third) := by
  cases first <;> cases second <;> cases third <;> rfl

theorem Initial.merge_none (init : Initial) : init.merge .none = init := by
  cases init <;> rfl

theorem Initial.isValue_merge (old new : Initial) : (old.merge new).isValue = (old.isValue || new.isValue) := by
  cases old <;> cases new <;> rfl

theorem jointInitial_cons (decl : VarDecl) (rest : List VarDecl) :
    jointInitial (decl :: rest) = (jointInitial [decl]).merge (jointInitial rest) := by
  unfold jointInitial
  cases given : decl.constant? with
  | some value => simp [given, Initial.merge]
  | none =>
    cases later : (rest.filterMap VarDecl.constant?).head? <;> by_cases external : decl.storage = .external <;>
      by_cases all : rest.all (·.storage = .external) = true <;>
      simp_all [Initial.merge]

theorem Storage.conflicts_iff (storage : Storage) (global : Bool) :
    (storage ≠ .external && global != (storage ≠ .static : Bool)) = true ↔
      ¬(storage ≠ .external → (storage = .static ↔ (!global) = true)) := by
  cases storage <;> cases global <;> decide

/-- A declaration that can follow others of its variable, which have given it an initial value and a linkage. -/
structure VarDecl.Joins (old : Initial) (global : Bool) (decl : VarDecl) : Prop where
  constant : decl.HasConstant
  once : old.isValue = true → decl.init.isSome = false
  linkage : decl.storage ≠ .external → (decl.storage = .static ↔ (!global) = true)

theorem VarDecl.isValue_jointInitial (constant : decl.HasConstant) :
    (jointInitial [decl]).isValue = decl.init.isSome := by
  obtain ⟨span, name, init, storage⟩ := decl
  cases init with
  | none => cases storage <;> rfl
  | some init =>
    obtain ⟨place, value, rfl⟩ := constant init rfl
    rfl

/-- The initial value that a declaration gives is read first; without a constant there is none. -/
theorem VarDecl.meets_of_init (merged : Initial → Pass Checking Unit) {done : Unit → Checking → Prop}
    {failed : Error → Prop} (each : decl.HasConstant → Pass.Meets (merged (jointInitial [decl])) state done failed)
    (other : ¬decl.HasConstant → failed ⟨.notConstant, decl.span⟩) :
    Pass.Meets (match decl.init with
      | some init => do merged (← Initial.value <$> constantInit decl.span init)
      | none => do merged (← pure (if decl.storage = .external then .none else .tentative))) state done failed := by
  obtain ⟨span, name, init, storage⟩ := decl
  cases init with
  | none => cases storage <;> exact each (by rintro _ ⟨⟩)
  | some init =>
    cases init with
    | number place value =>
      refine each ?_
      rintro _ ⟨⟩
      exact ⟨place, value, rfl⟩
    | _ =>
      refine other fun constant => ?_
      obtain ⟨_, _, ⟨⟩⟩ := constant _ rfl

theorem VarDecl.checkAtFileScope_absent (absent : state.symbols.get? decl.name = none) :
    Pass.Meets decl.checkAtFileScope state (fun _ after => decl.HasConstant ∧ after = { state with
        symbols := state.symbols.set decl.name ⟨.int, .static (jointInitial [decl]) (decl.storage ≠ .static)⟩ })
      fun _ => ¬decl.HasConstant := by
  unfold VarDecl.checkAtFileScope
  extract_lets external merged
  refine meets_of_init merged (fun constant => ?_) id
  simp only [merged, Pass.meets_bind, Pass.meets_get, absent]
  exact ⟨constant, rfl⟩

/-- One declaration more of a variable that is known. -/
theorem VarDecl.checkAtFileScope_known (known : state.symbols.get? decl.name = some ⟨.int, .static old global⟩) :
    Pass.Meets decl.checkAtFileScope state (fun _ after => decl.Joins old global ∧ after = { state with
        symbols := state.symbols.set decl.name ⟨.int, .static (old.merge (jointInitial [decl])) global⟩ })
      fun _ => ¬decl.Joins old global := by
  unfold VarDecl.checkAtFileScope
  extract_lets external merged
  refine meets_of_init merged (fun constant => ?_) (mt Joins.constant)
  simp only [merged, Pass.meets_bind, Pass.meets_get, known]
  split
  · rename_i conflict
    rintro ⟨-, -, linkage⟩
    exact (Storage.conflicts_iff decl.storage global).mp conflict linkage
  · rename_i agree
    have linkage := Decidable.not_not.mp (mt (Storage.conflicts_iff decl.storage global).mpr agree)
    have given := isValue_jointInitial constant
    generalize jointInitial [decl] = init at given ⊢
    cases init with
    | value new =>
      cases old with
      | value first =>
        rintro ⟨-, once, -⟩
        exact Bool.noConfusion (given.trans (once rfl))
      | _ => exact ⟨⟨constant, fun was => Bool.noConfusion was, linkage⟩, rfl⟩
    | _ => cases old <;> exact ⟨⟨constant, fun _ => given.symm, linkage⟩, rfl⟩

/-- Declarations that can follow others: they go together, and there is no second initializer. -/
structure Continues (old : Initial) (global : Bool) (decls : List VarDecl) : Prop extends Compatible (!global) decls where
  none : old.isValue = true → decls.countP (·.init.isSome) = 0

theorem continues_nil (old : Initial) (global : Bool) : Continues old global [] where
  constant := List.forall_mem_nil _
  once := Nat.zero_le _
  linkage := List.forall_mem_nil _
  none _ := rfl

theorem continues_cons :
    Continues old global (decl :: rest) ↔
      decl.Joins old global ∧ Continues (old.merge (jointInitial [decl])) global rest := by
  have count : (decl :: rest).countP (·.init.isSome) =
      rest.countP (·.init.isSome) + if decl.init.isSome = true then 1 else 0 := List.countP_cons ..
  constructor
  · rintro ⟨⟨constant, once, linkage⟩, none⟩
    obtain ⟨constant, constantToo⟩ := List.forall_mem_cons.mp constant
    obtain ⟨linkage, linkageToo⟩ := List.forall_mem_cons.mp linkage
    rw [count] at once none
    refine ⟨⟨constant, fun was => ?_, linkage⟩, ⟨constantToo, by omega, linkageToo⟩, fun known => ?_⟩
    · have zero := none was
      cases given : decl.init.isSome <;> simp_all
    · rw [Initial.isValue_merge, VarDecl.isValue_jointInitial constant, Bool.or_eq_true] at known
      rcases known with was | given
      · have zero := none was
        omega
      · rw [if_pos given] at once
        omega
  · rintro ⟨⟨constant, first, linkage⟩, ⟨constantToo, once, linkageToo⟩, none⟩
    rw [Initial.isValue_merge, VarDecl.isValue_jointInitial constant, Bool.or_eq_true] at none
    refine ⟨⟨List.forall_mem_cons.mpr ⟨constant, constantToo⟩, ?_, List.forall_mem_cons.mpr ⟨linkage, linkageToo⟩⟩,
      fun was => ?_⟩
    · rw [count]
      split
      · rename_i given
        have zero := none (.inr given)
        omega
      · exact once
    · rw [count, none (.inl was), first was]
      rfl

/-- Further declarations of a variable that is known. -/
theorem checkGlobals_known {name : String} (named : ∀ decl ∈ decls, decl.name = name)
    (known : state.symbols.get? name = some ⟨.int, .static old global⟩) :
    Pass.Meets (checkGlobals decls) state (fun _ after => Continues old global decls ∧ after = { state with
        symbols := state.symbols.set name ⟨.int, .static (old.merge (jointInitial decls)) global⟩ })
      fun _ => ¬Continues old global decls := by
  induction decls generalizing state old with
  | nil =>
    have same : state.symbols.set name ⟨.int, .static (old.merge (jointInitial [])) global⟩ = state.symbols :=
      SymbolTable.set_of_get? ((Initial.merge_none old).symm ▸ known)
    refine ⟨continues_nil old global, ?_⟩
    rw [same]
    rfl
  | cons decl rest ih =>
    obtain ⟨rfl, namedToo⟩ := List.forall_mem_cons.mp named
    rw [checkGlobals_cons, Pass.meets_bind]
    refine (decl.checkAtFileScope_known known).imp ?_ fun _ apart both => apart (continues_cons.mp both).1
    rintro _ _ ⟨joins, rfl⟩
    refine (ih namedToo ((SymbolTable.get?_set ..).trans (if_pos rfl))).imp ?_
      fun _ apart both => apart (continues_cons.mp both).2
    rintro _ _ ⟨continues, rfl⟩
    refine ⟨continues_cons.mpr ⟨joins, continues⟩, ?_⟩
    rw [SymbolTable.set_set, jointInitial_cons decl rest, Initial.merge_assoc]

/-- At the first declaration there is nothing to follow but its own linkage. -/
theorem compatible_cons {first : VarDecl} :
    Compatible (first.storage = .static) (first :: rest) ↔
      first.HasConstant ∧ Continues (jointInitial [first]) (first.storage ≠ .static) rest := by
  have linked : (!decide (first.storage ≠ .static)) = decide (first.storage = .static) := by simp
  have fresh : Continues .none (first.storage ≠ .static) (first :: rest) ↔
      Compatible (first.storage = .static) (first :: rest) := by
    rw [← linked]
    exact ⟨Continues.toCompatible, fun compatible => ⟨compatible, fun was => Bool.noConfusion was⟩⟩
  have alone : first.Joins .none (first.storage ≠ .static) ↔ first.HasConstant :=
    ⟨VarDecl.Joins.constant, fun constant => ⟨constant, fun was => Bool.noConfusion was, fun _ => by simp⟩⟩
  rw [← fresh, continues_cons, alone]
  rfl

theorem checkGlobals_absent {name : String} {first : VarDecl} (named : ∀ decl ∈ first :: rest, decl.name = name)
    (absent : state.symbols.get? name = none) :
    Pass.Meets (checkGlobals (first :: rest)) state (fun _ after =>
        Compatible (first.storage = .static) (first :: rest) ∧ after = { state with
          symbols := state.symbols.set name ⟨.int, .static (jointInitial (first :: rest)) (first.storage ≠ .static)⟩ })
      fun _ => ¬Compatible (first.storage = .static) (first :: rest) := by
  obtain ⟨rfl, namedToo⟩ := List.forall_mem_cons.mp named
  rw [checkGlobals_cons, Pass.meets_bind]
  refine (first.checkAtFileScope_absent absent).imp ?_ fun _ apart both => apart (compatible_cons.mp both).1
  rintro _ _ ⟨constant, rfl⟩
  refine (checkGlobals_known namedToo ((SymbolTable.get?_set ..).trans (if_pos rfl))).imp ?_
    fun _ apart both => apart (compatible_cons.mp both).2
  rintro _ _ ⟨continues, rfl⟩
  refine ⟨compatible_cons.mpr ⟨constant, continues⟩, ?_⟩
  rw [SymbolTable.set_set, jointInitial_cons first rest]

theorem Compatible.perm {static : Bool} {others : List VarDecl} (same : decls.Perm others)
    (compatible : Compatible static decls) : Compatible static others where
  constant decl member := compatible.constant decl (same.mem_iff.mpr member)
  once := same.countP_eq _ ▸ compatible.once
  linkage decl member := compatible.linkage decl (same.mem_iff.mpr member)

theorem length_constants_le (decls : List VarDecl) :
    (decls.filterMap VarDecl.constant?).length ≤ decls.countP (·.init.isSome) := by
  induction decls with
  | nil => exact Nat.le.refl
  | cons decl rest ih =>
    rw [List.countP_cons, List.filterMap_cons]
    split
    · exact Nat.le_add_right_of_le ih
    · rename_i value given
      have some : decl.init.isSome = true := by
        cases init : decl.init <;> simp_all [VarDecl.constant?]
      rw [if_pos some, List.length_cons]
      exact Nat.succ_le_succ ih

/-- Declarations of which at most one has an initializer say the same in any order. -/
theorem Compatible.jointInitial_eq {static : Bool} {others : List VarDecl} (compatible : Compatible static decls)
    (same : decls.Perm others) : jointInitial decls = jointInitial others := by
  have few := Nat.le_trans (length_constants_le decls) compatible.once
  have constants : decls.filterMap VarDecl.constant? = others.filterMap VarDecl.constant? := by
    have perm := same.filterMap VarDecl.constant?
    rcases Nat.le_one_iff_eq_zero_or_eq_one.mp few with none | one
    · rw [List.length_eq_zero_iff.mp none] at perm ⊢
      exact perm.nil_eq
    · obtain ⟨value, single⟩ := List.length_eq_one_iff.mp one
      rw [single] at perm ⊢
      exact perm.singleton_eq
  have external : decls.all (·.storage = .external) = others.all (·.storage = .external) := by
    rw [Bool.eq_iff_iff, List.all_eq_true, List.all_eq_true]
    simp only [same.mem_iff]
  unfold jointInitial
  rw [constants, external]

/-- The declarations of one variable at file scope, checked in order from a table that does not hold it, are accepted if
and only if every initializer is a constant, at most one of them has an initializer, and all that are not from elsewhere
agree with the first on being static. The entry has the linkage of the first declaration and the initial value that all of
them give together, so another order makes no difference as long as the first one is as static as before. -/
theorem check_merges_globals {name : String} {first : VarDecl} {rest : List VarDecl}
    (named : ∀ decl ∈ first :: rest, decl.name = name) {state : Checking} (absent : state.symbols.get? name = none) :
    ((∃ after, checkGlobals (first :: rest) state = (.ok (), after)) ↔
      Compatible (first.storage = .static) (first :: rest)) ∧
    (∀ after, checkGlobals (first :: rest) state = (.ok (), after) → after = { state with
      symbols := state.symbols.set name ⟨.int, .static (jointInitial (first :: rest)) (first.storage ≠ .static)⟩ }) ∧
    ∀ head others, (head :: others).Perm (first :: rest) → (head.storage = .static ↔ first.storage = .static) →
      ∀ after, checkGlobals (head :: others) state = (.ok (), after) ↔
        checkGlobals (first :: rest) state = (.ok (), after) := by
  have accepted := fun after => (checkGlobals_absent named absent).eq_ok_iff after
  refine ⟨?_, fun after done => ((accepted after).mp done).2, ?_⟩
  · simp only [accepted, exists_and_left, exists_eq, and_true]
  · intro head others same static after
    have namedToo : ∀ decl ∈ head :: others, decl.name = name := fun decl member => named decl (same.mem_iff.mp member)
    have reached := (checkGlobals_absent namedToo absent).eq_ok_iff after
    have alike : decide (head.storage = .static) = decide (first.storage = .static) := decide_eq_decide.mpr static
    have linked : decide (head.storage ≠ .static) = decide (first.storage ≠ .static) :=
      decide_eq_decide.mpr (not_congr static)
    rw [accepted, reached, alike, linked]
    constructor
    · rintro ⟨compatible, rfl⟩
      exact ⟨compatible.perm same, by rw [compatible.jointInitial_eq same]⟩
    · rintro ⟨compatible, rfl⟩
      exact ⟨compatible.perm same.symm, by rw [compatible.jointInitial_eq same.symm]⟩

/-- A variable that is declared as being from elsewhere, declared again and given a value. -/
def scattered : List VarDecl := [
  ⟨{}, "x", none, .external⟩, ⟨{}, "x", none, .automatic⟩, ⟨{}, "x", some (.number {} 3), .automatic⟩]

/-- The value may as well come first. -/
theorem check_merges_globals_scattered :
    Compatible false scattered ∧ jointInitial scattered = .value 3 ∧
    checkGlobals scattered {} = (.ok (), { symbols := ⟨[("x", ⟨.int, .static (.value 3) true⟩)]⟩ }) ∧
    checkGlobals scattered.reverse {} = (.ok (), { symbols := ⟨[("x", ⟨.int, .static (.value 3) true⟩)]⟩ }) := by
  have named : ∀ decl ∈ scattered, decl.name = "x" := by decide
  obtain ⟨accepted, entry, reordered⟩ := @check_merges_globals _ _ _ named {} rfl
  have forward : checkGlobals scattered {} = (.ok (), { symbols := ⟨[("x", ⟨.int, .static (.value 3) true⟩)]⟩ }) := rfl
  refine ⟨accepted.mp ⟨_, forward⟩, rfl, forward, ?_⟩
  exact (reordered _ _ (List.reverse_perm scattered) (by decide) _).mpr forward

end IntC
