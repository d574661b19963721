import IntC.Proofs.Pass
import IntC.Proofs.Tree.Weight
import IntC.Symbol.Check
import Mathlib.Data.List.Nodup

namespace IntC

namespace SymbolTable

theorem names_put (name : String) (symbol : Symbol) (entries : List (String × Symbol)) :
    (put name symbol entries).map Prod.fst =
      if name ∈ entries.map Prod.fst then entries.map Prod.fst else entries.map Prod.fst ++ [name] := by
  induction entries with
  | nil => rfl
  | cons entry rest ih =>
    unfold put
    by_cases same : entry.1 = name
    · simp [same]
    · have other : name ≠ entry.1 := fun equal => same equal.symm
      simp only [if_neg same, List.map_cons, ih, List.mem_cons, other, false_or]
      split <;> rfl

theorem nodup_names_set {table : SymbolTable} (name : String) (symbol : Symbol) (distinct : table.names.Nodup) :
    (table.set name symbol).names.Nodup := by
  have names := names_put name symbol table.entries
  unfold SymbolTable.names SymbolTable.set at *
  rw [names]
  split
  · exact distinct
  · rename_i new
    refine List.nodup_append.mpr ⟨distinct, List.nodup_singleton _, fun other old added listed same => ?_⟩
    exact new (List.mem_singleton.mp listed ▸ same ▸ old)

theorem mem_entries {table : SymbolTable} {name : String} {symbol : Symbol} (found : table.get? name = some symbol) :
    (name, symbol) ∈ table.entries := by
  obtain ⟨before, after, same, -⟩ := List.lookup_eq_some_iff.mp found
  rw [same]
  exact List.mem_append_right _ List.mem_cons_self

theorem mem_put {name : String} {symbol : Symbol} {entries : List (String × Symbol)} {entry : String × Symbol}
    (member : entry ∈ put name symbol entries) : entry = (name, symbol) ∨ entry ∈ entries := by
  induction entries with
  | nil => exact .inl (List.mem_singleton.mp member)
  | cons first rest ih =>
    unfold put at member
    split at member
    · exact (List.mem_cons.mp member).imp_right (List.mem_cons_of_mem _)
    · rcases List.mem_cons.mp member with rfl | inside
      · exact .inr List.mem_cons_self
      · exact (ih inside).imp_right (List.mem_cons_of_mem _)

end SymbolTable

/-- An initial value that is not there by default keeps to the limit. -/
def Initial.Light (w : Weights) (limit : Nat) : Initial → Prop
  | .value constant => constant = 0 ∨ w.value constant ≤ limit
  | _ => True

theorem Initial.Light.merge {w : Weights} {limit : Nat} {old new : Initial} (light : old.Light w limit)
    (lightToo : new.Light w limit) : (old.merge new).Light w limit := by
  cases old with
  | value => exact light
  | none => exact lightToo
  | tentative => cases new <;> exact lightToo

def SymbolAttr.Light (w : Weights) (limit : Nat) : SymbolAttr → Prop
  | .static init _ => init.Light w limit
  | _ => True

/-- Every name stands at one place, and neither a name nor an initial value weighs more than the limit. -/
structure SymbolTable.Light (w : Weights) (limit : Nat) (table : SymbolTable) : Prop where
  distinct : table.names.Nodup
  entries : ∀ entry ∈ table.entries, w.name entry.1 ≤ limit ∧ entry.2.attr.Light w limit

/-- A step of checking keeps the table to the limit. -/
def Records (w : Weights) (limit : Nat) {α : Type} (pass : Pass Checking α) : Prop :=
  ∀ state, state.symbols.Light w limit → Pass.Meets pass state (fun _ after => after.symbols.Light w limit) fun _ => True

section Records
variable {w : Weights} {limit : Nat} {α β : Type}

theorem Records.bind {pass : Pass Checking α} {f : α → Pass Checking β} (first : Records w limit pass)
    (later : ∀ a, Records w limit (f a)) : Records w limit (pass >>= f) :=
  fun state light => (first state light).bind fun a middle lightToo => later a middle lightToo

theorem Records.pure (a : α) : Records w limit (pure a : Pass Checking α) := fun _ light => light

theorem Records.get_bind {f : Checking → Pass Checking β}
    (later : ∀ state, state.symbols.Light w limit → Records w limit (f state)) :
    Records w limit ((get : Pass Checking Checking) >>= f) :=
  fun state light => later state light state light

theorem Records.fail (cause : Cause) (span : Span) : Records w limit (Pass.fail cause span : Pass Checking α) :=
  fun _ _ => trivial

theorem Records.check (outcome : Except Error α) : Records w limit (Pass.check outcome : Pass Checking α) := by
  intro state light
  cases outcome with
  | error => trivial
  | ok => exact light

theorem Records.warn (caution : Caution) (span : Span) : Records w limit (Checking.warn caution span) :=
  fun _ light => light

theorem Records.record {name : String} {symbol : Symbol} (light : w.name name ≤ limit)
    (lightToo : symbol.attr.Light w limit) : Records w limit (Checking.record name symbol) := by
  refine fun state old => ⟨SymbolTable.nodup_names_set name symbol old.distinct, fun entry member => ?_⟩
  rcases SymbolTable.mem_put member with rfl | inside
  · exact ⟨light, lightToo⟩
  · exact old.entries entry inside

/-- What comes behind a test is come to only if the test does not fail. -/
theorem Records.guard {cond : Prop} [Decidable cond] {cause : Cause} {span : Span} {rest : PUnit → Pass Checking α}
    (later : ∀ done, Records w limit (rest done)) :
    Records w limit (if cond then Pass.fail cause span >>= rest else rest ()) := by
  split
  · exact .bind (.fail _ _) later
  · exact later ()

theorem Records.use (value : Expr) : Records w limit (checkUse value) := .get_bind fun _ _ => .check _

theorem Records.optionalUse (value : Option Expr) : Records w limit (checkOptionalUse value) := by
  cases value with
  | none => exact .pure ()
  | some value => exact .use value

theorem VarDecl.checkAtFileScope_records {decl : VarDecl} (light : decl.weight w ≤ limit) :
    Records w limit decl.checkAtFileScope := by
  rw [VarDecl.weight] at light
  unfold VarDecl.checkAtFileScope
  extract_lets global merged
  have each : ∀ init, Initial.Light w limit init → Records w limit (merged init) := by
    intro init worth
    refine Records.get_bind fun state known => ?_
    split
    · exact .record (by omega) worth
    · exact .fail _ _
    · rename_i old _ found
      have lightOld := (known.entries _ (SymbolTable.mem_entries found)).2
      refine .guard fun _ => ?_
      split
      · exact .fail _ _
      · exact .record (by omega) (lightOld.merge worth)
    · exact fun _ _ => trivial
  cases given : decl.init with
  | none => exact each _ (by split <;> trivial)
  | some init =>
    rw [given, optionalWeight] at light
    cases init with
    | number _ value => exact each (.value value) (.inr (by rw [Expr.weight] at light; omega))
    | _ => exact fun _ _ => trivial

theorem VarDecl.checkLocal_records {decl : VarDecl} (light : decl.weight w ≤ limit) :
    Records w limit decl.checkLocal := by
  rw [VarDecl.weight] at light
  unfold VarDecl.checkLocal
  split
  · refine .guard fun _ => Records.get_bind fun state _ => ?_
    split
    · exact .fail _ _
    · exact .pure ()
    · exact .record (by omega) trivial
  · cases given : decl.init with
    | none => exact .record (by omega) (.inl rfl)
    | some init =>
      rw [given, optionalWeight] at light
      cases init with
      | number _ value => exact .record (by omega) (.inr (by rw [Expr.weight] at light; omega))
      | _ => exact fun _ _ => trivial
  · exact .bind (.record (by omega) trivial) fun _ => .optionalUse _

theorem FuncDecl.checkDeclaration_records {decl : FuncDecl} (light : w.name decl.name ≤ limit) :
    Records w limit decl.checkDeclaration := by
  unfold FuncDecl.checkDeclaration
  refine Records.get_bind fun state _ => ?_
  split
  · exact .record light trivial
  · refine .guard fun _ => ?_
    split
    · exact .guard fun _ => .guard fun _ => .record light trivial
    · exact fun _ _ => trivial

theorem recordParams_records {params : List Param} (light : paramsWeight w params ≤ limit) :
    Records w limit (params.forM fun param => Checking.record param.name ⟨.int, .automatic⟩) := by
  induction params with
  | nil => exact .pure ()
  | cons param rest ih =>
    rw [paramsWeight, List.map_cons, List.sum_cons] at light
    exact .bind (.record (by omega) trivial) fun _ => ih (by unfold paramsWeight; omega)

end Records

mutual

theorem Stmt.check_records {w : Weights} {limit : Nat} :
    ∀ stmt : Stmt, stmt.weight w ≤ limit → Records w limit stmt.check
  | .ret _ value, _ | .expr _ value, _ => .use value
  | .branch _ cond yes none, light => by
    unfold Stmt.check
    rw [Stmt.weight] at light
    exact .bind (.use cond) fun _ => Stmt.check_records yes (by omega)
  | .branch _ cond yes (some no), light => by
    unfold Stmt.check
    rw [Stmt.weight] at light
    exact .bind (.use cond) fun _ => .bind (Stmt.check_records yes (by omega)) fun _ => Stmt.check_records no (by omega)
  | .block body, light => Block.check_records body light
  | .whileLoop _ cond body _, light => by
    unfold Stmt.check
    rw [Stmt.weight] at light
    exact .bind (.use cond) fun _ => Stmt.check_records body (by omega)
  | .doLoop _ body cond _, light => by
    unfold Stmt.check
    rw [Stmt.weight] at light
    exact .bind (Stmt.check_records body (by omega)) fun _ => .use cond
  | .forLoop _ init cond post body _, light => by
    rw [Stmt.weight] at light
    have rest : Records w limit (do checkOptionalUse cond; checkOptionalUse post; body.check) :=
      .bind (.optionalUse cond) fun _ => .bind (.optionalUse post) fun _ => Stmt.check_records body (by omega)
    unfold Stmt.check
    cases init with
    | none => exact rest
    | var decl =>
      rw [ForInit.weight] at light
      exact .guard fun _ => .bind (VarDecl.checkLocal_records (by omega)) fun _ => rest
    | expr value => exact .bind (.use value) fun _ => rest
  | .breakLoop .., _ | .continueLoop .., _ | .empty _, _ | .misplaced _, _ => .pure ()

theorem Block.check_records {w : Weights} {limit : Nat} :
    ∀ block : Block, block.weight w ≤ limit → Records w limit block.check
  | ⟨_, items⟩, light => checkItems_records items light

theorem checkItems_records {w : Weights} {limit : Nat} :
    ∀ items : List Item, itemsWeight w items ≤ limit → Records w limit (checkItems items)
  | [], _ => .pure ()
  | .func decl :: rest, light => by
    unfold checkItems
    rw [itemsWeight] at light
    exact .bind (FuncDecl.check_records decl (by omega)) fun _ => checkItems_records rest (by omega)
  | .var decl :: rest, light => by
    unfold checkItems
    rw [itemsWeight] at light
    exact .bind (VarDecl.checkLocal_records (by omega)) fun _ => checkItems_records rest (by omega)
  | .stmt stmt :: rest, light => by
    unfold checkItems
    rw [itemsWeight] at light
    exact .bind (Stmt.check_records stmt (by omega)) fun _ => checkItems_records rest (by omega)

theorem FuncDecl.check_records {w : Weights} {limit : Nat} :
    ∀ decl : FuncDecl, decl.weight w ≤ limit → Records w limit decl.check
  | ⟨span, name, params, none, storage⟩, light => by
    unfold FuncDecl.check
    rw [FuncDecl.weight] at light
    exact FuncDecl.checkDeclaration_records (by simp only; omega)
  | ⟨span, name, params, some body, storage⟩, light => by
    unfold FuncDecl.check
    rw [FuncDecl.weight] at light
    refine .bind (FuncDecl.checkDeclaration_records (by simp only; omega)) fun _ => ?_
    refine .bind (recordParams_records (by omega)) fun _ => .bind (Block.check_records body (by omega)) fun _ => ?_
    split
    · exact .warn _ _
    · exact .pure ()

end

/-- The checker records every name once, and neither a name nor an initial value that weighs more than the tree. -/
theorem Program.check_records {w : Weights} (program : Program) :
    Records w (itemsWeight w program.items) program.check := by
  suffices all : ∀ (items : List Item) (limit : Nat), itemsWeight w items ≤ limit →
      Records w limit (items.forM Item.checkAtFileScope) from all program.items _ le_rfl
  intro items limit light
  induction items with
  | nil => exact .pure ()
  | cons item rest ih =>
    cases item with
    | func decl =>
      rw [itemsWeight] at light
      exact .bind (FuncDecl.check_records decl (by omega)) fun _ => ih (by omega)
    | var decl =>
      rw [itemsWeight] at light
      exact .bind (VarDecl.checkAtFileScope_records (by omega)) fun _ => ih (by omega)
    | stmt other => exact fun _ _ => trivial

end IntC
