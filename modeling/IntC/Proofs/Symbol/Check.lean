import IntC.Proofs.Pass
import IntC.Proofs.Tree.Shape
import IntC.Symbol.Check

namespace IntC

variable {bound : Nat} {state : Checking} {name : String} {table : SymbolTable} {known : List String}

namespace SymbolTable

theorem lookup_cons_eq (other key : String) (symbol : Symbol) (rest : List (String × Symbol)) :
    ((key, symbol) :: rest).lookup other = if other = key then some symbol else rest.lookup other := by
  by_cases same : other = key
  · rw [if_pos same, List.lookup_cons, same, beq_self_eq_true]
  · rw [if_neg same, List.lookup_cons, beq_false_of_ne same]

theorem lookup_put (name other : String) (symbol : Symbol) (entries : List (String × Symbol)) :
    (put name symbol entries).lookup other = if other = name then some symbol else entries.lookup other := by
  induction entries with
  | nil => exact lookup_cons_eq other name symbol []
  | cons entry rest ih =>
    obtain ⟨key, old⟩ := entry
    unfold put
    split
    · rename_i same
      simp only at same
      simp only [lookup_cons_eq, same]
      split <;> rfl
    · rename_i different
      simp only [lookup_cons_eq, ih]
      grind

theorem get?_set (table : SymbolTable) (name other : String) (symbol : Symbol) :
    (table.set name symbol).get? other = if other = name then some symbol else table.get? other :=
  lookup_put name other symbol table.entries

end SymbolTable

/-- A symbol that its name may have: a function or a static variable under a name that can be spelled, or a
variable under a name that was given out. -/
def Symbol.Fits (name : String) (symbol : Symbol) : Prop :=
  match symbol.type, symbol.attr with
  | .func _, .func .. => Spelled name
  | .int, .static .. => True
  | .int, .automatic => ¬Spelled name
  | _, _ => False

theorem Symbol.fits_static (name : String) (init : Initial) (global : Bool) :
    Symbol.Fits name ⟨.int, .static init global⟩ := trivial

/-- Whether a symbol is that of a function which has its body. -/
def Symbol.isDefined : Symbol → Bool
  | ⟨_, .func true _⟩ => true
  | _ => false

namespace SymbolTable

variable {table : SymbolTable} {name : String}

/-- Every symbol fits its name, and no name is one that is still to be given out. -/
def Sound (bound : Nat) (table : SymbolTable) : Prop :=
  ∀ name symbol, table.get? name = some symbol → symbol.Fits name ∧ Before bound name

/-- All names are still there, with the same types, and functions that have their bodies keep them. -/
def Grows (table after : SymbolTable) : Prop :=
  ∀ name symbol, table.get? name = some symbol → ∃ later, after.get? name = some later ∧
    later.type = symbol.type ∧ (symbol.isDefined = true → later.isDefined = true)

/-- The table holds a function that has its body. -/
def Defines (table : SymbolTable) (name : String) : Prop :=
  ∃ symbol, table.get? name = some symbol ∧ symbol.isDefined = true

theorem Defines.grows {after : SymbolTable} (defines : table.Defines name) (grows : table.Grows after) :
    after.Defines name := by
  obtain ⟨symbol, found, defined⟩ := defines
  obtain ⟨later, there, -, kept⟩ := grows name symbol found
  exact ⟨later, there, kept defined⟩

def Has (table : SymbolTable) (known : List String) : Prop := ∀ name ∈ known, ∃ symbol, table.get? name = some symbol

theorem Grows.refl (table : SymbolTable) : table.Grows table := fun _ symbol found => ⟨symbol, found, rfl, id⟩

theorem Grows.trans {first second third : SymbolTable} (grows : first.Grows second) (more : second.Grows third) :
    first.Grows third := by
  intro name symbol found
  obtain ⟨middle, there, same, kept⟩ := grows name symbol found
  obtain ⟨last, after, still, keptToo⟩ := more name middle there
  exact ⟨last, after, still.trans same, keptToo ∘ kept⟩

theorem Has.grows {after : SymbolTable} {known : List String} (has : table.Has known) (grows : table.Grows after) :
    after.Has known := by
  intro name member
  obtain ⟨symbol, found⟩ := has name member
  obtain ⟨later, there, -⟩ := grows name symbol found
  exact ⟨later, there⟩

theorem Sound.set {bound : Nat} {symbol : Symbol} (sound : table.Sound bound) (fits : symbol.Fits name)
    (before : Before bound name) : (table.set name symbol).Sound bound := by
  intro other found
  rw [get?_set]
  split
  · rename_i same
    rintro ⟨⟩
    exact same ▸ ⟨fits, before⟩
  · exact sound other found

theorem Grows.set {symbol : Symbol} (same : ∀ old, table.get? name = some old → old.type = symbol.type ∧
      (old.isDefined = true → symbol.isDefined = true)) : table.Grows (table.set name symbol) := by
  intro other found here
  rw [get?_set]
  split
  · rename_i equal
    obtain ⟨type, kept⟩ := same found (equal ▸ here)
    exact ⟨symbol, rfl, type.symm, kept⟩
  · exact ⟨found, here, rfl, id⟩

end SymbolTable

def Checks (bound : Nat) (state after : Checking) : Prop :=
  after.symbols.Sound bound ∧ state.symbols.Grows after.symbols

theorem Checks.refl (sound : state.symbols.Sound bound) : Checks bound state state :=
  ⟨sound, .refl _⟩

theorem Checks.trans {first second third : Checking} (checks : Checks bound first second)
    (more : Checks bound second third) : Checks bound first third :=
  ⟨more.1, checks.2.trans more.2⟩

theorem Checking.record_meets {symbol : Symbol} (sound : state.symbols.Sound bound) (fits : symbol.Fits name)
    (before : Before bound name) (same : ∀ old, state.symbols.get? name = some old → old.type = symbol.type ∧
      (old.isDefined = true → symbol.isDefined = true)) :
    Pass.Meets (Checking.record name symbol) state (fun _ after => Checks bound state after ∧
      after.symbols.get? name = some symbol) Error.IsUser := by
  refine ⟨⟨sound.set fits before, .set same⟩, ?_⟩
  exact (SymbolTable.get?_set ..).trans (if_pos rfl)

theorem Checking.recordVariable_meets {attr : SymbolAttr} (sound : state.symbols.Sound bound)
    (fits : Symbol.Fits name ⟨.int, attr⟩) (before : Before bound name)
    (same : ∀ old, state.symbols.get? name = some old → old.type = .int) :
    Pass.Meets (Checking.record name ⟨.int, attr⟩) state (fun _ after => Checks bound state after ∧
      after.symbols.get? name = some ⟨.int, attr⟩) Error.IsUser := by
  refine Checking.record_meets sound fits before fun old found => ⟨same old found, fun defined => ?_⟩
  have type := same old found
  have fitting := (sound name old found).1
  unfold Symbol.isDefined at defined
  split at defined
  · cases type
    cases fitting
  · cases defined

theorem checkVariable_meets {span : Span} (has : table.Has known) (member : name ∈ known) :
    Meets ((Expr.ident span name).check table) (fun _ => True) Error.IsUser := by
  obtain ⟨⟨type, attr⟩, found⟩ := has name member
  unfold Expr.check SymbolTable.lookup
  rw [found]
  cases type with
  | int => exact trivial
  | func => rfl

mutual

theorem Expr.check_meets {table : SymbolTable} {known : List String} (has : table.Has known) :
    ∀ value : Expr, value.Uses known → Meets (value.check table) (fun _ => True) Error.IsUser
  | .number .., _ => trivial
  | .ident _ name, uses => checkVariable_meets has uses
  | .assign _ target value, uses => by
    cases target with
    | ident _ name =>
      unfold Expr.check
      refine meets_bind.mpr ((checkVariable_meets has uses.1).mono fun _ _ => ?_)
      exact Expr.check_meets has value uses.2
    | _ => exact uses.elim
  | .unary _ _ operand, uses => Expr.check_meets has operand uses.2
  | .binary _ _ left right, uses => by
    unfold Expr.check
    refine meets_bind.mpr ((Expr.check_meets has left uses.2.1).mono fun _ _ => ?_)
    exact Expr.check_meets has right uses.2.2
  | .conditional _ cond yes no, uses => by
    unfold Expr.check
    refine meets_bind.mpr ((Expr.check_meets has cond uses.1).mono fun _ _ => ?_)
    refine meets_bind.mpr ((Expr.check_meets has yes uses.2.1).mono fun _ _ => ?_)
    exact Expr.check_meets has no uses.2.2
  | .call _ name args, uses => by
    obtain ⟨⟨type, attr⟩, found⟩ := has name uses.1
    have later := checkArgs_meets has args uses.2
    unfold Expr.check SymbolTable.lookup
    rw [found]
    cases type with
    | int => rfl
    | func params =>
      simp only [meets_bind, meets_ok]
      split
      · rfl
      · exact later
  | .misplaced _, uses => uses.elim

theorem checkArgs_meets {table : SymbolTable} {known : List String} (has : table.Has known) :
    ∀ args : List Expr, argsUse known args → Meets (checkArgs table args) (fun _ => True) Error.IsUser
  | [], _ => trivial
  | arg :: rest, uses => by
    unfold checkArgs
    refine meets_bind.mpr ((Expr.check_meets has arg uses.1).mono fun _ _ => ?_)
    exact checkArgs_meets has rest uses.2

end

section Steps
variable {bound : Nat} {state : Checking} {known : List String}

theorem checkUse_meets (sound : state.symbols.Sound bound) (has : state.symbols.Has known) {value : Expr}
    (uses : value.Uses known) :
    Pass.Meets (checkUse value) state (fun _ after => Checks bound state after) Error.IsUser := by
  simp only [checkUse, Pass.meets_bind, Pass.meets_get, Pass.meets_check]
  exact (value.check_meets has uses).mono fun _ _ => .refl sound

theorem checkOptionalUse_meets (sound : state.symbols.Sound bound) (has : state.symbols.Has known)
    {value : Option Expr} (uses : ∀ expr ∈ value, expr.Uses known) :
    Pass.Meets (checkOptionalUse value) state (fun _ after => Checks bound state after) Error.IsUser := by
  cases value with
  | none => exact .refl sound
  | some value => exact checkUse_meets sound has (uses value rfl)

theorem constantInit_meets (span : Span) (value : Expr) :
    Pass.Meets (constantInit span value) state (fun _ after => after = state) Error.IsUser := by
  unfold constantInit
  split
  · rfl
  · rfl

theorem SymbolTable.Sound.type_int {symbol : Symbol} (sound : table.Sound bound)
    (found : table.get? name = some symbol) (minted : ¬Spelled name) : symbol.type = .int := by
  have fits := (sound name symbol found).1
  obtain ⟨type, attr⟩ := symbol
  cases type with
  | int => rfl
  | func params => cases attr <;> exact absurd fits (by simp [Symbol.Fits, minted])

theorem VarDecl.checkLocal_meets (sound : state.symbols.Sound bound) (has : state.symbols.Has known) {decl : VarDecl}
    (fits : decl.Bound bound known) :
    Pass.Meets decl.checkLocal state (fun _ after => Checks bound state after ∧ after.symbols.Has (decl.name :: known))
      Error.IsUser := by
  have recorded : ∀ {symbol after}, Checks bound state after → after.symbols.get? decl.name = some symbol →
      after.symbols.Has (decl.name :: known) := fun checks found =>
    List.forall_mem_cons.mpr ⟨⟨_, found⟩, has.grows checks.2⟩
  unfold VarDecl.checkLocal
  cases storage : decl.storage with
  | external =>
    have spelled := (VarDecl.bound_of_external storage).mp fits
    simp only
    split
    · rfl
    · simp only [Pass.meets_bind, Pass.meets_get]
      split
      · rfl
      · rename_i found
        exact ⟨.refl sound, recorded (.refl sound) found⟩
      · rename_i absent
        refine (Checking.recordVariable_meets sound (Symbol.fits_static ..) (spelled.before bound) fun old found => ?_).mono
          fun _ after both => ⟨both.1, recorded both.1 both.2⟩
        rw [absent] at found
        cases found
  | static =>
    obtain ⟨minted, uses⟩ := (VarDecl.bound_of_ne_external (by rw [storage]; decide)).mp fits
    have finish : ∀ value, Pass.Meets (Checking.record decl.name ⟨.int, .static (.value value) false⟩) state (fun _ after =>
        Checks bound state after ∧ after.symbols.Has (decl.name :: known)) Error.IsUser := fun value =>
      (Checking.recordVariable_meets sound (Symbol.fits_static ..) minted.before fun old found =>
        sound.type_int found minted.not_spelled).mono fun _ after both => ⟨both.1, recorded both.1 both.2⟩
    cases decl.init with
    | none => exact finish 0
    | some init =>
      refine (constantInit_meets decl.span init).bind fun value after same => ?_
      exact same ▸ finish value
  | automatic =>
    obtain ⟨minted, uses⟩ := (VarDecl.bound_of_ne_external (by rw [storage]; decide)).mp fits
    have local' : Symbol.Fits decl.name ⟨.int, .automatic⟩ := minted.not_spelled
    refine (Checking.recordVariable_meets sound local' minted.before fun old found =>
      sound.type_int found minted.not_spelled).bind ?_
    rintro _ after ⟨checks, found⟩
    have more := recorded checks found
    refine (checkOptionalUse_meets checks.1 more uses).mono fun _ last still => ?_
    exact ⟨checks.trans still, more.grows still.2⟩

@[simp] theorem Symbol.isDefined_func (type : SymbolType) (defined global : Bool) :
    Symbol.isDefined ⟨type, .func defined global⟩ = defined := by
  cases defined <;> rfl

/-- A function gets a body only once. -/
theorem FuncDecl.checkDeclaration_meets (sound : state.symbols.Sound bound) {decl : FuncDecl}
    (spelled : Spelled decl.name) :
    Pass.Meets decl.checkDeclaration state (fun _ after => Checks bound state after ∧
      ∃ symbol, after.symbols.get? decl.name = some symbol ∧ symbol.type = .func decl.params.length ∧
        (decl.body.isSome = true → ¬state.symbols.Defines decl.name ∧ symbol.isDefined = true)) Error.IsUser := by
  unfold FuncDecl.checkDeclaration
  simp only [Pass.meets_bind, Pass.meets_get]
  have finish : ∀ defined global, (∀ old, state.symbols.get? decl.name = some old →
      old.type = .func decl.params.length ∧ (old.isDefined = true → defined = true)) →
      (decl.body.isSome = true → ¬state.symbols.Defines decl.name ∧ defined = true) →
      Pass.Meets (Checking.record decl.name ⟨.func decl.params.length, .func defined global⟩) state
        (fun _ after => Checks bound state after ∧
          ∃ symbol, after.symbols.get? decl.name = some symbol ∧ symbol.type = .func decl.params.length ∧
            (decl.body.isSome = true → ¬state.symbols.Defines decl.name ∧ symbol.isDefined = true)) Error.IsUser := by
    intro defined global same new
    have fits : Symbol.Fits decl.name ⟨.func decl.params.length, .func defined global⟩ := spelled
    refine (Checking.record_meets sound fits (spelled.before bound) (by simpa using same)).mono fun _ after both => ?_
    exact ⟨both.1, _, both.2, rfl, by simpa using new⟩
  split
  · rename_i absent
    refine finish _ _ (fun old found => ?_) fun given => ⟨?_, given⟩
    · rw [absent] at found
      cases found
    · rintro ⟨old, found, -⟩
      rw [absent] at found
      cases found
  · rename_i old found
    have fits := (sound _ _ found).1
    obtain ⟨type, attr⟩ := old
    split
    · rfl
    · rename_i sameType
      simp only [ne_eq, Decidable.not_not] at sameType
      cases attr with
      | func defined global =>
        simp only
        split
        · rfl
        · rename_i once
          split
          · rfl
          · refine finish _ _ (fun old again => ?_) fun given => ⟨?_, by rw [given, Bool.true_or]⟩
            · cases found.symm.trans again
              exact ⟨sameType, fun old => by simp_all⟩
            · rintro ⟨old, again, body⟩
              cases found.symm.trans again
              simp_all
      | _ =>
        subst sameType
        cases fits

theorem VarDecl.checkAtFileScope_meets (sound : state.symbols.Sound bound) {decl : VarDecl}
    (spelled : Spelled decl.name) :
    Pass.Meets decl.checkAtFileScope state (fun _ after => Checks bound state after ∧
      ∃ symbol, after.symbols.get? decl.name = some symbol) Error.IsUser := by
  unfold VarDecl.checkAtFileScope
  have finish : ∀ init global, (∀ old, state.symbols.get? decl.name = some old → old.type = .int) →
      Pass.Meets (Checking.record decl.name ⟨.int, .static init global⟩) state (fun _ after => Checks bound state after ∧
        ∃ symbol, after.symbols.get? decl.name = some symbol) Error.IsUser := by
    intro init global same
    exact (Checking.recordVariable_meets sound (Symbol.fits_static ..) (spelled.before bound) same).mono
      fun _ after both => ⟨both.1, _, both.2⟩
  extract_lets global merged
  have each : ∀ init, Pass.Meets (merged init) state (fun _ after => Checks bound state after ∧
      ∃ symbol, after.symbols.get? decl.name = some symbol) Error.IsUser := by
    intro init
    simp only [merged, Pass.meets_bind, Pass.meets_get]
    split
    · rename_i absent
      refine finish _ _ fun old found => ?_
      rw [absent] at found
      cases found
    · rfl
    · rename_i old global found
      have replaced : ∀ init, Pass.Meets (Checking.record decl.name ⟨.int, .static init global⟩) state (fun _ after =>
          Checks bound state after ∧ ∃ symbol, after.symbols.get? decl.name = some symbol) Error.IsUser := by
        refine fun init => finish init global fun other again => ?_
        cases found.symm.trans again
        rfl
      split
      · rfl
      · split
        · rfl
        · exact replaced _
    · rename_i attr notStatic found
      have fits := (sound _ _ found).1
      cases attr with
      | func => exact fits.elim
      | static init global => exact absurd rfl (notStatic init global)
      | automatic => exact absurd spelled fits
  cases decl.init with
  | none => exact each _
  | some init =>
    simp only [Pass.meets_bind, Pass.meets_map]
    refine (constantInit_meets decl.span init).mono fun value after same => ?_
    rw [same]
    exact each _

end Steps

mutual

theorem Stmt.check_meets {bound : Nat} {state : Checking} {known : List String} (sound : state.symbols.Sound bound)
    (has : state.symbols.Has known) : ∀ stmt : Stmt, stmt.Bound bound known →
      Pass.Meets stmt.check state (fun _ after => Checks bound state after) Error.IsUser
  | .ret _ value, fits | .expr _ value, fits => checkUse_meets sound has fits
  | .branch _ cond yes none, fits => by
    unfold Stmt.check
    refine (checkUse_meets sound has fits.1).bind fun _ middle first => ?_
    exact (Stmt.check_meets first.1 (has.grows first.2) yes fits.2).mono fun _ _ second => first.trans second
  | .branch _ cond yes (some no), fits => by
    unfold Stmt.check
    refine (checkUse_meets sound has fits.1).bind fun _ middle first => ?_
    refine (Stmt.check_meets first.1 (has.grows first.2) yes fits.2.1).bind fun _ later second => ?_
    have both := first.trans second
    exact (Stmt.check_meets both.1 (has.grows both.2) no fits.2.2).mono fun _ _ third => both.trans third
  | .block body, fits => Block.check_meets sound has body fits
  | .whileLoop _ cond body _, fits => by
    unfold Stmt.check
    refine (checkUse_meets sound has fits.1).bind fun _ middle first => ?_
    exact (Stmt.check_meets first.1 (has.grows first.2) body fits.2).mono fun _ _ second => first.trans second
  | .doLoop _ body cond _, fits => by
    unfold Stmt.check
    refine (Stmt.check_meets sound has body fits.1).bind fun _ middle first => ?_
    exact (checkUse_meets first.1 (has.grows first.2) fits.2).mono fun _ _ second => first.trans second
  | .forLoop _ init cond post body _, fits => by
    have rest : ∀ middle : Checking, Checks bound state middle → middle.symbols.Has (init.names ++ known) →
        Pass.Meets (do checkOptionalUse cond; checkOptionalUse post; body.check) middle
          (fun _ after => Checks bound state after) Error.IsUser := by
      intro middle first inside
      refine (checkOptionalUse_meets first.1 inside fits.2.1).bind fun _ later second => ?_
      refine (checkOptionalUse_meets second.1 (inside.grows second.2) fits.2.2.1).bind fun _ last third => ?_
      have both := second.trans third
      refine (Stmt.check_meets both.1 (inside.grows both.2) body fits.2.2.2).mono fun _ _ fourth => ?_
      exact first.trans (both.trans fourth)
    cases init with
    | none => exact rest state (.refl sound) has
    | var decl =>
      unfold Stmt.check
      simp only
      split
      · rfl
      · refine (VarDecl.checkLocal_meets sound has fits.1).bind ?_
        rintro _ middle ⟨first, inside⟩
        exact rest middle first inside
    | expr value =>
      unfold Stmt.check
      refine (checkUse_meets sound has fits.1).bind fun _ middle first => ?_
      exact rest middle first (has.grows first.2)
  | .breakLoop .., _ | .continueLoop .., _ | .empty _, _ => .refl sound
  | .misplaced _, fits => fits.elim

theorem Block.check_meets {bound : Nat} {state : Checking} {known : List String} (sound : state.symbols.Sound bound)
    (has : state.symbols.Has known) : ∀ block : Block, block.Bound bound known →
      Pass.Meets block.check state (fun _ after => Checks bound state after) Error.IsUser
  | ⟨_, items⟩, fits => checkItems_meets sound has items fits

theorem checkItems_meets {bound : Nat} {state : Checking} {known : List String} (sound : state.symbols.Sound bound)
    (has : state.symbols.Has known) : ∀ items : List Item, itemsBound bound known items →
      Pass.Meets (checkItems items) state (fun _ after => Checks bound state after) Error.IsUser
  | [], _ => .refl sound
  | .func decl :: rest, fits => by
    obtain ⟨⟨spelled, prototype⟩, later⟩ := fits
    obtain ⟨span, name, params, body, storage⟩ := decl
    cases prototype
    unfold checkItems FuncDecl.check
    refine (FuncDecl.checkDeclaration_meets sound spelled).bind ?_
    rintro _ middle ⟨first, symbol, found, _⟩
    have more : middle.symbols.Has (name :: known) := List.forall_mem_cons.mpr ⟨⟨symbol, found⟩, has.grows first.2⟩
    exact (checkItems_meets first.1 more rest later).mono fun _ _ second => first.trans second
  | .var decl :: rest, fits => by
    unfold checkItems
    refine (VarDecl.checkLocal_meets sound has fits.1).bind ?_
    rintro _ middle ⟨first, more⟩
    exact (checkItems_meets first.1 more rest fits.2).mono fun _ _ second => first.trans second
  | .stmt stmt :: rest, fits => by
    unfold checkItems
    refine (Stmt.check_meets sound has stmt fits.1).bind fun _ middle first => ?_
    exact (checkItems_meets first.1 (has.grows first.2) rest fits.2).mono fun _ _ second => first.trans second

end

theorem recordParams_meets (sound : state.symbols.Sound bound) {params : List Param}
    (minted : ∀ param ∈ params, Minted 0 bound param.name) :
    Pass.Meets (params.forM fun param => Checking.record param.name ⟨.int, .automatic⟩) state (fun _ after =>
      Checks bound state after ∧ after.symbols.Has (params.map Param.name)) Error.IsUser := by
  induction params generalizing state with
  | nil => exact ⟨.refl sound, fun _ member => nomatch member⟩
  | cons param rest ih =>
    obtain ⟨here, others⟩ := List.forall_mem_cons.mp minted
    have fits : Symbol.Fits param.name ⟨.int, .automatic⟩ := here.not_spelled
    refine (Checking.recordVariable_meets sound fits here.before fun old found =>
      sound.type_int found here.not_spelled).bind ?_
    rintro _ middle ⟨first, found⟩
    refine (ih first.1 others).mono ?_
    rintro _ last ⟨second, has⟩
    refine ⟨first.trans second, ?_⟩
    obtain ⟨later, there, -⟩ := second.2 _ _ found
    exact List.forall_mem_cons.mpr ⟨⟨later, there⟩, has⟩

theorem SymbolTable.Has.append {first second : List String} (has : table.Has first) (more : table.Has second) :
    table.Has (first ++ second) :=
  List.forall_mem_append.mpr ⟨has, more⟩

/-- After its declaration a function stays in the table as one. -/
def SymbolTable.HasFunc (table : SymbolTable) (name : String) : Prop :=
  ∃ symbol params, table.get? name = some symbol ∧ symbol.type = .func params

theorem SymbolTable.HasFunc.grows {after : SymbolTable} (has : table.HasFunc name) (grows : table.Grows after) :
    after.HasFunc name := by
  obtain ⟨symbol, params, found, type⟩ := has
  obtain ⟨later, there, same, -⟩ := grows name symbol found
  exact ⟨later, params, there, same.trans type⟩

theorem FuncDecl.check_meets (sound : state.symbols.Sound bound) (has : state.symbols.Has known) {decl : FuncDecl}
    (fits : decl.Bound bound known) :
    Pass.Meets decl.check state (fun _ after => Checks bound state after ∧ after.symbols.HasFunc decl.name ∧
      (decl.body.isSome = true → ¬state.symbols.Defines decl.name ∧ after.symbols.Defines decl.name))
      Error.IsUser := by
  obtain ⟨span, name, params, body, storage⟩ := decl
  obtain ⟨spelled, minted, inside⟩ := fits
  cases body with
  | none =>
    unfold FuncDecl.check
    refine (FuncDecl.checkDeclaration_meets sound spelled).mono ?_
    rintro _ after ⟨checks, symbol, found, type, -⟩
    exact ⟨checks, ⟨symbol, _, found, type⟩, fun given => by cases given⟩
  | some body =>
    unfold FuncDecl.check
    refine (FuncDecl.checkDeclaration_meets sound spelled).bind ?_
    rintro _ middle ⟨first, symbol, found, type, new⟩
    refine (recordParams_meets first.1 minted).bind ?_
    rintro _ later ⟨second, named⟩
    have both := first.trans second
    have declared : later.symbols.HasFunc name := SymbolTable.HasFunc.grows ⟨symbol, _, found, type⟩ second.2
    obtain ⟨here, count, there, sort⟩ := declared
    have all : later.symbols.Has (params.map Param.name ++ name :: known) :=
      named.append (List.forall_mem_cons.mpr ⟨⟨here, there⟩, has.grows both.2⟩)
    refine (Block.check_meets second.1 all body (inside body rfl)).bind fun _ last third => ?_
    have still : last.symbols.HasFunc name := SymbolTable.HasFunc.grows ⟨here, count, there, sort⟩ third.2
    have defined : last.symbols.Defines name :=
      SymbolTable.Defines.grows ⟨symbol, found, (new rfl).2⟩ (second.trans third).2
    split
    · exact ⟨both.trans third, still, fun _ => ⟨(new rfl).1, defined⟩⟩
    · exact ⟨both.trans third, still, fun _ => ⟨(new rfl).1, defined⟩⟩

/-- Functions that get their bodies in between, each of them one. -/
structure DefinedOnce (state after : Checking) (names : List String) : Prop where
  distinct : names.Nodup
  defined : ∀ name ∈ names, ¬state.symbols.Defines name ∧ after.symbols.Defines name

theorem DefinedOnce.before {middle last : Checking} {names : List String} (once : DefinedOnce middle last names)
    (grows : state.symbols.Grows middle.symbols) : DefinedOnce state last names := by
  refine ⟨once.distinct, fun name member => ?_⟩
  obtain ⟨new, defined⟩ := once.defined name member
  exact ⟨fun old => new (old.grows grows), defined⟩

theorem DefinedOnce.cons {middle last : Checking} {names : List String} (once : DefinedOnce middle last names)
    (grows : state.symbols.Grows middle.symbols) (more : middle.symbols.Grows last.symbols)
    (new : ¬state.symbols.Defines name) (defined : middle.symbols.Defines name) :
    DefinedOnce state last (name :: names) := by
  refine ⟨List.nodup_cons.mpr ⟨fun member => ?_, once.distinct⟩, List.forall_mem_cons.mpr ⟨?_, ?_⟩⟩
  · exact (once.defined name member).1 defined
  · exact ⟨new, defined.grows more⟩
  · exact (once.before grows).defined

theorem checkUnit_meets (sound : state.symbols.Sound bound) (has : state.symbols.Has known) {items : List Item}
    (fits : unitBound bound known items) :
    Pass.Meets (items.forM Item.checkAtFileScope) state (fun _ after => Checks bound state after ∧
      (∀ decl, .func decl ∈ items → after.symbols.HasFunc decl.name) ∧
      DefinedOnce state after ((definitions items).map fun made => made.1.name)) Error.IsUser := by
  induction items generalizing state known with
  | nil =>
    refine ⟨.refl sound, fun _ member => ?_, List.nodup_nil, List.forall_mem_nil _⟩
    cases member
  | cons item rest ih =>
    cases item with
    | stmt stmt => exact fits.elim
    | func decl =>
      refine (FuncDecl.check_meets sound has fits.1).bind ?_
      rintro _ middle ⟨first, declared, new⟩
      obtain ⟨symbol, params, found, type⟩ := declared
      have more : middle.symbols.Has (decl.name :: known) :=
        List.forall_mem_cons.mpr ⟨⟨symbol, found⟩, has.grows first.2⟩
      refine (ih first.1 more fits.2).mono ?_
      rintro _ last ⟨second, others, once⟩
      refine ⟨first.trans second, fun other member => ?_, ?_⟩
      · rcases List.mem_cons.mp member with same | later
        · cases same
          exact SymbolTable.HasFunc.grows ⟨symbol, params, found, type⟩ second.2
        · exact others other later
      · unfold definitions
        cases body : decl.body with
        | none => exact once.before first.2
        | some block =>
          obtain ⟨undefined, defined⟩ := new (by rw [body, Option.isSome_some])
          exact once.cons first.2 second.2 undefined defined
    | var decl =>
      refine (VarDecl.checkAtFileScope_meets sound fits.1).bind ?_
      rintro _ middle ⟨first, symbol, found⟩
      have more : middle.symbols.Has (decl.name :: known) :=
        List.forall_mem_cons.mpr ⟨⟨symbol, found⟩, has.grows first.2⟩
      refine (ih first.1 more fits.2).mono ?_
      rintro _ last ⟨second, others, once⟩
      refine ⟨first.trans second, fun other member => ?_, once.before first.2⟩
      rcases List.mem_cons.mp member with same | later
      · cases same
      · exact others other later

theorem Program.check_unit {program : Program} (fits : unitBound bound [] program.items) :
    Pass.Meets program.check {} (fun _ after => Checks bound {} after ∧
      (∀ decl, .func decl ∈ program.items → after.symbols.HasFunc decl.name) ∧
      DefinedOnce {} after ((definitions program.items).map fun made => made.1.name)) Error.IsUser := by
  have sound : SymbolTable.Sound bound {} := fun _ _ found => nomatch found
  have empty : SymbolTable.Has {} [] := fun _ member => nomatch member
  exact checkUnit_meets sound empty fits

theorem Program.check_meets {program : Program} (fits : unitBound bound [] program.items) :
    Pass.Meets program.check {} (fun _ after => after.symbols.Sound bound ∧
      ∀ decl, .func decl ∈ program.items → after.symbols.HasFunc decl.name) Error.IsUser :=
  (Program.check_unit fits).mono fun _ _ all => ⟨all.1.1, all.2.1⟩

theorem SymbolTable.Sound.func (sound : table.Sound bound) (has : table.HasFunc name) :
    ∃ params defined global, table.get? name = some ⟨.func params, .func defined global⟩ := by
  obtain ⟨⟨type, attr⟩, params, found, rfl⟩ := has
  have fits := (sound name _ found).1
  cases attr with
  | func defined global => exact ⟨params, defined, global, found⟩
  | _ => exact fits.elim

end IntC
