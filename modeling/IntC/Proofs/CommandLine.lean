import IntC.CommandLine.Arguments
import Mathlib.Data.List.Nodup
import Mathlib.Data.List.TakeDrop

namespace IntC

theorem cutAt_append {separator : Char} {first rest : String} (none : separator ∉ first.toList)
    (cut : ∀ c ∈ rest.toList.head?, c = separator) :
    cutAt separator (first ++ rest) = (first, String.ofList rest.toList.tail) := by
  have all : ∀ c ∈ first.toList, decide (c ≠ separator) = true := fun c member =>
    decide_eq_true fun same => none (same ▸ member)
  rw [cutAt, String.toList_append, List.span_eq_takeWhile_dropWhile, List.takeWhile_append_of_pos all,
    List.dropWhile_append_of_pos all]
  cases chars : rest.toList with
  | nil => simp
  | cons c tail =>
    rw [chars] at cut
    simp [cut c rfl]

@[simp] theorem startsWith_append (start rest : String) : startsWith start (start ++ rest) = true := by
  simp [startsWith]

@[simp] theorem withoutStart_append (start rest : String) : withoutStart start (start ++ rest) = rest := by
  rw [withoutStart, if_pos (startsWith_append ..), String.toList_append, ← String.length_toList, List.drop_left,
    String.ofList_toList]

namespace CommandLine

/-- How a flag is named on a command line. -/
inductive Key where
  | long (double : Bool) (name : String)
  | short (letter : Char)
deriving DecidableEq, Repr, Inhabited

def dashes (double : Bool) : String := if double then "--" else "-"

namespace Key

def text : Key → String
  | .long double name => dashes double ++ name
  | .short letter => dashes false ++ String.singleton letter

def flag? (set : FlagSet) : Key → Option Flag
  | .long _ name => set.find? name
  | .short letter => set.findLetter? (String.singleton letter)

/-- Whether the key can be told from the dashes before it and from what stands behind it. A letter
stands for its flag only where no flag has the name that stands there. -/
def stands (set : FlagSet) (behind : String) : Key → Bool
  | .long _ name => name ≠ "" && !name.toList.contains '=' && name.toList.head? ≠ some '-'
  | .short letter => letter.toNat < 128 && letter ≠ '-' &&
    (set.find? (cutAt '=' (String.singleton letter ++ behind)).1).isNone

end Key

/-- What is written on a command line: `--name=value` or `-xvalue` is joined, `--name value` or
`-x value` is apart. -/
inductive Item where
  | positional (arg : String)
  | joined (key : Key) (value : String)
  | apart (key : Key) (value : String)
  | switch (key : Key)
deriving DecidableEq, Repr, Inhabited

namespace Item

def arguments : Item → List String
  | .positional arg => [arg]
  | .joined (.long double name) value => [(Key.long double name).text ++ "=" ++ value]
  | .joined (.short letter) value => [(Key.short letter).text ++ value]
  | .apart key value => [key.text, value]
  | .switch key => [key.text]

/-- A name can join a switch with a truth value or with nothing, and a letter can join what is no
switch with a value. -/
def fits (set : FlagSet) : Item → Bool
  | .positional arg => arg.utf8ByteSize < 2 || arg.toList.head? ≠ some '-'
  | .joined (.long double name) value => (Key.long double name).stands set value &&
    ((Key.long double name).flag? set).any fun flag => !flag.value.isSwitch || value = "" || (readSwitch? value).isSome
  | .joined (.short letter) value => (Key.short letter).stands set value &&
    ((Key.short letter).flag? set).any fun flag => !flag.value.isSwitch && value ≠ ""
  | .apart key _ => key.stands set "" && (key.flag? set).any fun flag => !flag.value.isSwitch
  | .switch key => key.stands set "" && (key.flag? set).any fun flag => flag.value.isSwitch

def positional? : Item → Option String
  | .positional arg => some arg
  | _ => none

def sets? : Item → Option (Key × String)
  | .positional _ => none
  | .joined key value | .apart key value => some (key, value)
  | .switch key => some (key, "")

/-- The name of the flag that an item sets, and the value. -/
def setting? (set : FlagSet) (item : Item) : Option (String × String) :=
  item.sets?.bind fun (key, value) => (key.flag? set).map fun flag => (flag.name, value)

end Item

/-- The values that items set a flag to, in their order. -/
def valuesFor (set : FlagSet) (name : String) (items : List Item) : List String :=
  ((items.filterMap (Item.setting? set)).filter (·.1 = name)).map Prod.snd

/-- Values for a text or a switch replace one another, and those for a list are all kept. -/
def FlagValue.after (values : List String) : FlagValue → FlagValue
  | .text old => .text (values.getLast?.getD old)
  | .switch old => .switch ((values.getLast?.map fun value => value = "" || readSwitch? value = some true).getD old)
  | .list items => .list (items ++ values)

/-- Gives flags new values, and puts other arguments in place of those that belong to no flag. -/
def FlagSet.update (set : FlagSet) (value : Flag → FlagValue) (args : List String) : FlagSet :=
  { set with flags := set.flags.map fun flag => { flag with value := value flag }, args }

def FlagSet.carry (set : FlagSet) (items : List Item) : FlagSet :=
  set.update (fun flag => flag.value.after (valuesFor set flag.name items))
    (set.args ++ items.filterMap Item.positional?)

section After
variable {value : FlagValue}

@[simp] theorem FlagValue.after_nil : value.after [] = value := by
  cases value <;> simp [after]

@[simp] theorem FlagValue.isSwitch_after (values : List String) : (value.after values).isSwitch = value.isSwitch := by
  cases value <;> rfl

theorem FlagValue.after_append (first second : List String) :
    (value.after first).after second = value.after (first ++ second) := by
  cases value with
  | list items => simp [after]
  | text old | switch old => rcases List.eq_nil_or_concat second with rfl | ⟨_, _, rfl⟩ <;> simp [after]

theorem FlagValue.assign_eq {text : String}
    (fits : value.isSwitch = false ∨ text = "" ∨ (readSwitch? text).isSome = true) :
    value.assign text = .ok (value.after [text]) := by
  cases value with
  | text | list => rfl
  | switch old =>
    by_cases empty : text = ""
    · simp [assign, after, empty]
    · obtain ⟨on, read⟩ := Option.isSome_iff_exists.mp ((fits.resolve_left Bool.noConfusion).resolve_left empty)
      simp [assign, after, read, empty]

end After

namespace FlagSet
variable {set : FlagSet} {flag : Flag} {name : String}

section Update
variable (value : Flag → FlagValue) (args : List String)

theorem find?_update (name : String) :
    (set.update value args).find? name = (set.find? name).map fun flag => { flag with value := value flag } :=
  List.find?_map ..

theorem flag?_update (key : Key) :
    key.flag? (set.update value args) = (key.flag? set).map fun flag => { flag with value := value flag } := by
  cases key <;> exact List.find?_map ..

theorem setting?_update : Item.setting? (set.update value args) = Item.setting? set := by
  funext item
  simp [Item.setting?, flag?_update, Function.comp_def]

theorem fits_update (same : ∀ flag, (value flag).isSwitch = flag.value.isSwitch) (item : Item) :
    item.fits (set.update value args) = item.fits set := by
  have stands (behind : String) (key : Key) : key.stands (set.update value args) behind = key.stands set behind := by
    cases key <;> simp [Key.stands, find?_update]
  rcases item with _ | ⟨_ | _⟩ | _ | _ <;>
    simp only [Item.fits, stands, flag?_update, Option.any_map, same]

theorem names_update : (set.update value args).flags.map Flag.name = set.flags.map Flag.name := List.map_map

end Update

theorem carry_cons (item : Item) (items : List Item) : (set.carry [item]).carry items = set.carry (item :: items) := by
  have each (name : String) : valuesFor set name (item :: items) =
      valuesFor set name [item] ++ valuesFor (set.carry [item]) name items := by
    rw [valuesFor, valuesFor, valuesFor, carry, setting?_update, ← List.map_append, ← List.filter_append,
      ← List.filterMap_append, List.singleton_append]
  refine congrArg₂ (fun flags args => { set with flags, args }) ?_ ?_
  · refine List.map_map.trans (List.map_congr_left fun flag _ => ?_)
    simp only [Function.comp_apply, each, FlagValue.after_append]
  · rw [carry, FlagSet.update, List.append_assoc, ← List.filterMap_append, List.singleton_append]

theorem carry_nil (set : FlagSet) : set.carry [] = set := by
  simp [carry, FlagSet.update, valuesFor]

theorem carry_positional (set : FlagSet) (arg : String) : set.carry [.positional arg] = set.addArgs [arg] := by
  have unset : List.filterMap (Item.setting? set) [.positional arg] = [] := rfl
  simp [carry, FlagSet.update, valuesFor, unset, Item.positional?, addArgs]

/-- An item that sets a flag leaves the others as they are. -/
theorem assign_eq (distinct : (set.flags.map Flag.name).Nodup) {item : Item} {key : Key} {value : String}
    (sets : item.sets? = some (key, value)) (found : key.flag? set = some flag)
    (fits : flag.value.isSwitch = false ∨ value = "" ∨ (readSwitch? value).isSome = true) :
    set.assign flag value = .ok (set.carry [item]) := by
  have member : flag ∈ set.flags := by cases key <;> exact List.mem_of_find?_eq_some found
  have named : item.positional? = none := by
    cases item with
    | positional => cases sets
    | _ => rfl
  rw [assign, FlagValue.assign_eq fits]
  refine congrArg Except.ok (congrArg₂ (fun flags args => { set with flags, args }) ?_ ?_)
  · refine List.map_congr_left fun other inside => ?_
    have values : valuesFor set other.name [item] = if flag.name = other.name then [value] else [] := by
      by_cases same : flag.name = other.name <;> simp [valuesFor, Item.setting?, sets, found, same]
    simp only [values]
    by_cases same : other.name = flag.name
    · rw [List.inj_on_of_nodup_map distinct inside member same]
      simp
    · simp [same, Ne.symm same]
  · simp [named]

/-- An argument with dashes is read as a name if there is a flag of that name, and else as a letter. -/
theorem read_dashes (set : FlagSet) (double : Bool) {body : String} (solid : body ≠ "")
    (single : body.toList.head? ≠ some '-') :
    set.read (dashes double ++ body) =
      match set.find? (cutAt '=' body).1 with
      | some flag =>
        if body.contains '=' then .ok (.assign flag (cutAt '=' body).2)
        else if flag.value.isSwitch then .ok (.assign flag "")
        else .ok (.assignNext flag (dashes double ++ (cutAt '=' body).1))
      | none =>
        if double then .error (.unknownFlag (dashes double ++ (cutAt '=' body).1))
        else set.readLetter (dashes double ++ body) := by
  obtain ⟨c, rest, chars⟩ := List.exists_cons_of_ne_nil (mt String.toList_eq_nil_iff.mp solid)
  have other : '-' ≠ c := fun same => single (by rw [chars, same, List.head?_cons])
  have starts : startsWith "-" (dashes double ++ body) = true := by
    cases double <;> simp [startsWith, dashes]
  have form : (if startsWith "--" (dashes double ++ body) then "--" else "-") = dashes double := by
    cases double <;> simp [startsWith, dashes, chars, other]
  have more (written : String) (short : written = "-" ∨ written = "--") : dashes double ++ body ≠ written := by
    intro same
    have letters := congrArg String.toList same
    rcases short with rfl | rfl <;> cases double <;> simp [dashes, chars, other.symm] at letters
  unfold read
  simp only [starts, more _ (.inl rfl), more _ (.inr rfl), form, withoutStart_append, decide_false, Bool.not_true,
    Bool.or_false, Bool.false_eq_true, if_false]
  cases double <;> rfl

theorem read_short {letter : Char} {behind : String} (stands : (Key.short letter).stands set behind = true)
    (found : set.findLetter? (String.singleton letter) = some flag) :
    set.read (dashes false ++ (String.singleton letter ++ behind)) =
      if flag.value.isSwitch then
        if behind = "" then .ok (.assign flag "")
        else .error (.unknownFlag (dashes false ++ (String.singleton letter ++ behind)))
      else if behind = "" then .ok (.assignNext flag (dashes false ++ (String.singleton letter ++ behind)))
      else .ok (.assign flag behind) := by
  simp only [Key.stands, Bool.and_eq_true, decide_eq_true_eq, Option.isNone_iff_eq_none] at stands
  obtain ⟨⟨ascii, other⟩, unknown⟩ := stands
  rw [read_dashes set false (by simp) (by simpa using other), unknown]
  have chars : (dashes false ++ (String.singleton letter ++ behind)).toList = '-' :: letter :: behind.toList := by
    simp [dashes]
  simp only [Bool.false_eq_true, if_false, readLetter, chars, ascii, if_true, found, List.isEmpty_iff,
    String.toList_eq_nil_iff, String.ofList_toList]

theorem read_long {double : Bool} {behind : String} (stands : (Key.long double name).stands set behind = true)
    (found : set.find? name = some flag) :
    set.read (dashes double ++ name) =
        .ok (if flag.value.isSwitch then .assign flag "" else .assignNext flag (dashes double ++ name)) ∧
      ∀ value, set.read (dashes double ++ name ++ "=" ++ value) = .ok (.assign flag value) := by
  simp only [Key.stands, Bool.and_eq_true, decide_eq_true_eq, Bool.not_eq_true', List.contains_eq_mem,
    decide_eq_false_iff_not] at stands
  obtain ⟨⟨solid, none⟩, single⟩ := stands
  refine ⟨?_, fun value => ?_⟩
  · have cut : cutAt '=' name = (name, "") := by simpa using @cutAt_append '=' name "" none (by simp)
    rw [read_dashes set double solid single, cut, found]
    simp only [String.contains_char_eq, none, decide_false, Bool.false_eq_true, if_false]
    split <;> rfl
  · have cut : cutAt '=' (name ++ ("=" ++ value)) = (name, value) := by
      rw [cutAt_append none (by simp)]
      simp
    have first : (name ++ ("=" ++ value)).toList.head? ≠ some '-' := by
      rwa [String.toList_append, List.head?_append_of_ne_nil _ (mt String.toList_eq_nil_iff.mp solid)]
    rw [String.append_assoc, String.append_assoc, read_dashes set double (by simp [solid]) first, cut, found]
    simp

theorem read_key {key : Key} (stands : key.stands set "" = true) (found : key.flag? set = some flag) :
    set.read key.text = .ok (if flag.value.isSwitch then .assign flag "" else .assignNext flag key.text) := by
  cases key with
  | long double name => exact (read_long stands found).1
  | short letter =>
    have read := read_short stands found
    rw [String.append_empty, if_pos rfl, if_pos rfl] at read
    rw [Key.text, read]
    split <;> rfl

theorem read_positional {arg : String} (fits : (Item.positional arg).fits set = true) :
    set.read arg = .ok .positional := by
  rw [read, if_pos]
  by_cases starts : startsWith "-" arg = true
  · obtain ⟨rest, chars⟩ : ∃ rest, "-".toList ++ rest = arg.toList := List.isPrefixOf_iff_prefix.mp starts
    have whole : arg = "-" ++ String.ofList rest := String.toList_inj.mp (by simp [← chars])
    have short : arg.utf8ByteSize < 2 := by simpa [Item.fits, ← chars] using fits
    have dash : "-".utf8ByteSize = 1 := rfl
    rw [whole, String.utf8ByteSize_append] at short
    have empty : String.ofList rest = "" := String.utf8ByteSize_eq_zero_iff.mp (by omega)
    simp [whole, empty]
  · simp [starts]

/-- Reading goes on behind an item with what the item says carried out. -/
theorem readAll_item (distinct : (set.flags.map Flag.name).Nodup) {item : Item} (fits : item.fits set = true)
    (rest : List String) : set.readAll (item.arguments ++ rest) = (set.carry [item]).readAll rest := by
  have assigned {key : Key} {value : String} {flag : Flag} (sets : item.sets? = some (key, value))
      (found : key.flag? set = some flag)
      (accepts : flag.value.isSwitch = false ∨ value = "" ∨ (readSwitch? value).isSome = true) :
      set.assign flag value = .ok (set.carry [item]) := assign_eq distinct sets found accepts
  cases item with
  | positional arg =>
    rw [Item.arguments, List.singleton_append, readAll, read_positional fits, carry_positional]
  | joined key value =>
    cases key with
    | long double name =>
      obtain ⟨stands, any⟩ := Bool.and_eq_true_iff.mp fits
      obtain ⟨flag, found, accepts⟩ := (Option.any_eq_true _ _).mp any
      rw [Item.arguments, List.singleton_append, readAll, Key.text, (read_long stands found).2 value]
      simp only [assigned rfl found (by simpa [or_assoc] using accepts)]
    | short letter =>
      obtain ⟨stands, any⟩ := Bool.and_eq_true_iff.mp fits
      obtain ⟨flag, found, takes⟩ := (Option.any_eq_true _ _).mp any
      simp only [Bool.and_eq_true, Bool.not_eq_true', decide_eq_true_eq] at takes
      have read := read_short stands found
      rw [takes.1, if_neg Bool.false_ne_true, if_neg takes.2] at read
      rw [Item.arguments, List.singleton_append, readAll, Key.text, String.append_assoc, read]
      simp only [assigned rfl found (.inl takes.1)]
  | apart key value =>
    obtain ⟨stands, any⟩ := Bool.and_eq_true_iff.mp fits
    obtain ⟨flag, found, takes⟩ := (Option.any_eq_true _ _).mp any
    have valued : flag.value.isSwitch = false := by simpa using takes
    rw [Item.arguments, List.cons_append, readAll, read_key stands found, valued]
    simp [assigned rfl found (.inl valued)]
  | switch key =>
    obtain ⟨stands, any⟩ := Bool.and_eq_true_iff.mp fits
    obtain ⟨flag, found, takes⟩ := (Option.any_eq_true _ _).mp any
    rw [Item.arguments, List.singleton_append, readAll, read_key stands found, takes]
    simp [assigned rfl found (.inr (.inl rfl))]

theorem readAll_items (distinct : (set.flags.map Flag.name).Nodup) {items : List Item}
    (fits : ∀ item ∈ items, item.fits set = true) (rest : List String) :
    set.readAll (items.flatMap Item.arguments ++ rest) = (set.carry items).readAll rest := by
  induction items generalizing set with
  | nil => rw [carry_nil, List.flatMap_nil, List.nil_append]
  | cons item items ih =>
    obtain ⟨first, others⟩ := List.forall_mem_cons.mp fits
    rw [List.flatMap_cons, List.append_assoc, readAll_item distinct first, ← carry_cons item items]
    refine ih (by rwa [carry, names_update]) fun other inside => ?_
    rw [carry, fits_update _ _ fun flag => FlagValue.isSwitch_after _]
    exact others other inside

theorem readAll_further (set : FlagSet) (further : Option (List String)) :
    set.readAll (further.elim [] ("--" :: ·)) = (set.addArgs (further.getD []), none) := by
  cases further with
  | none => simp [readAll, addArgs]
  | some rest =>
    have ended : set.read "--" = .ok .endOfFlags := by rw [read, if_neg (by decide), if_pos rfl]
    simp only [Option.elim_some, readAll, ended, Option.getD_some]

end FlagSet

/-- A command line sets flags and names arguments, and does nothing else. Whatever is written, and in whatever order: it
is read to its end, a text or a switch has the value that it was set to last, a list has all values that it was set to
behind those that it had, and the other arguments are there in their order. -/
theorem parse_carries_out {set : FlagSet} (distinct : (set.flags.map Flag.name).Nodup) {items : List Item}
    (fits : ∀ item ∈ items, item.fits set = true) (further : Option (List String)) :
    set.parse (items.flatMap Item.arguments ++ further.elim [] ("--" :: ·)) =
      ({ set with
          flags := set.flags.map fun flag => { flag with value := flag.value.after (valuesFor set flag.name items) }
          args := items.filterMap Item.positional? ++ further.getD [] }, none) := by
  have allowed : ∀ item ∈ items, item.fits { set with args := [] } = true := fits
  have same : valuesFor { set with args := [] } = valuesFor set := rfl
  rw [FlagSet.parse, @FlagSet.readAll_items { set with args := [] } distinct items allowed, FlagSet.readAll_further]
  simp only [FlagSet.carry, FlagSet.update, same, FlagSet.addArgs, List.nil_append]

/-- A list with a letter, a switch with a name like a letter, another switch, and a text. -/
def buildFlags : FlagSet where
  flags := [⟨"output", "o", "", .text "a.out", "a.out", "file"⟩, ⟨"S", "", "", .switch false, "false", ""⟩,
    ⟨"quiet", "q", "", .switch true, "true", ""⟩, ⟨"linker-arg", "L", "", .list ["-g"], "[-g]", "arg"⟩]

/-- The value of one flag is written like another, a value is a pair of dashes, and a flag is set twice. -/
theorem parse_carries_out_dashed :
    buildFlags.parse ["-L", "--", "a.c", "-ofirst", "-S", "--quiet=F", "-L-S", "-output", "--S", "-", "--linker-arg==",
        "--", "-q"] =
      ({ flags := [⟨"output", "o", "", .text "--S", "a.out", "file"⟩, ⟨"S", "", "", .switch true, "false", ""⟩,
          ⟨"quiet", "q", "", .switch false, "true", ""⟩,
          ⟨"linker-arg", "L", "", .list ["-g", "--", "-S", "="], "[-g]", "arg"⟩],
         args := ["a.c", "-", "-q"] }, none) :=
  @parse_carries_out buildFlags (by decide) [.apart (.short 'L') "--", .positional "a.c", .joined (.short 'o') "first",
    .switch (.long false "S"), .joined (.long true "quiet") "F", .joined (.short 'L') "-S",
    .apart (.long false "output") "--S", .positional "-", .joined (.long true "linker-arg") "="]
    (by decide) (some ["-q"])

end CommandLine

end IntC
