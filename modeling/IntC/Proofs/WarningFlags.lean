import IntC.Config
import IntC.Proofs.CommandLine
import IntC.Proofs.Traverse
import Mathlib.Data.List.Induction

namespace IntC

open CommandLine

namespace CommandLine.FlagSet
variable {set after : FlagSet} {flag : Flag}

theorem find?_of_mem (distinct : (set.flags.map Flag.name).Nodup) (member : flag ∈ set.flags) :
    set.find? flag.name = some flag := by
  obtain ⟨other, found⟩ : ∃ other, set.find? flag.name = some other :=
    Option.isSome_iff_exists.mp (List.find?_isSome.mpr ⟨flag, member, by simp⟩)
  have same : other.name = flag.name := by simpa using List.find?_some found
  rw [found, List.inj_on_of_nodup_map distinct (List.mem_of_find?_eq_some found) member same]

/-- Flags that are declared without a clash stand behind the others, and names stay distinct. -/
theorem declareAll_eq_ok {flags : List Flag} (distinct : (set.flags.map Flag.name).Nodup)
    (made : set.declareAll flags = .ok after) :
    after = { set with flags := set.flags ++ flags } ∧ (after.flags.map Flag.name).Nodup := by
  induction flags generalizing set with
  | nil =>
    cases made
    exact ⟨by simp, distinct⟩
  | cons flag rest ih =>
    rw [declareAll, declare] at made
    split_ifs at made with nameless taken
    have fresh : ∀ other ∈ set.flags, other.name ≠ flag.name := by simpa [find?] using taken
    simpa using ih (by simpa [List.nodup_append, distinct] using fresh) made

end CommandLine.FlagSet

/-- The name of the flag that switches a warning on or off. -/
def WarningKind.flagName (kind : WarningKind) (on : Bool) : String :=
  if on then "W" ++ kind.name else "W" ++ "no-" ++ kind.name

/-- What is written to switch a warning on or off. -/
def warningArgument (flag : WarningKind × Bool) : String := "-" ++ flag.1.flagName flag.2

theorem WarningKind.flagName_inj {kind other : WarningKind} {on off : Bool} :
    kind.flagName on = other.flagName off ↔ kind = other ∧ on = off := by
  cases kind <;> cases on <;> cases other <;> cases off <;> decide

def lastMention (kind : WarningKind) (flags : List (WarningKind × Bool)) : Option Bool :=
  (flags.filter (·.1 = kind)).getLast?.map Prod.snd

section LastMention
variable {kind : WarningKind} {flags : List (WarningKind × Bool)}

theorem mem_of_lastMention {on : Bool} (last : lastMention kind flags = some on) : (kind, on) ∈ flags := by
  obtain ⟨flag, ends, rfl⟩ := Option.map_eq_some_iff.mp last
  obtain ⟨inside, same⟩ := List.mem_filter.mp (List.mem_of_getLast? ends)
  exact of_decide_eq_true same ▸ inside

theorem not_mem_of_lastMention (last : lastMention kind flags = none) (on : Bool) : (kind, on) ∉ flags := by
  simp only [lastMention, Option.map_eq_none_iff, List.getLast?_eq_none_iff, List.filter_eq_nil_iff] at last
  exact fun inside => last _ inside (decide_eq_true rfl)

end LastMention

namespace Config
variable (config : Config)

theorem isEnabled_setWarning (kind other : WarningKind) (on : Bool) :
    (config.setWarning other on).isEnabled kind = if other = kind then on else config.isEnabled kind := by
  cases kind <;> cases other <;> rfl

theorem isEnabled_takeWarnings (set : FlagSet) (kind : WarningKind) :
    (config.takeWarnings set).isEnabled kind =
      ((config.isEnabled kind || set.isOn (kind.flagName true)) && !set.isOn (kind.flagName false)) := by
  have step (kind : WarningKind) (on off : Bool) (config : Config) (other : WarningKind) :
      Config.isEnabled (if off then (if on then config.setWarning kind true else config).setWarning kind false
        else if on then config.setWarning kind true else config) other =
      if kind = other then (config.isEnabled other || on) && !off else config.isEnabled other := by
    cases on <;> cases off <;> by_cases same : kind = other <;> simp [isEnabled_setWarning, same]
  simp only [takeWarnings, warningGroup, WarningKind.all, List.map_cons, List.map_nil, List.zip_cons_cons,
    List.zip_nil_left, List.foldl_cons, List.foldl_nil, step]
  cases kind <;> rfl

theorem foldlM_applyWarningFlag (flags : List (WarningKind × Bool)) :
    (flags.map warningArgument).foldlM Config.applyWarningFlag config =
      .ok (flags.foldl (fun config flag => config.setWarning flag.1 flag.2) config) := by
  induction flags generalizing config with
  | nil => rfl
  | cons flag rest ih =>
    have applied : config.applyWarningFlag (warningArgument flag) = .ok (config.setWarning flag.1 flag.2) := by
      rcases flag with ⟨_ | _ | _, _ | _⟩ <;> rfl
    rw [List.map_cons, List.foldlM_cons, applied]
    exact ih _

theorem isEnabled_foldl (flags : List (WarningKind × Bool)) (kind : WarningKind) :
    (flags.foldl (fun config flag => config.setWarning flag.1 flag.2) config).isEnabled kind =
      (lastMention kind flags).getD (config.isEnabled kind) := by
  induction flags using List.reverseRecOn with
  | nil => rfl
  | append_singleton flags flag ih =>
    rw [List.foldl_concat, isEnabled_setWarning, ih]
    by_cases same : flag.1 = kind <;> simp [lastMention, same]

end Config

/-- A flag set with both flags of each warning, of which the one that switches it on is as the configuration. -/
structure OffersWarnings (config : Config) (set : FlagSet) : Prop where
  distinct : (set.flags.map Flag.name).Nodup
  exists_flag (kind : WarningKind) (on : Bool) : ∃ flag, set.find? (kind.flagName on) = some flag ∧
    flag.name = kind.flagName on ∧ flag.value = .switch (on && config.isEnabled kind)

namespace OffersWarnings
variable {config : Config} {set : FlagSet}

theorem of_addGroup {before : FlagSet} (distinct : (before.flags.map Flag.name).Nodup)
    (added : before.addGroup config.warningGroup = .ok set) : OffersWarnings config { set with args := [] } := by
  obtain ⟨declared, made, ⟨⟩⟩ := bind_eq_ok.mp added
  obtain ⟨rfl, distinct⟩ := FlagSet.declareAll_eq_ok distinct made
  refine ⟨distinct, fun kind on => ?_⟩
  obtain ⟨flag, member, name, value⟩ : ∃ flag ∈ config.warningGroup.choices.flatMap Choice.flags,
      flag.name = kind.flagName on ∧ flag.value = .switch (on && config.isEnabled kind) := by
    cases on <;>
      simp [Config.warningGroup, WarningKind.all, Choice.flags, Choice.onName, Choice.offName] <;>
      cases kind <;> simp [WarningKind.flagName]
  exact ⟨flag, name ▸ FlagSet.find?_of_mem distinct (List.mem_append_right _ member), name, value⟩

/-- Each flag is on if it was on before or is written. -/
theorem exists_readAll (offers : OffersWarnings config set) (flags : List (WarningKind × Bool)) :
    ∃ parsed, set.readAll (flags.map warningArgument) = (parsed, none) ∧
      ∀ kind on, parsed.isOn (kind.flagName on) = ((on && config.isEnabled kind) || flags.contains (kind, on)) := by
  let items := flags.map fun flag => Item.switch (.long false (flag.1.flagName flag.2))
  have arguments : items.flatMap Item.arguments ++ [] = flags.map warningArgument := by
    rw [List.append_nil, List.flatMap_map, List.map_eq_flatMap]
    rfl
  have fits : ∀ item ∈ items, item.fits set = true := by
    refine List.forall_mem_map.mpr fun flag _ => ?_
    obtain ⟨switch, known, _, value⟩ := offers.exists_flag flag.1 flag.2
    have stands : (Key.long false (flag.1.flagName flag.2)).stands set "" = true := by
      rcases flag with ⟨_ | _ | _, _ | _⟩ <;> rfl
    simp [Item.fits, stands, Key.flag?, known, value, FlagValue.isSwitch]
  have settings : items.filterMap (Item.setting? set) = flags.map fun flag => (flag.1.flagName flag.2, "") := by
    rw [List.filterMap_map, ← List.filterMap_eq_map]
    refine List.filterMap_congr fun flag _ => ?_
    obtain ⟨switch, known, name, _⟩ := offers.exists_flag flag.1 flag.2
    simp [Item.setting?, Item.sets?, Key.flag?, known, name]
  refine ⟨set.carry items, ?_, fun kind on => ?_⟩
  · rw [← arguments, FlagSet.readAll_items offers.distinct fits, FlagSet.readAll]
  · obtain ⟨switch, known, name, value⟩ := offers.exists_flag kind on
    have values : valuesFor set (kind.flagName on) items = List.replicate (flags.count (kind, on)) "" := by
      have same (flag : WarningKind × Bool) :
          decide (flag.1.flagName flag.2 = kind.flagName on) = (flag == (kind, on)) := by
        rw [Bool.eq_iff_iff]
        simp [WarningKind.flagName_inj, Prod.ext_iff]
      simp [valuesFor, settings, List.filter_map, Function.comp_def, same, List.filter_beq]
    simp only [FlagSet.isOn, FlagSet.valueOf?, FlagSet.carry, FlagSet.find?_update, known, Option.map_some, value, name,
      values, FlagValue.after, List.getLast?_replicate, List.count_eq_zero]
    by_cases written : (kind, on) ∈ flags <;> simp [written]

end OffersWarnings

/-- Taken as a group, the flags leave a warning on if it was on or is switched on, and is never switched off. Applied
one after the other, the last flag of a warning decides. The two agree on a warning unless it is switched off, and on
again at the end. -/
theorem warning_flags_agree_iff {config : Config} {before set : FlagSet}
    (distinct : (before.flags.map Flag.name).Nodup) (added : before.addGroup config.warningGroup = .ok set)
    (flags : List (WarningKind × Bool)) :
    ∃ parsed applied, set.parse (flags.map warningArgument) = (parsed, none) ∧
      (flags.map warningArgument).foldlM Config.applyWarningFlag config = .ok applied ∧
      ∀ kind,
        (config.takeWarnings parsed).isEnabled kind =
          ((config.isEnabled kind || flags.contains (kind, true)) && !flags.contains (kind, false)) ∧
        applied.isEnabled kind = (lastMention kind flags).getD (config.isEnabled kind) ∧
        ((config.takeWarnings parsed).isEnabled kind = applied.isEnabled kind ↔
          ¬((kind, false) ∈ flags ∧ lastMention kind flags = some true)) := by
  obtain ⟨parsed, read, isOn⟩ := (OffersWarnings.of_addGroup distinct added).exists_readAll flags
  refine ⟨parsed, _, read, config.foldlM_applyWarningFlag flags, fun kind => ?_⟩
  rw [config.isEnabled_takeWarnings, config.isEnabled_foldl, isOn, isOn]
  refine ⟨by simp, rfl, ?_⟩
  cases last : lastMention kind flags with
  | none => simp [not_mem_of_lastMention last]
  | some on =>
    have mentioned := mem_of_lastMention last
    cases on <;> simp [mentioned]

theorem exists_addGroup (config : Config) : ∃ set, ({} : FlagSet).addGroup config.warningGroup = .ok set :=
  exists_ok_of_toBool rfl

theorem warning_flags_agree_iff_default : ∃ set parsed applied,
    ({} : FlagSet).addGroup (Config.warningGroup {}) = .ok set ∧
      set.parse ["-Wno-extra", "-Wshadow", "-Wextra"] = (parsed, none) ∧
      ["-Wno-extra", "-Wshadow", "-Wextra"].foldlM Config.applyWarningFlag {} = .ok applied ∧
      (Config.takeWarnings {} parsed).isEnabled .shadow = applied.isEnabled .shadow ∧
      (Config.takeWarnings {} parsed).isEnabled .extra ≠ applied.isEnabled .extra := by
  obtain ⟨set, added⟩ := exists_addGroup {}
  obtain ⟨parsed, applied, read, made, each⟩ :=
    @warning_flags_agree_iff {} {} set List.nodup_nil added [(.extra, false), (.shadow, true), (.extra, true)]
  exact ⟨set, parsed, applied, added, read, made, (each .shadow).2.2.mpr (by decide),
    mt (each .extra).2.2.mp (by decide)⟩

/-- A warning that is switched off and then on is off for the group, and on for the flags in their order. -/
theorem group_forgets_order : ∃ set parsed applied,
    ({} : FlagSet).addGroup (Config.warningGroup {}) = .ok set ∧
      set.parse ["-Wno-shadow", "-Wshadow"] = (parsed, none) ∧
      ["-Wno-shadow", "-Wshadow"].foldlM Config.applyWarningFlag {} = .ok applied ∧
      (Config.takeWarnings {} parsed).isEnabled .shadow = false ∧ applied.isEnabled .shadow = true := by
  obtain ⟨set, added⟩ := exists_addGroup {}
  obtain ⟨parsed, read, isOn⟩ := (@OffersWarnings.of_addGroup {} set {} List.nodup_nil added).exists_readAll
    [(.shadow, false), (.shadow, true)]
  refine ⟨set, parsed, _, added, read, rfl, ?_, rfl⟩
  rw [Config.isEnabled_takeWarnings, isOn, isOn]
  rfl

end IntC
