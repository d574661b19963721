import IntC.Files
import IntC.Proofs.Traverse

namespace IntC.Files

variable {path content : String} {entry : FileEntry}

def follow (place : List String) (name : String) : List String :=
  if name = "" || name = "." then place else if name = ".." then place.dropLast else place ++ [name]

/-- Whatever is a folder stays one. -/
def KeepsFolders (all later : Files) : Prop :=
  ∀ place, all.entry? place = some .folder → later.entry? place = some .folder

/-- Whatever is there stays as it is. -/
structure Keeps (all later : Files) : Prop where
  home : later.home = all.home
  entry {place : List String} {entry : FileEntry} : all.entry? place = some entry → later.entry? place = some entry

section Walk
variable {all later : Files} {place target : List String} {names : List String} {name : String}

theorem walk_nil : all.walk place [] = .ok place := rfl

theorem walk_cons : all.walk place (name :: names) = .ok target ↔
    all.entry? place = some .folder ∧ all.walk (follow place name) names = .ok target := by
  rw [walk, follow]
  cases all.entry? place with
  | none => simp
  | some entry =>
    cases entry with
    | file content => simp
    | folder => split_ifs <;> simp

theorem walk_concat : all.walk place (names ++ [name]) = .ok target ↔
    ∃ parent, all.walk place names = .ok parent ∧ all.entry? parent = some .folder ∧ target = follow parent name := by
  induction names generalizing place with
  | nil =>
    rw [List.nil_append, walk_cons]
    simp [walk_nil, eq_comm]
  | cons first rest ih =>
    rw [List.cons_append, walk_cons, ih]
    simp only [walk_cons]
    constructor
    · rintro ⟨folder, parent, walked, inside⟩
      exact ⟨parent, ⟨folder, walked⟩, inside⟩
    · rintro ⟨parent, ⟨folder, walked⟩, inside⟩
      exact ⟨folder, parent, walked, inside⟩

theorem KeepsFolders.walk (keeps : all.KeepsFolders later) (walked : all.walk place names = .ok target) :
    later.walk place names = .ok target := by
  induction names generalizing place with
  | nil => exact walked
  | cons name rest ih =>
    obtain ⟨folder, walked⟩ := walk_cons.mp walked
    exact walk_cons.mpr ⟨keeps place folder, ih walked⟩

theorem namesOf_congr (home : later.home = all.home) (path : String) : later.namesOf path = all.namesOf path := by
  rw [namesOf, namesOf, home]

theorem find_eq_ok_iff : all.find path = .ok entry ↔
    ∃ names place, all.namesOf path = .ok names ∧ all.walk [] names = .ok place ∧ all.entry? place = some entry := by
  constructor
  · intro found
    obtain ⟨names, named, rest⟩ := bind_eq_ok.mp found
    obtain ⟨place, walked, there⟩ := bind_eq_ok.mp rest
    cases stands : all.entry? place with
    | none =>
      rw [stands] at there
      cases there
    | some other =>
      rw [stands] at there
      cases there
      exact ⟨names, place, named, walked, stands⟩
  · rintro ⟨names, place, named, walked, there⟩
    refine bind_eq_ok.mpr ⟨names, named, bind_eq_ok.mpr ⟨place, walked, ?_⟩⟩
    rw [there]

theorem read_eq_ok_iff : all.read path = .ok content ↔ all.find path = .ok (.file content) := by
  constructor
  · intro done
    obtain ⟨entry, found, rest⟩ := bind_eq_ok.mp done
    cases entry with
    | file other =>
      cases rest
      exact found
    | folder => cases rest
  · intro found
    exact bind_eq_ok.mpr ⟨_, found, rfl⟩

theorem isFile_eq_true_iff : all.isFile path = true ↔ ∃ content, all.find path = .ok (.file content) := by
  rw [isFile]
  cases all.find path with
  | error fault => simp
  | ok entry => cases entry <;> simp

end Walk

namespace Keeps
variable {all later last : Files}

theorem refl (all : Files) : all.Keeps all := ⟨rfl, id⟩

theorem trans (first : all.Keeps later) (second : later.Keeps last) : all.Keeps last :=
  ⟨second.home.trans first.home, fun found => second.entry (first.entry found)⟩

theorem find (keeps : all.Keeps later) {path : String} {entry : FileEntry} (found : all.find path = .ok entry) :
    later.find path = .ok entry := by
  obtain ⟨names, place, named, walked, there⟩ := find_eq_ok_iff.mp found
  have folders : all.KeepsFolders later := fun _ => keeps.entry
  exact find_eq_ok_iff.mpr ⟨names, place, (namesOf_congr keeps.home path).trans named, folders.walk walked, keeps.entry there⟩

theorem read (keeps : all.Keeps later) {path content : String} (found : all.read path = .ok content) :
    later.read path = .ok content :=
  read_eq_ok_iff.mpr (keeps.find (read_eq_ok_iff.mp found))

end Keeps

section Put
variable {all : Files} {place other : List String} {content : String}

theorem lookup_replace (files : List (List String × String)) :
    (files.map fun (at_, old) => (at_, if at_ = place then content else old)).lookup other =
      (files.lookup other).map fun old => if other = place then content else old := by
  induction files with
  | nil => rfl
  | cons file rest ih =>
    obtain ⟨at_, old⟩ := file
    simp only [List.map_cons, List.lookup_cons, ih]
    cases same : other == at_ with
    | false => rfl
    | true => simp [beq_iff_eq.mp same]

theorem lookup_put : (all.put place content).files.lookup other =
    if other = place then some content else all.files.lookup other := by
  rw [put]
  by_cases known : (all.files.lookup place).isSome = true
  · rw [if_pos known, lookup_replace]
    obtain ⟨old, found⟩ := Option.isSome_iff_exists.mp known
    by_cases same : other = place
    · simp [same, found]
    · simp [same]
  · have absent := Option.not_isSome_iff_eq_none.mp known
    rw [if_neg known, List.lookup_append, List.lookup_cons]
    by_cases same : other = place
    · simp [same, absent]
    · simp [same, beq_eq_false_iff_ne.mpr same]

theorem home_put : (all.put place content).home = all.home :=
  (apply_ite home ..).trans (ite_self _)

theorem folders_put : (all.put place content).folders = all.folders :=
  (apply_ite folders ..).trans (ite_self _)

theorem mem_places_put {used : List String} (member : used ∈ all.files.map Prod.fst) :
    used ∈ (all.put place content).files.map Prod.fst := by
  rw [put]
  split
  · simpa [Function.comp_def] using member
  · simpa using Or.inl member

end Put

section Entry
variable {all later : Files} {place : List String}

/-- A folder is a place without a file that is the outermost one or leads to something. -/
theorem entry?_eq_folder_iff : all.entry? place = some .folder ↔ all.files.lookup place = none ∧
    (place = [] ∨ (∃ used ∈ all.folders, place <+: used) ∨ ∃ used ∈ all.files.map Prod.fst, place <+: used) := by
  have leads : (place.isEmpty || all.folders.any (place.isPrefixOf ·) || all.files.any (place.isPrefixOf ·.1)) = true ↔
      place = [] ∨ (∃ used ∈ all.folders, place <+: used) ∨ ∃ used ∈ all.files.map Prod.fst, place <+: used := by
    simp only [Bool.or_eq_true, List.isEmpty_iff, List.any_eq_true, List.isPrefixOf_iff_prefix, List.mem_map,
      exists_exists_and_eq_and, or_assoc]
  rw [ entry?, ← leads]
  cases all.files.lookup place with
  | some content => simp
  | none =>
    simp only [true_and]
    split
    · exact iff_of_true rfl ‹_›
    · exact iff_of_false (by simp) ‹_›

theorem entry?_eq_file_iff : all.entry? place = some (.file content) ↔ all.files.lookup place = some content := by
  rw [ entry?]
  cases all.files.lookup place with
  | some content => simp
  | none => simp only; split <;> simp

theorem entry?_put_self : entry? (all.put place content) place = some (.file content) := by
  rw [entry?_eq_file_iff, lookup_put, if_pos rfl]

/-- Nothing changes at a place if its content stays and no folder or file is taken away. -/
theorem entry?_mono (same : later.files.lookup place = all.files.lookup place)
    (folders : ∀ used ∈ all.folders, used ∈ later.folders)
    (files : ∀ used ∈ all.files.map Prod.fst, used ∈ later.files.map Prod.fst) (found : all.entry? place = some entry) :
    later.entry? place = some entry := by
  cases entry with
  | file content => exact entry?_eq_file_iff.mpr (same.trans (entry?_eq_file_iff.mp found))
  | folder =>
    obtain ⟨free, inside⟩ := entry?_eq_folder_iff.mp found
    refine entry?_eq_folder_iff.mpr ⟨same.trans free, inside.imp_right (Or.imp ?_ ?_)⟩
    · rintro ⟨used, member, leads⟩
      exact ⟨used, folders used member, leads⟩
    · rintro ⟨used, member, leads⟩
      exact ⟨used, files used member, leads⟩

theorem entry?_put {other : List String} (apart : other ≠ place) (found : all.entry? other = some entry) :
    entry? (all.put place content) other = some entry := by
  refine entry?_mono ?_ (fun used member => ?_) (fun used => mem_places_put) found
  · rw [lookup_put, if_neg apart]
  · rwa [folders_put]

end Entry

section Write
variable {all later : Files} {path content : String}

theorem walk_proper {names parent : List String}
    (proper : ¬(names.getLastD "" = "" || names.getLastD "" = "." || names.getLastD "" = "..") = true)
    (walked : all.walk [] names.dropLast = .ok parent) (folder : all.entry? parent = some .folder) :
    all.walk [] names = .ok (parent ++ [names.getLastD ""]) := by
  obtain rfl | ⟨before, name, rfl⟩ := List.eq_nil_or_concat names
  · exact absurd rfl proper
  · rw [List.concat_eq_append] at proper walked ⊢
    rw [List.getLastD_concat] at proper ⊢
    rw [List.dropLast_concat] at walked
    have leads : parent ++ [name] = follow parent name := by
      simp only [Bool.or_eq_true, decide_eq_true_eq, not_or] at proper
      simp [follow, proper]
    exact walk_concat.mpr ⟨parent, walked, folder, leads⟩

/-- What writing does: the place that the path leads to is in a folder, is none itself, and gets the content. -/
theorem write_eq_ok (written : all.write path content = .ok later) : ∃ names place, all.namesOf path = .ok names ∧
    all.walk [] names = .ok place ∧ all.entry? place ≠ some .folder ∧ later = all.put place content := by
  obtain ⟨names, named, rest⟩ := bind_eq_ok.mp written
  obtain ⟨parent, walked, rest⟩ := bind_eq_ok.mp rest
  split at rest
  case h_1 | h_2 => cases rest
  case h_3 folder =>
    split at rest
    case isTrue => cases rest
    case isFalse proper =>
      split at rest
      case h_1 => cases rest
      case h_2 free =>
        cases rest
        exact ⟨names, _, named, walk_proper proper walked folder, free, rfl⟩

theorem read_write (written : all.write path content = .ok later) : later.read path = .ok content := by
  obtain ⟨names, place, named, walked, free, rfl⟩ := write_eq_ok written
  have folders : all.KeepsFolders (all.put place content) := by
    intro other folder
    have apart : other ≠ place := by
      rintro rfl
      exact free folder
    exact entry?_put apart folder
  have same : (all.put place content).namesOf path = all.namesOf path := namesOf_congr home_put path
  exact read_eq_ok_iff.mpr (find_eq_ok_iff.mpr ⟨names, place, same.trans named, folders.walk walked, entry?_put_self⟩)

theorem keeps_write (fresh : all.isFile path = false) (written : all.write path content = .ok later) :
    all.Keeps later := by
  obtain ⟨names, place, named, walked, free, rfl⟩ := write_eq_ok written
  have absent : ∀ entry, all.entry? place ≠ some entry := by
    intro entry found
    cases entry with
    | folder => exact free found
    | file old =>
      have taken := isFile_eq_true_iff.mpr ⟨old, find_eq_ok_iff.mpr ⟨names, place, named, walked, found⟩⟩
      rw [fresh] at taken
      cases taken
  refine ⟨home_put, fun {other entry} found => entry?_put ?_ found⟩
  rintro rfl
  exact absent entry found

theorem keeps_makeFolder (made : all.makeFolder path = .ok later) : all.Keeps later := by
  rw [makeFolder] at made
  split at made
  case h_1 =>
    cases made
    exact .refl all
  case h_3 =>
    cases made
    refine ⟨rfl, fun found => entry?_mono ?_ (fun used => ?_) (fun used => ?_) found⟩
    · rfl
    · exact List.mem_append_left _
    · exact id
  case h_2 | h_4 => cases made

end Write

end IntC.Files
