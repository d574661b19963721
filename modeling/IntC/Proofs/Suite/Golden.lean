import IntC.Proofs.Files
import IntC.Proofs.Json
import IntC.Suite.Golden
import Mathlib.Tactic.SplitIfs

namespace IntC.Suite

/-- The numbers of an execution are words, so that they can be read back. -/
structure Execution.Fits (execution : Execution) : Prop where
  exitCode : Number.fitsWord execution.exitCode = true
  duration : Number.fitsWord execution.duration = true

structure Trial.Fits (trial : Trial) : Prop where
  compile : trial.compile.Fits
  run : ∀ run ∈ trial.run, run.Fits

namespace Decoder

theorem magnitude_toDigits (n : Nat) :
    (Nat.toDigits 10 n).foldl (fun n c => 10 * n + (c.toNat - '0'.toNat)) 0 = n :=
  Nat.ofDigitChars_toDigits (by decide) (by decide)

theorem all_isDigit_toDigits (n : Nat) : (Nat.toDigits 10 n).all Char.isDigit = true :=
  List.all_eq_true.mpr fun _ member => Nat.isDigit_of_mem_toDigits (by decide) (by decide) member

/-- A word that was written is read back. -/
theorem wholeNumber?_toString {n : Int} (fits : Number.fitsWord n = true) : wholeNumber? (toString n) = some n := by
  have digits (m : Nat) : ((Nat.toDigits 10 m).isEmpty || !(Nat.toDigits 10 m).all Char.isDigit) = false := by
    rw [all_isDigit_toDigits]
    simp
  cases n with
  | ofNat m =>
    have written : (toString (Int.ofNat m)).toList = Nat.toDigits 10 m := number_toList m
    have unsigned : ∀ rest, Nat.toDigits 10 m ≠ '-' :: rest := by
      intro rest signed
      have digit := all_isDigit_toDigits m
      rw [signed] at digit
      cases digit
    rw [wholeNumber?, written]
    split
    next negative rest parts =>
      split at parts
      next rest signed => exact absurd signed (unsigned rest)
      next =>
        cases parts
        have value : ((m : Nat) : Int) = Int.ofNat m := rfl
        simp only [digits, magnitude_toDigits, Bool.false_eq_true, if_false, value, fits, if_true]
  | negSucc m =>
    have written : (toString (Int.negSucc m)).toList = '-' :: Nat.toDigits 10 (m + 1) := by
      rw [← number_toList]
      exact String.toList_append
    have value : -((m + 1 : Nat) : Int) = Int.negSucc m := rfl
    rw [wholeNumber?, written]
    simp only [digits, magnitude_toDigits, if_true, value, fits, Bool.false_eq_true, if_false]

theorem int_toJson {n : Int} (type : String) (old : Int) (fits : Number.fitsWord n = true) :
    int type old (.int n) = (n, none) := by
  simp only [int, JsonValue.int, wholeNumber?_toString fits]

section Record
variable {α β : Type} {holder : String} {fields : List (Field α)} {old whole : α} {name : String} {value : JsonValue}

theorem record_cons {field : Field α} {rest : List (String × JsonValue)}
    (chosen : (fields.find? fun field => sameName field.name name) = some field)
    (decoded : field.decode old value = (whole, none)) :
    record holder fields old (.record ((name, value) :: rest)) = record holder fields whole (.record rest) := by
  simp only [record, List.foldl_cons, chosen, decoded]
  rfl

theorem via_decode {decode : Decoder β} {get : α → β} {set : α → β → α} {part : β}
    (decoded : decode (get old) value = (part, none)) :
    (Field.via name decode get set).decode old value = (set old part, none) := by
  simp only [Field.via, decoded]

end Record

theorem optional_record {α : Type} {fresh new : α} {decode : Decoder α} {old : Option α}
    {fields : List (String × JsonValue)} (decoded : decode (old.getD fresh) (.record fields) = (new, none)) :
    optional fresh decode old (.record fields) = (some new, none) := by
  simp only [optional, decoded]

theorem execution_toJson {execution : Execution} (fits : execution.Fits) (old : Execution) :
    Decoder.execution old execution.toJson = (execution, none) := by
  calc Decoder.execution old execution.toJson
    _ = _ := record_cons rfl rfl
    _ = _ := record_cons rfl rfl
    _ = _ := record_cons rfl (via_decode (int_toJson _ _ fits.exitCode))
    _ = _ := record_cons rfl (via_decode (int_toJson _ _ fits.duration))
    _ = _ := record_cons rfl rfl

/-- A trial is read back into one that holds nothing yet. -/
theorem trial_toJson {trial : Trial} (fits : trial.Fits) : Decoder.trial {} trial.toJson = (trial, none) := by
  obtain ⟨binary, compile, run⟩ := trial
  have binaryRead (rest : List (String × JsonValue)) :
      Decoder.trial {} (.record (textField "binary_path" binary ++ rest)) =
        Decoder.trial { binary } (.record rest) := by
    by_cases unnamed : binary = ""
    · rw [unnamed]
      rfl
    · rw [textField, if_neg unnamed]
      exact record_cons rfl rfl
  have compileRead (rest : List (String × JsonValue)) :
      Decoder.trial { binary } (.record (("compile", compile.toJson) :: rest)) =
        Decoder.trial { binary, compile } (.record rest) :=
    record_cons rfl (via_decode (execution_toJson fits.compile _))
  rw [Trial.toJson, List.append_assoc, binaryRead, List.singleton_append, compileRead]
  cases run with
  | none => rfl
  | some run => exact record_cons rfl (via_decode (optional_record (execution_toJson (fits.run run rfl) _)))

theorem golden_toJson {golden : Golden} (fits : ∀ trial ∈ golden.result, trial.Fits) :
    Decoder.golden {} golden.toJson = (golden, none) := by
  obtain ⟨hash, result⟩ := golden
  have hashRead (value : JsonValue) : Decoder.golden {} (.record [("source_hash", .text hash), ("result", value)]) =
      Decoder.golden ⟨hash, none⟩ (.record [("result", value)]) := record_cons rfl rfl
  rw [Golden.toJson, hashRead]
  cases result with
  | none => exact record_cons rfl rfl
  | some trial => exact record_cons rfl (via_decode (optional_record (trial_toJson (fits trial rfl))))

end Decoder

section Readable
open JsonValue

attribute [local simp] Readable fieldsReadable

theorem Execution.readable (execution : Execution) {room : Nat} (space : 0 < room) :
    execution.toJson.Readable room := by
  simp [Execution.toJson, space, JsonValue.int]

theorem Trial.readable (trial : Trial) {room : Nat} (space : 1 < room) : trial.toJson.Readable room := by
  have inner (execution : Execution) : execution.toJson.Readable (room - 1) := execution.readable (by omega)
  have outer : 0 < room := by omega
  rw [Trial.toJson, textField]
  cases trial.run with
  | none | some run => split_ifs <;> simp [outer, inner]

theorem Golden.readable (golden : Golden) : golden.toJson.Readable Reader.maxDepth := by
  have inner (trial : Trial) : trial.toJson.Readable (Reader.maxDepth - 1) := trial.readable (by decide)
  have outer : 0 < Reader.maxDepth := by decide
  rw [Golden.toJson]
  cases golden.result with
  | none => simp [outer]
  | some trial => simp [outer, inner]

end Readable

namespace Golden
variable {files locked stored : Files} {chosen source : String} {golden : Golden}

theorem parse_indented (fits : ∀ trial ∈ golden.result, trial.Fits) :
    parse golden.toJson.indented = .ok golden := by
  rw [parse, JsonValue.parse_indented golden.readable]
  simp only [Decoder.golden_toJson fits]

theorem keeps_lock {folder : String} (locks : lock files folder = .ok locked) : files.Keeps locked := by
  rw [lock] at locks
  cases made : files.makeFolder folder with
  | error why =>
    rw [made] at locks
    cases locks
  | ok folders =>
    have kept := Files.keeps_makeFolder made
    simp only [made, Except.mapError, bind, Except.bind] at locks
    split at locks
    case isTrue =>
      cases locks
      exact kept
    case isFalse fresh =>
      split at locks
      case h_1 => cases locks
      case h_2 written =>
        cases locks
        exact kept.trans (Files.keeps_write (Bool.eq_false_iff.mpr fresh) written)

theorem read_store (made : store files chosen source golden = .ok stored) :
    stored.read (path chosen source) = .ok golden.toJson.indented := by
  rw [store] at made
  cases locks : lock files (folder chosen source) with
  | error why =>
    rw [locks] at made
    cases made
  | ok locked =>
    simp only [locks, bind, Except.bind, Except.mapError] at made
    split at made
    case h_1 => cases made
    case h_2 written =>
      cases made
      exact Files.read_write written

/-- A recording is found as long as its file is as it was written and the lock can be taken. -/
theorem load_eq (text : files.read (path chosen source) = .ok golden.toJson.indented)
    (fits : ∀ trial ∈ golden.result, trial.Fits) (locks : lock files (folder chosen source) = .ok locked) :
    load files chosen source golden.sourceHash = (locked, .ok golden.result) := by
  have kept := (keeps_lock locks).read text
  simp only [load, locks, kept, parse_indented fits, Except.map, if_true]

end Golden

end IntC.Suite
