import IntC.Files
import IntC.Json.Reader
import IntC.Number.Word
import IntC.Suite.Result

namespace IntC.Suite

/-- The recorded behaviour of the reference compiler on one source text. -/
structure Golden where
  sourceHash : String := ""
  result : Option Trial := none
deriving DecidableEq, Repr, Inhabited

def Golden.toJson (golden : Golden) : JsonValue :=
  .record [
    ("source_hash", .text golden.sourceHash),
    ("result", (golden.result.map Trial.toJson).getD .null)]

/-- A value of the wrong kind: what it is, where it stands and what was wanted there. -/
structure Misfit where
  found : String
  wanted : String
  /-- The record that holds the field, and the names that lead to it. -/
  holder : String := ""
  path : List String := []
deriving DecidableEq, Repr, Inhabited

def Misfit.message (misfit : Misfit) : String :=
  let place :=
    if misfit.path.isEmpty then "Go value"
    else "Go struct field " ++ misfit.holder ++ "." ++ ".".intercalate misfit.path
  "json: cannot unmarshal " ++ misfit.found ++ " into " ++ place ++ " of type " ++ misfit.wanted

/-- Reads a document into a value that may hold something already. The first misfit is kept, and
reading goes on behind it. -/
abbrev Decoder (α : Type) := α → JsonValue → α × Option Misfit

namespace Decoder

def kindOf : JsonValue → String
  | .null => "null"
  | .bool _ => "bool"
  | .number _ => "number"
  | .text _ => "string"
  | .list _ => "array"
  | .record _ => "object"

def text : Decoder String
  | _, .text value => (value, none)
  | old, .null => (old, none)
  | old, value => (old, some ⟨kindOf value, "string", "", []⟩)

def bool : Decoder Bool
  | _, .bool value => (value, none)
  | old, .null => (old, none)
  | old, value => (old, some ⟨kindOf value, "bool", "", []⟩)

/-- A whole number of 64 bits. -/
def wholeNumber? (written : String) : Option Int := do
  let (negative, digits) := match written.toList with
    | '-' :: digits => (true, digits)
    | digits => (false, digits)
  if digits.isEmpty || !digits.all Char.isDigit then none
  let magnitude : Nat := digits.foldl (fun n c => 10 * n + (c.toNat - '0'.toNat)) 0
  let value : Int := if negative then -magnitude else magnitude
  if Number.fitsWord value then some value else none

def int (type : String) : Decoder Int
  | old, .number written =>
    match wholeNumber? written with
    | some value => (value, none)
    | none => (old, some ⟨"number " ++ written, type, "", []⟩)
  | old, .null => (old, none)
  | old, value => (old, some ⟨kindOf value, type, "", []⟩)

/-- Names of fields agree if they differ only in case. Two letters outside ASCII have an ASCII letter
as their other case. -/
def sameName (a b : String) : Bool :=
  let fold := fun (c : Char) =>
    if c = '\u017f' then 's' else if c = '\u212a' then 'k' else c.toLower
  a.toList.map fold = b.toList.map fold

/-- A field of a record: its name, and how its value changes the record. -/
structure Field (α : Type) where
  name : String
  decode : Decoder α

def Field.via {α β : Type} (name : String) (decode : Decoder β) (get : α → β) (set : α → β → α) :
    Field α where
  name
  decode whole value :=
    let (part, misfit) := decode (get whole) value
    (set whole part, misfit)

/-- A record of the given name. Unknown fields are passed over, and fields may come more than once. -/
def record {α : Type} (holder : String) (fields : List (Field α)) : Decoder α
  | old, .record values =>
    values.foldl
      (fun (whole, misfit) (name, value) =>
        match fields.find? fun field => sameName field.name name with
        | none => (whole, misfit)
        | some field =>
          let (whole, next) := field.decode whole value
          let placed := next.map fun m =>
            { m with holder := if m.path.isEmpty then holder else m.holder, path := field.name :: m.path }
          (whole, misfit.or placed))
      (old, none)
  | old, .null => (old, none)
  | old, value => (old, some ⟨kindOf value, "main." ++ holder, "", []⟩)

/-- A value that may be missing; `null` makes it so. -/
def optional {α : Type} (fresh : α) (decode : Decoder α) : Decoder (Option α)
  | _, .null => (none, none)
  | old, value =>
    let (new, misfit) := decode (old.getD fresh) value
    (some new, misfit)

def execution : Decoder Execution := record "Execution" [
  .via "stdout" text (·.stdout) fun e v => { e with stdout := v },
  .via "stderr" text (·.stderr) fun e v => { e with stderr := v },
  .via "exitCode" (int "int") (·.exitCode) fun e v => { e with exitCode := v },
  .via "duration" (int "time.Duration") (·.duration) fun e v => { e with duration := v },
  .via "timed_out" bool (·.timedOut) fun e v => { e with timedOut := v }]

def trial : Decoder Trial := record "TargetResult" [
  .via "binary_path" text (·.binary) fun t v => { t with binary := v },
  .via "compile" execution (·.compile) fun t v => { t with compile := v },
  .via "run" (optional {} execution) (·.run) fun t v => { t with run := v }]

def golden : Decoder Golden := record "Golden" [
  .via "source_hash" text (·.sourceHash) fun g v => { g with sourceHash := v },
  .via "result" (optional {} trial) (·.result) fun g v => { g with result := v }]

end Decoder

inductive GoldenError where
  | folder (why : FolderFault)
  | lock (path : String) (fault : FileFault)
  | unreadable (path : String) (fault : FileFault)
  | unwritable (path : String) (fault : FileFault)
  | malformed (fault : JsonValue.ReadFault)
  | misfit (misfit : Misfit)
deriving Repr

def GoldenError.message : GoldenError → String
  | .folder why => why.message
  | .lock path fault => "acquire golden lock: open " ++ path ++ ": " ++ fault.message
  | .unreadable path fault => "read " ++ path ++ ": " ++ fault.message
  | .unwritable path fault => "open " ++ path ++ ": " ++ fault.message
  | .malformed fault => fault.message
  | .misfit what => what.message

namespace Golden

def parse (text : String) : Except GoldenError Golden :=
  match JsonValue.parse text with
  | .error fault => .error (.malformed fault)
  | .ok value =>
    match Decoder.golden {} value with
    | (golden, none) => .ok golden
    | (_, some misfit) => .error (.misfit misfit)

/-- The folder of the recordings: the chosen one, or else that of the source. -/
def folder (chosen source : String) : String := if chosen = "" then Path.dir source else chosen

def path (chosen source : String) : String :=
  Path.join [folder chosen source, "." ++ Path.base source ++ ".json"]

def lock (files : Files) (folder : String) : Except GoldenError Files := do
  let made ← (files.makeFolder folder).mapError .folder
  let lockPath := Path.join [folder, ".ctest.lock"]
  if made.isFile lockPath then return made
  else (made.write lockPath "").mapError (.lock lockPath)

def store (files : Files) (chosen source : String) (golden : Golden) : Except GoldenError Files := do
  let locked ← lock files (folder chosen source)
  let path := path chosen source
  (locked.write path golden.toJson.indented).mapError (.unwritable path)

/-- The recording for a source with the given hash. One made for another text, or without a result,
counts as none. -/
def load (files : Files) (chosen source hash : String) : Files × Except GoldenError (Option Trial) :=
  match lock files (folder chosen source) with
  | .error error => (files, .error error)
  | .ok locked =>
    let path := path chosen source
    match locked.read path with
    | .error .missing => (locked, .ok none)
    | .error fault => (locked, .error (.unreadable path fault))
    | .ok text =>
      (locked, (parse text).map fun golden => if golden.sourceHash = hash then golden.result else none)

end Golden

end IntC.Suite
