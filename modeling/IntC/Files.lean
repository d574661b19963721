import IntC.Path

namespace IntC

inductive FileFault where
  | missing | notFolder | isFolder | taken
deriving DecidableEq, Repr, Inhabited

def FileFault.message : FileFault → String
  | .missing => "no such file or directory"
  | .notFolder => "not a directory"
  | .isFolder => "is a directory"
  | .taken => "file exists"

/-- Why a folder could not be made, and at which path. -/
structure FolderFault where
  path : String
  fault : FileFault
deriving DecidableEq, Repr, Inhabited

def FolderFault.message (why : FolderFault) : String := "mkdir " ++ why.path ++ ": " ++ why.fault.message

inductive FileEntry where
  | folder
  | file (content : String)
deriving DecidableEq, Repr, Inhabited

/-- A folder with all that is in it. Places are lists of names; a folder exists if it was made or if it
holds a file. -/
structure Files where
  files : List (List String × String) := []
  folders : List (List String) := []
  /-- The absolute path of the folder itself. -/
  home : String := "/"
deriving DecidableEq, Repr, Inhabited

namespace Files

def entry? (all : Files) (place : List String) : Option FileEntry :=
  match all.files.lookup place with
  | some content => some (.file content)
  | none =>
    if place.isEmpty || all.folders.any (place.isPrefixOf ·) || all.files.any (place.isPrefixOf ·.1)
    then some .folder
    else none

/-- Follows the names of a path from a place on. Every place that is left must be a folder. -/
def walk (all : Files) (place : List String) : List String → Except FileFault (List String)
  | [] => .ok place
  | name :: rest =>
    match all.entry? place with
    | none => .error .missing
    | some (.file _) => .error .notFolder
    | some .folder =>
      if name = "" || name = "." then all.walk place rest
      else if name = ".." then all.walk place.dropLast rest
      else all.walk (place ++ [name]) rest

/-- The names of a path below the folder itself; a path elsewhere leads nowhere. -/
def namesOf (all : Files) (path : String) : Except FileFault (List String) :=
  if path = "" then .error .missing
  else if path = all.home then .ok ["."]
  else
    let inside := withoutStart (all.home ++ "/") path
    if Path.isRooted inside then .error .missing else .ok (split '/' inside)

def find (all : Files) (path : String) : Except FileFault FileEntry := do
  let place ← all.walk [] (← all.namesOf path)
  match all.entry? place with
  | some entry => .ok entry
  | none => .error .missing

def read (all : Files) (path : String) : Except FileFault String := do
  match ← all.find path with
  | .file content => .ok content
  | .folder => .error .isFolder

def isFile (all : Files) (path : String) : Bool :=
  match all.find path with
  | .ok (.file _) => true
  | _ => false

/-- Gives a place new content, behind the other files if it had none. -/
def put (all : Files) (place : List String) (content : String) : Files :=
  if (all.files.lookup place).isSome then
    { all with files := all.files.map fun (at_, old) => (at_, if at_ = place then content else old) }
  else { all with files := all.files ++ [(place, content)] }

/-- Writes a file. Its folder must be there already. -/
def write (all : Files) (path content : String) : Except FileFault Files := do
  let names ← all.namesOf path
  let name := names.getLastD ""
  let parent ← all.walk [] names.dropLast
  match all.entry? parent with
  | none => .error .missing
  | some (.file _) => .error .notFolder
  | some .folder =>
    if name = "" || name = "." || name = ".." then .error .isFolder
    else
      match all.entry? (parent ++ [name]) with
      | some .folder => .error .isFolder
      | _ => .ok (all.put (parent ++ [name]) content)

def namesIn (all : Files) (place : List String) : List String :=
  let places := all.folders ++ all.files.map (·.1)
  let names := places.filterMap fun p => if place.isPrefixOf p then (p.drop place.length).head? else none
  names.eraseDups.mergeSort fun a b => !decide (b < a)

/-- The beginning of a path that leads to a file, with the slashes behind it. -/
def obstacle (all : Files) (path : String) : String :=
  let names := split '/' path
  let starts := (List.range names.length).map fun n => "/".intercalate (names.take n)
  let start := (starts.find? all.isFile).getD path
  start ++ String.ofList ((path.toList.drop start.length).takeWhile (· = '/'))

/-- Makes a folder and those above it. No folder can be made where a file is. -/
def makeFolder (all : Files) (path : String) : Except FolderFault Files :=
  match all.find path with
  | .ok .folder => .ok all
  | .ok (.file _) => .error ⟨path, .notFolder⟩
  | .error .missing =>
    let names := (split '/' (Path.clean (withoutStart (all.home ++ "/") path))).filter (· ≠ ".")
    .ok { all with folders := all.folders ++ [names] }
  | .error _ => .error ⟨all.obstacle path, .taken⟩

def ofList (home : String) (files : List (String × String)) : Files :=
  files.foldl (fun all (path, content) => all.put (split '/' path) content) { home := home }

def toList (all : Files) : List (String × String) :=
  all.files.map fun (place, content) => ("/".intercalate place, content)

end Files

end IntC
