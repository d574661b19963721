import IntC.Files
import IntC.Files.Pattern
import IntC.Text.Blank

namespace IntC

/-- A pattern that cannot be read. -/
structure BadPattern where
  pattern : String
deriving DecidableEq, Repr, Inhabited

def BadPattern.message (bad : BadPattern) : String :=
  "bad pattern " ++ bad.pattern ++ ": syntax error in pattern"

namespace Files

/-- The names in the folder at a path; none if there is no such folder. -/
def namesAt (all : Files) (path : String) : List String :=
  match all.find path, all.namesOf path >>= all.walk [] with
  | .ok .folder, .ok place => all.namesIn place
  | _, _ => []

/-- The paths in a folder whose names fit a pattern. -/
def globIn (all : Files) (pattern folder : String) : Option (List String) := do
  let names ← (all.namesAt folder).filterM (Pattern.fits? pattern)
  return names.map fun name => Path.join [folder, name]

/-- The paths that fit a pattern, given by its parts, the last one first. Each part is matched against
the names in the folders that fit the parts before it. The pattern is tried on the empty name first; what
is malformed in it shows only where some name leads to it. -/
def glob (all : Files) : List String → Option (List String)
  | [] => some []
  | last :: before => do
    let whole := "/".intercalate (last :: before).reverse
    let _ ← Pattern.fits? whole ""
    if !Pattern.isPattern whole then
      return if (all.find whole).isOk then [whole] else []
    let above := "/".intercalate before.reverse
    let folders ←
      if Pattern.isPattern above then all.glob before
      else some [if before.isEmpty then "." else if above = "" then "/" else above]
    return (← folders.mapM (all.globIn last)).flatten

def absolute (all : Files) (path : String) : String :=
  if Path.isRooted path then Path.clean path else Path.join [all.home, path]

/-- The files that fit any of the patterns in a text, pattern by pattern, each only once. -/
def expand (all : Files) (patterns : String) : Except BadPattern (List String) :=
  (words patterns).foldlM
    (fun found pattern =>
      match all.glob (split '/' pattern).reverse with
      | none => .error ⟨pattern⟩
      | some paths =>
        .ok (paths.foldl
          (fun found path =>
            let path := all.absolute path
            if found.contains path || !all.isFile path then found else found ++ [path])
          found))
    []

end Files

end IntC
