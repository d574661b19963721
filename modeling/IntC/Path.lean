import IntC.Text.Cut

namespace IntC.Path

def isRooted (path : String) : Bool := startsWith "/" path

/-- One step of cleaning: `stack` holds the parts kept so far, the last one first. -/
def pushPart (rooted : Bool) (stack : List String) (part : String) : List String :=
  if part = "" || part = "." then stack
  else if part = ".." then
    match stack with
    | [] => if rooted then [] else [".."]
    | top :: below => if top = ".." then ".." :: stack else below
  else part :: stack

/-- The shortest path that means the same, as far as the text alone tells. -/
def clean (path : String) : String :=
  let rooted := isRooted path
  let parts := ((split '/' path).foldl (pushPart rooted) []).reverse
  let body := "/".intercalate parts
  if rooted then "/" ++ body else if parts.isEmpty then "." else body

/-- The parts put together and cleaned; empty if all of them are. -/
def join (parts : List String) : String :=
  let given := parts.dropWhile (· = "")
  if given.isEmpty then "" else clean ("/".intercalate given)

def base (path : String) : String :=
  if path = "" then "."
  else
    match path.toList.reverse.dropWhile (· = '/') with
    | [] => "/"
    | trimmed => String.ofList (trimmed.takeWhile (· ≠ '/')).reverse

def dir (path : String) : String :=
  clean (String.ofList (path.toList.reverse.dropWhile (· ≠ '/')).reverse)

/-- A path without the ending of its last part, which begins at the last dot. -/
def withoutEnding (path : String) : String :=
  let back := path.toList.reverse
  match back.dropWhile fun c => c ≠ '/' && c ≠ '.' with
  | '.' :: before => String.ofList before.reverse
  | _ => path

end IntC.Path
