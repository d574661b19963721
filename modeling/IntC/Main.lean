import IntC.Command

namespace IntC

/-- The text of a file on disk, if it can be read. -/
def readText (path : String) : IO (Option String) := do
  try
    return some (← IO.FS.readFile path)
  catch _ =>
    return none

/-- The disk as a toolchain. Sources are taken as preprocessed already, and there is no linker: only
assembly can be written. -/
def diskTools : Toolchain IO where
  inspect path := do return if (← readText path).isSome then none else some .missing
  preprocess path := do
    match ← readText path with
    | some source => return .ok source
    | none => return .error ⟨FileFault.missing.message, ""⟩
  write path text := do
    try
      IO.FS.writeFile path text
      return none
    catch _ =>
      return some .missing
  link _ := return some ⟨"exec: \"cc\": executable file not found in $PATH", ""⟩

end IntC

def main (args : List String) : IO UInt32 := do
  let ending ← IntC.Command.run IntC.diskTools "linux" "amd64" args
  IO.print ending.out
  IO.eprint ending.err
  return if ending.ok then 0 else 1
