import IntC.Config
import IntC.Error
import IntC.Text.Cut

namespace IntC

structure SourceFile where
  name : String
  content : String
deriving DecidableEq, Repr, Inhabited

namespace Diagnostic

def fileAt? (files : List SourceFile) : Int → Option SourceFile
  | .ofNat index => files[index]?
  | .negSucc _ => none

/-- The line with the given number, counted from one. A number beyond the last line means the last, one
before the first means the first. -/
def lineAt (text : List Char) (number : Int) : List Char :=
  let lines := pieces '\n' text
  lines.getD (min (number - 1).toNat (lines.length - 1)) []

/-- The source line of a span, and below it a mark under every character of the span. -/
def excerpt (files : List SourceFile) (span : Span) : String :=
  match fileAt? files span.file with
  | none => ""
  | some file =>
    if span.line = 0 then ""
    else
      let indent := String.ofList (List.replicate (span.column - 1).toNat ' ')
      let marks := String.ofList (List.replicate (span.length - 1).toNat '~')
      "  " ++ String.ofList (lineAt file.content.toList span.line) ++ "\n  "
        ++ indent ++ "^" ++ marks ++ "\n"

def location (files : List SourceFile) (span : Span) : String :=
  let name := ((fileAt? files span.file).map SourceFile.name).getD "unknown"
  name ++ ":" ++ toString span.line ++ ":" ++ toString span.column ++ ": "

/-- What is shown for a failure that has no place. -/
def plain (message : String) : String := "nqcc: error: " ++ message ++ "\n"

def error (files : List SourceFile) (failure : Error) : String :=
  match failure.cause.kind? with
  | none => plain failure.text
  | some _ =>
    if failure.span.line = 0 then plain failure.cause.message
    else
      location files failure.span ++ "error: " ++ failure.cause.message ++ "\n"
        ++ excerpt files failure.span

/-- What is shown for a failure that was met while doing something else: its place is kept, and only a
failure without a class tells what was being done. -/
def errorIn (files : List SourceFile) (context : String) (failure : Error) : String :=
  match failure.cause.kind? with
  | none => plain (context ++ ": " ++ failure.text)
  | some _ => error files failure

/-- What is shown for a warning of the given kind. -/
def warning (files : List SourceFile) (kind : WarningKind) (span : Span) (message : String) : String :=
  location files span ++ "warning: " ++ message ++ " [-W" ++ kind.name ++ "]\n" ++ excerpt files span

def warnings (files : List SourceFile) (given : List Warning) : String :=
  String.join (given.map fun w => warning files w.caution.kind w.span w.caution.message)

end Diagnostic

end IntC
