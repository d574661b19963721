import IntC.Text.Blank

namespace IntC

/-- The bytes of a line with single spaces between its words. -/
def lineBytes (line : List String) : Nat := (" ".intercalate line).utf8ByteSize

/-- Puts each word on the line under way if it fits there, and on a new line otherwise. -/
def fillFrom (width : Nat) (line : List String) : List String → List (List String)
  | [] => [line]
  | word :: rest =>
    if lineBytes line + word.utf8ByteSize + 1 > width then line :: fillFrom width [word] rest
    else fillFrom width (line ++ [word]) rest

/-- The lines of words that are filled one after the other. -/
def fill (width : Nat) : List String → List (List String)
  | [] => []
  | word :: rest => fillFrom width [word] rest

/-- The words of a text in lines of at most `width` bytes, a longer word on a line of its own. With no
width at all the text is left as it is. -/
def wrap (width : Nat) (text : String) : List String :=
  if width = 0 then [text] else (fill width (words text)).map (" ".intercalate ·)

/-- The text with spaces behind it, up to `width` characters. -/
def padRight (width : Nat) (text : String) : String :=
  text ++ String.ofList (List.replicate (width - text.length) ' ')

end IntC
