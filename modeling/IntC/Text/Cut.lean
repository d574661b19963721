namespace IntC

/-- The text before the first separator and the text behind it, which is empty without one. -/
def cutAt (separator : Char) (text : String) : String × String :=
  let (before, rest) := text.toList.span (· ≠ separator)
  (String.ofList before, String.ofList rest.tail)

/-- Whether the text begins with the given start. -/
def startsWith (start text : String) : Bool := start.toList.isPrefixOf text.toList

/-- The text without the given start, if it has it. -/
def withoutStart (start text : String) : String :=
  if startsWith start text then String.ofList (text.toList.drop start.length) else text

/-- What stands between the separators of a text: one piece more than there are separators. -/
def pieces (separator : Char) : List Char → List (List Char)
  | [] => [[]]
  | c :: rest =>
    if c = separator then [] :: pieces separator rest
    else
      match pieces separator rest with
      | piece :: more => (c :: piece) :: more
      | [] => [[c]]

def split (separator : Char) (text : String) : List String :=
  (pieces separator text.toList).map String.ofList

end IntC
