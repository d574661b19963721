import IntC.Text.Cut

namespace IntC

def occursIn (part : List Char) : List Char → Bool
  | [] => part.isEmpty
  | c :: rest => part.isPrefixOf (c :: rest) || occursIn part rest

def contains (text part : String) : Bool := occursIn part.toList text.toList

/-- Puts `new` where `old` stands, from left to right. The count says how many characters of an
occurrence are still to be passed over. -/
def replaceFrom (old new : List Char) : Nat → List Char → List Char
  | _, [] => []
  | skip + 1, _ :: rest => replaceFrom old new skip rest
  | 0, c :: rest =>
    if old.isPrefixOf (c :: rest) then new ++ replaceFrom old new (old.length - 1) rest
    else c :: replaceFrom old new 0 rest

/-- Replaces every occurrence of a text that is not empty. -/
def replaceAll (text old new : String) : String :=
  if old = "" then text else String.ofList (replaceFrom old.toList new.toList 0 text.toList)

/-- The text with spaces before it, up to `width` characters. -/
def padLeft (width : Nat) (text : String) : String :=
  String.ofList (List.replicate (width - text.length) ' ') ++ text

end IntC
