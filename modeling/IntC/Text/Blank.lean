import IntC.Text.Ranges

namespace IntC

/-- The white space of Unicode 15.0 (property White_Space). -/
def blankRanges : Ranges := [
  (0x9, 0xd), (0x20, 0x20), (0x85, 0x85), (0xa0, 0xa0), (0x1680, 0x1680), (0x2000, 0x200a),
  (0x2028, 0x2029), (0x202f, 0x202f), (0x205f, 0x205f), (0x3000, 0x3000)]

def isBlank (c : Char) : Bool := blankRanges.has c

/-- The maximal runs without white space, where `current` is the run read so far. -/
def wordsFrom (current : List Char) : List Char → List (List Char)
  | [] => if current.isEmpty then [] else [current]
  | c :: rest =>
    if isBlank c then
      if current.isEmpty then wordsFrom [] rest else current :: wordsFrom [] rest
    else wordsFrom (current ++ [c]) rest

/-- The words of a text: its maximal runs of characters that are no white space. -/
def words (text : String) : List String :=
  (wordsFrom [] text.toList).map String.ofList

/-- The text without the white space at its two ends. -/
def trimBlanks (text : String) : String :=
  String.ofList ((text.toList.dropWhile isBlank).reverse.dropWhile isBlank).reverse

end IntC
