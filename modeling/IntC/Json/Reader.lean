import IntC.Json

namespace IntC.JsonValue

/-- What was being read when a character did not fit. -/
inductive Place where
  | value | key | afterKey | afterMember | afterItem | afterTop
  | inText | inEscape | inHex
  | inNumber | afterPoint | inExponent
  | inWord (word : String) (wanted : Char)
  | tooDeep
deriving DecidableEq, Repr, Inhabited

def Place.describe : Place → String
  | .value => "looking for beginning of value"
  | .key => "looking for beginning of object key string"
  | .afterKey => "after object key"
  | .afterMember => "after object key:value pair"
  | .afterItem => "after array element"
  | .afterTop => "after top-level value"
  | .inText => "in string literal"
  | .inEscape => "in string escape code"
  | .inHex => "in \\u hexadecimal character escape"
  | .inNumber => "in numeric literal"
  | .afterPoint => "after decimal point in numeric literal"
  | .inExponent => "in exponent of numeric literal"
  | .inWord word wanted => "in literal " ++ word ++ " (expecting '" ++ String.singleton wanted ++ "')"
  | .tooDeep => "exceeded max depth"

inductive ReadFault where
  | unexpectedEnd
  | misfit (c : Char) (place : Place)
deriving DecidableEq, Repr, Inhabited

/-- A character is shown by the first byte of its encoding. -/
def shownByte (c : Char) : String :=
  let byte := Char.ofNat ((String.singleton c).toUTF8.toList.headD 0).toNat
  if byte = '\'' then "'\\''"
  else if byte = '"' then "'\"'"
  else "'" ++ quotedChar byte ++ "'"

def ReadFault.message : ReadFault → String
  | .unexpectedEnd => "unexpected end of JSON input"
  | .misfit c place => "invalid character " ++ shownByte c ++ " " ++ place.describe

/-- What a text is made of: characters, and halves of characters that were written by number. -/
inductive TextUnit where
  | char (c : Char)
  | half (code : Nat)
deriving DecidableEq, Repr, Inhabited

def TextUnit.ofCode (code : Nat) : TextUnit :=
  if 0xd800 ≤ code && code < 0xe000 then .half code else .char (Char.ofNat code)

/-- Joins halves that belong together; a half on its own becomes the replacement character. -/
def joinUnits : List TextUnit → List Char
  | [] => []
  | .char c :: rest => c :: joinUnits rest
  | .half high :: .half low :: rest =>
    if high < 0xdc00 && 0xdc00 ≤ low then
      Char.ofNat (0x10000 + (high - 0xd800) * 0x400 + (low - 0xdc00)) :: joinUnits rest
    else '�' :: joinUnits (.half low :: rest)
  | .half _ :: rest => '�' :: joinUnits rest

/-- How far a number has been read. -/
inductive NumberPart where
  | minus | zero | whole | point | fraction | exponent | exponentSign | exponentDigits
deriving DecidableEq, Repr, Inhabited

def NumberPart.afterWhole (c : Char) : Option NumberPart :=
  if c = '.' then some .point else if c = 'e' || c = 'E' then some .exponent else none

/-- The part that a character leads to; `none` if the number has ended before it. -/
def NumberPart.next (part : NumberPart) (c : Char) : Except Place (Option NumberPart) :=
  match part with
  | .minus =>
    if c = '0' then .ok (some .zero) else if c.isDigit then .ok (some .whole) else .error .inNumber
  | .zero => .ok (afterWhole c)
  | .whole => .ok (if c.isDigit then some .whole else afterWhole c)
  | .point => if c.isDigit then .ok (some .fraction) else .error .afterPoint
  | .fraction =>
    .ok (if c.isDigit then some .fraction else if c = 'e' || c = 'E' then some .exponent else none)
  | .exponent =>
    if c = '+' || c = '-' then .ok (some .exponentSign)
    else if c.isDigit then .ok (some .exponentDigits)
    else .error .inExponent
  | .exponentSign => if c.isDigit then .ok (some .exponentDigits) else .error .inExponent
  | .exponentDigits => .ok (if c.isDigit then some .exponentDigits else none)

/-- What is being read. What has been read of it is kept backwards. -/
inductive Mode where
  /-- A value is to come, or the end of an empty list. -/
  | value (mayClose : Bool)
  | key (mayClose : Bool)
  | afterKey
  | after
  | text (isKey : Bool) (units : List TextUnit)
  | escape (isKey : Bool) (units : List TextUnit)
  | hex (isKey : Bool) (units : List TextUnit) (digits code : Nat)
  | number (part : NumberPart) (written : List Char)
  | word (word : String) (rest : List Char) (meaning : JsonValue)
deriving Repr, Inhabited

/-- A list or record that has been opened, with what it holds so far, the last one first. -/
inductive Frame where
  | list (items : List JsonValue)
  | record (fields : List (String × JsonValue)) (key : String)
deriving Repr, Inhabited

structure Reader where
  mode : Mode := .value false
  stack : List Frame := []
  result : Option JsonValue := none
deriving Repr, Inhabited

namespace Reader

def maxDepth : Nat := 10000

def isGap (c : Char) : Bool := c = ' ' || c = '\t' || c = '\r' || c = '\n'

def finish (stack : List Frame) (value : JsonValue) : Reader :=
  match stack with
  | [] => ⟨.after, [], some value⟩
  | .list items :: below => ⟨.after, .list (value :: items) :: below, none⟩
  | .record fields key :: below => ⟨.after, .record ((key, value) :: fields) "" :: below, none⟩

def openFrame (stack : List Frame) (frame : Frame) (mode : Mode) : Except Place Reader :=
  if maxDepth ≤ stack.length then .error .tooDeep else .ok ⟨mode, frame :: stack, none⟩

def stepAfter (reader : Reader) (c : Char) : Except Place Reader :=
  if isGap c then .ok reader
  else
    match reader.stack with
    | [] => .error .afterTop
    | .list items :: below =>
      if c = ',' then .ok { reader with mode := .value false }
      else if c = ']' then .ok (finish below (.list items.reverse))
      else .error .afterItem
    | .record fields _ :: below =>
      if c = ',' then .ok { reader with mode := .key false }
      else if c = '\x7d' then .ok (finish below (.record fields.reverse))
      else .error .afterMember

def stepValue (reader : Reader) (mayClose : Bool) (c : Char) : Except Place Reader :=
  if isGap c then .ok reader
  else if c = ']' && mayClose then stepAfter { reader with mode := .after } c
  else
    let go := fun mode => Except.ok { reader with mode }
    match c with
    | '\x7b' => openFrame reader.stack (.record [] "") (.key true)
    | '[' => openFrame reader.stack (.list []) (.value true)
    | '"' => go (.text false [])
    | '-' => go (.number .minus [c])
    | '0' => go (.number .zero [c])
    | 't' => go (.word "true" "rue".toList (.bool true))
    | 'f' => go (.word "false" "alse".toList (.bool false))
    | 'n' => go (.word "null" "ull".toList .null)
    | _ => if c.isDigit then go (.number .whole [c]) else .error .value

def stepKey (reader : Reader) (mayClose : Bool) (c : Char) : Except Place Reader :=
  if isGap c then .ok reader
  else if c = '\x7d' && mayClose then stepAfter { reader with mode := .after } c
  else if c = '"' then .ok { reader with mode := .text true [] }
  else .error .key

/-- Ends a text, which is the key of a record or a value. -/
def endText (reader : Reader) (isKey : Bool) (units : List TextUnit) : Reader :=
  let text := String.ofList (joinUnits units.reverse)
  match isKey, reader.stack with
  | true, .record fields _ :: below => ⟨.afterKey, .record fields text :: below, none⟩
  | _, stack => finish stack (.text text)

def escapes : List (Char × Char) :=
  [('b', '\x08'), ('f', '\x0c'), ('n', '\n'), ('r', '\r'), ('t', '\t'), ('\\', '\\'), ('/', '/'),
    ('"', '"')]

def hexValue? (c : Char) : Option Nat :=
  if c.isDigit then some (c.toNat - '0'.toNat)
  else if 'a' ≤ c && c ≤ 'f' then some (c.toNat - 'a'.toNat + 10)
  else if 'A' ≤ c && c ≤ 'F' then some (c.toNat - 'A'.toNat + 10)
  else none

/-- Takes in one character. -/
def step (reader : Reader) (c : Char) : Except Place Reader :=
  let go := fun mode => Except.ok { reader with mode }
  match reader.mode with
  | .value mayClose => reader.stepValue mayClose c
  | .key mayClose => reader.stepKey mayClose c
  | .afterKey =>
    if isGap c then .ok reader else if c = ':' then go (.value false) else .error .afterKey
  | .after => reader.stepAfter c
  | .text isKey units =>
    if c = '"' then .ok (reader.endText isKey units)
    else if c = '\\' then go (.escape isKey units)
    else if c.toNat < 0x20 then .error .inText
    else go (.text isKey (.char c :: units))
  | .escape isKey units =>
    if c = 'u' then go (.hex isKey units 0 0)
    else
      match escapes.lookup c with
      | some meaning => go (.text isKey (.char meaning :: units))
      | none => .error .inEscape
  | .hex isKey units digits code =>
    match hexValue? c with
    | none => .error .inHex
    | some value =>
      let code := 16 * code + value
      if digits = 3 then go (.text isKey (.ofCode code :: units))
      else go (.hex isKey units (digits + 1) code)
  | .number part written => do
    match ← part.next c with
    | some part => .ok { reader with mode := .number part (c :: written) }
    | none => stepAfter (finish reader.stack (.number (String.ofList written.reverse))) c
  | .word _ [] meaning => .ok (finish reader.stack meaning)
  | .word word (wanted :: rest) meaning =>
    if c ≠ wanted then .error (.inWord word wanted)
    else if rest.isEmpty then .ok (finish reader.stack meaning)
    else go (.word word rest meaning)

def done? (reader : Reader) : Option JsonValue := if reader.stack.isEmpty then reader.result else none

/-- Ends the input, which ends a number at the outermost level and is a space to everything else. -/
def stop (reader : Reader) : Except ReadFault JsonValue :=
  match reader.done? with
  | some value => .ok value
  | none =>
    match reader.step ' ' with
    | .error place => .error (.misfit ' ' place)
    | .ok reader =>
      match reader.done? with
      | some value => .ok value
      | none => .error .unexpectedEnd

def readAll (reader : Reader) : List Char → Except ReadFault JsonValue
  | [] => reader.stop
  | c :: rest =>
    match reader.step c with
    | .ok reader => reader.readAll rest
    | .error place => .error (.misfit c place)

end Reader

def parse (text : String) : Except ReadFault JsonValue := Reader.readAll {} text.toList

end IntC.JsonValue
