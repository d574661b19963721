import IntC.Text.Quoted

namespace IntC

/-- A JSON document. A number is kept as it is written, and a record in the order of its fields. -/
inductive JsonValue where
  | null
  | bool (value : Bool)
  | number (written : String)
  | text (value : String)
  | list (items : List JsonValue)
  | record (fields : List (String × JsonValue))
deriving Repr, Inhabited

namespace JsonValue

def int (n : Int) : JsonValue := .number (toString n)

/-- A character inside a quoted text. Those that could end a script are written by their number. -/
def escaped (c : Char) : String :=
  match c with
  | '"' => "\\\""
  | '\\' => "\\\\"
  | '\n' => "\\n"
  | '\r' => "\\r"
  | '\t' => "\\t"
  | '\x08' => "\\b"
  | '\x0c' => "\\f"
  | _ =>
    let n := c.toNat
    if n < 0x20 || c = '<' || c = '>' || c = '&' || n = 0x2028 || n = 0x2029 then
      "\\u" ++ hexPadded 4 n
    else String.singleton c

def quote (text : String) : String := "\"" ++ String.join (text.toList.map escaped) ++ "\""

def newline (depth : Nat) : String := "\n" ++ String.ofList (List.replicate (2 * depth) ' ')

mutual

/-- The document with every item and field on a line of its own, two spaces deeper than what holds
it. -/
def render (depth : Nat) : JsonValue → String
  | .null => "null"
  | .bool on => if on then "true" else "false"
  | .number written => written
  | .text value => quote value
  | .list [] => "[]"
  | .list (item :: rest) =>
    "[" ++ newline (depth + 1) ++ render (depth + 1) item ++ renderItems (depth + 1) rest
      ++ newline depth ++ "]"
  | .record [] => "\x7b\x7d"
  | .record ((name, value) :: rest) =>
    "\x7b" ++ newline (depth + 1) ++ quote name ++ ": " ++ render (depth + 1) value
      ++ renderFields (depth + 1) rest ++ newline depth ++ "\x7d"

def renderItems (depth : Nat) : List JsonValue → String
  | [] => ""
  | item :: rest => "," ++ newline depth ++ render depth item ++ renderItems depth rest

def renderFields (depth : Nat) : List (String × JsonValue) → String
  | [] => ""
  | (name, value) :: rest =>
    "," ++ newline depth ++ quote name ++ ": " ++ render depth value ++ renderFields depth rest

end

def indented (value : JsonValue) : String := value.render 0

end JsonValue

end IntC
