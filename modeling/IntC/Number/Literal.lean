import IntC.Number.Word

namespace IntC.Number

inductive LiteralFault where
  | malformed | outOfRange
deriving DecidableEq, Repr, Inhabited

def LiteralFault.message : LiteralFault → String
  | .malformed => "parse error"
  | .outOfRange => "value out of range"

def digitValue? (c : Char) : Option Nat :=
  let lower := c.toLower
  if c.isDigit then some (c.toNat - '0'.toNat)
  else if 'a' ≤ lower && lower ≤ 'z' then some (lower.toNat - 'a'.toNat + 10)
  else none

/-- The base that a literal is written in, and its digits. -/
def baseOf : List Char → Nat × List Char
  | '0' :: mark :: c :: rest =>
    match mark.toLower with
    | 'b' => (2, c :: rest)
    | 'o' => (8, c :: rest)
    | 'x' => (16, c :: rest)
    | _ => (8, mark :: c :: rest)
  | '0' :: rest => (8, rest)
  | digits => (10, digits)

/-- The value of digits with underscores between them, in 64 bits without sign. The first fault met
counts. -/
def readDigits (base value : Nat) : List Char → Except LiteralFault Nat
  | [] => .ok value
  | '_' :: rest => readDigits base value rest
  | c :: rest =>
    match digitValue? c with
    | none => .error .malformed
    | some digit =>
      if base ≤ digit then .error .malformed
      else if wordSpan ≤ base * value + digit then .error .outOfRange
      else readDigits base (base * value + digit) rest

/-- Whether every underscore stands between digits, where the sign of a base counts as one. -/
def underscoresFit (afterDigit : Bool) : List Char → Bool
  | [] => true
  | '_' :: c :: rest => afterDigit && c ≠ '_' && underscoresFit true (c :: rest)
  | '_' :: [] => false
  | _ :: rest => underscoresFit true rest

/-- Reads a whole number of 64 bits, in base ten or with the sign of another base. -/
def readInteger (text : String) : Except LiteralFault Int := do
  let (negative, unsigned) := match text.toList with
    | '-' :: rest => (true, rest)
    | '+' :: rest => (false, rest)
    | rest => (false, rest)
  if unsigned.isEmpty then throw .malformed
  let (base, digits) := baseOf unsigned
  let magnitude ← readDigits base 0 digits
  let marked : Bool := match unsigned with
    | '0' :: mark :: _ => ['b', 'o', 'x'].contains mark.toLower
    | _ => false
  let behindMark := if marked then unsigned.drop 2 else unsigned
  if !underscoresFit marked behindMark then throw .malformed
  let value : Int := if negative then -magnitude else magnitude
  if fitsWord value then return value else throw .outOfRange

/-- The units of time, in nanoseconds. -/
def timeUnits : List (String × Nat) := [
  ("ns", 1), ("us", 1000), ("µs", 1000), ("μs", 1000), ("ms", 1000000), ("s", 1000000000),
  ("m", 60000000000), ("h", 3600000000000)]

def readNat (digits : List Char) : Nat := digits.foldl (fun n c => 10 * n + (c.toNat - '0'.toNat)) 0

/-- One number with its unit, in nanoseconds, and what follows. -/
def readTimePart? (text : List Char) : Option (Nat × List Char) := do
  let whole := text.takeWhile Char.isDigit
  let behind := text.dropWhile Char.isDigit
  let (decimals, behind) := match behind with
    | '.' :: rest => (rest.takeWhile Char.isDigit, rest.dropWhile Char.isDigit)
    | rest => ([], rest)
  if whole.isEmpty && decimals.isEmpty then none
  let name := behind.takeWhile fun c => c ≠ '.' && !c.isDigit
  let unit ← timeUnits.lookup (String.ofList name)
  let value := readNat whole * unit + readNat decimals * unit / decimals.foldl (fun scale _ => 10 * scale) 1
  if wordLimit < value then none
  return (value, behind.dropWhile fun c => c ≠ '.' && !c.isDigit)

/-- A sum of times, with at most as many parts as the fuel says. -/
def readTimes? : Nat → List Char → Option Nat
  | _, [] => some 0
  | 0, _ => none
  | fuel + 1, text => do
    let (value, rest) ← readTimePart? text
    let more ← readTimes? fuel rest
    if wordLimit < value + more then none else some (value + more)

/-- Reads a duration such as `1h30m` or `1.5s`, in nanoseconds. -/
def readDuration? (text : String) : Option Int := do
  let (negative, unsigned) := match text.toList with
    | '-' :: rest => (true, rest)
    | '+' :: rest => (false, rest)
    | rest => (false, rest)
  if unsigned = ['0'] then return 0
  if unsigned.isEmpty then none
  let value ← readTimes? unsigned.length unsigned
  if negative then return -value
  else if value < wordLimit then return value
  else none

end IntC.Number
