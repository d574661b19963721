import IntC.Token.Lexer

namespace IntC

inductive ConstantFault where
  | malformed | tooLarge
deriving DecidableEq, Repr, Inhabited

/-- Reads digits behind a value read so far. The first character that is no digit, or that lifts the
value above the largest unsigned word, decides. -/
def readDigits (value : Nat) : List Char → Except ConstantFault Nat
  | [] => .ok value
  | c :: rest =>
    if isDigit c then
      let longer := value * 10 + (c.toNat - '0'.toNat)
      if 0x100000000 ≤ longer then .error .tooLarge else readDigits longer rest
    else .error .malformed

/-- At least one digit. -/
def readMagnitude : List Char → Except ConstantFault Nat
  | [] => .error .malformed
  | digits => readDigits 0 digits

/-- Reads a decimal constant with an optional sign as a signed word. -/
def readConstant (text : String) : Except ConstantFault Int :=
  match text.toList with
  | '-' :: digits => do
    let value ← readMagnitude digits
    if 0x80000000 < value then .error .tooLarge else return -(value : Int)
  | '+' :: digits | digits => do
    let value ← readMagnitude digits
    if 0x80000000 ≤ value then .error .tooLarge else return (value : Int)

end IntC
