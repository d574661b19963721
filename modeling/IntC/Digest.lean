import IntC.Text.Quoted

namespace IntC.Digest

/-! The 64-bit hash XXH64 with seed zero. -/

def prime1 : UInt64 := 0x9E3779B185EBCA87

def prime2 : UInt64 := 0xC2B2AE3D27D4EB4F

def prime3 : UInt64 := 0x165667B19E3779F9

def prime4 : UInt64 := 0x85EBCA77C2B2AE63

def prime5 : UInt64 := 0x27D4EB2F165667C5

def rotateLeft (word amount : UInt64) : UInt64 := (word <<< amount) ||| (word >>> (64 - amount))

/-- The word whose bytes are given, the lowest first. -/
def word (bytes : List UInt8) : UInt64 :=
  bytes.foldr (fun byte high => (high <<< 8) ||| byte.toUInt64) 0

def round (lane input : UInt64) : UInt64 := rotateLeft (lane + input * prime2) 31 * prime1

/-- The four lanes that take in a stripe of 32 bytes side by side. -/
structure Lanes where
  a : UInt64 := prime1 + prime2
  b : UInt64 := prime2
  c : UInt64 := 0
  d : UInt64 := 0 - prime1
deriving DecidableEq, Repr, Inhabited

namespace Lanes

def take (lanes : Lanes) (stripe : List UInt8) : Lanes where
  a := round lanes.a (word (stripe.take 8))
  b := round lanes.b (word ((stripe.drop 8).take 8))
  c := round lanes.c (word ((stripe.drop 16).take 8))
  d := round lanes.d (word ((stripe.drop 24).take 8))

/-- Takes in all whole stripes and gives what is left. -/
def takeAll (lanes : Lanes) (bytes : List UInt8) : Lanes × List UInt8 :=
  if _whole : 32 ≤ bytes.length then (lanes.take (bytes.take 32)).takeAll (bytes.drop 32)
  else (lanes, bytes)
termination_by bytes.length
decreasing_by simp only [List.length_drop]; omega

def mergeLane (hash lane : UInt64) : UInt64 := (hash ^^^ round 0 lane) * prime1 + prime4

def merged (lanes : Lanes) : UInt64 :=
  let sum := rotateLeft lanes.a 1 + rotateLeft lanes.b 7 + rotateLeft lanes.c 12
    + rotateLeft lanes.d 18
  [lanes.a, lanes.b, lanes.c, lanes.d].foldl mergeLane sum

end Lanes

def takeByte (hash : UInt64) (byte : UInt8) : UInt64 :=
  rotateLeft (hash ^^^ (byte.toUInt64 * prime5)) 11 * prime1

def takeHalf (hash : UInt64) (bytes : List UInt8) : UInt64 :=
  rotateLeft (hash ^^^ (word bytes * prime1)) 23 * prime2 + prime3

/-- Takes in what no stripe held: whole words, then half a word, then single bytes. -/
def takeRest (hash : UInt64) : List UInt8 → UInt64
  | b0 :: b1 :: b2 :: b3 :: b4 :: b5 :: b6 :: b7 :: rest =>
    let mixed := hash ^^^ round 0 (word [b0, b1, b2, b3, b4, b5, b6, b7])
    takeRest (rotateLeft mixed 27 * prime1 + prime4) rest
  | b0 :: b1 :: b2 :: b3 :: rest => rest.foldl takeByte (takeHalf hash [b0, b1, b2, b3])
  | rest => rest.foldl takeByte hash

/-- Lets every bit of the hash reach every other. -/
def avalanche (hash : UInt64) : UInt64 :=
  let hash := (hash ^^^ (hash >>> 33)) * prime2
  let hash := (hash ^^^ (hash >>> 29)) * prime3
  hash ^^^ (hash >>> 32)

def hash (bytes : List UInt8) : UInt64 :=
  let (lanes, rest) := Lanes.takeAll {} bytes
  let start := if bytes.length < 32 then prime5 else lanes.merged
  avalanche (takeRest (start + bytes.length.toUInt64) rest)

/-- The hash of a text, as sixteen hexadecimal digits. -/
def ofText (text : String) : String := hexPadded 16 (hash text.toUTF8.toList).toNat

end IntC.Digest
