namespace IntC.Number

/-- The quotient rounded to the nearest whole number, a half to the even one. -/
def roundDiv (num den : Nat) : Nat :=
  let low := num / den
  let twice := 2 * (num % den)
  if twice < den then low else if den < twice then low + 1 else low + low % 2

/-- A positive number as a fraction. -/
structure Fraction where
  num : Nat
  den : Nat
deriving DecidableEq, Repr, Inhabited

namespace Fraction

/-- The number of binary places behind the point that leave 53 significant bits, if not negative, and
the number of bits dropped before the point otherwise. -/
def places (x : Fraction) : Int :=
  let guess : Int := x.num.log2 - x.den.log2
  let short : Bool :=
    if 0 ≤ guess then decide (x.num < x.den <<< guess.toNat)
    else decide (x.num <<< (-guess).toNat < x.den)
  52 - if short then guess - 1 else guess

/-- The nearest number with 53 significant bits, a half to the even one. -/
def nearest (x : Fraction) : Fraction :=
  let places := x.places
  if 0 ≤ places then ⟨roundDiv (x.num <<< places.toNat) x.den, 1 <<< places.toNat⟩
  else ⟨roundDiv x.num (x.den <<< (-places).toNat) <<< (-places).toNat, 1⟩

def ofNat (n : Nat) : Fraction := nearest ⟨n, 1⟩

/-- The quotient of two such numbers, again with 53 significant bits. -/
def div (x y : Fraction) : Fraction := nearest ⟨x.num * y.den, x.den * y.num⟩

def le (x y : Fraction) : Bool := x.num * y.den ≤ y.num * x.den

/-- The number with two decimal places, a half going to the even digit. -/
def twoPlaces (x : Fraction) : String :=
  let hundredths := roundDiv (100 * x.num) x.den
  let rest := hundredths % 100
  toString (hundredths / 100) ++ "." ++ (if rest < 10 then "0" else "") ++ toString rest

end Fraction

end IntC.Number
