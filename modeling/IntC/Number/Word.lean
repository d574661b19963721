namespace IntC.Number

/-- The number of values that a word of 64 bits has. -/
def wordSpan : Nat := 0x10000000000000000

/-- The word of 64 bits with sign that a number leaves. -/
def toWord (n : Int) : Int := n.bmod wordSpan

/-- The first number that a word with sign does not hold. -/
def wordLimit : Nat := 0x8000000000000000

def fitsWord (n : Int) : Bool := -(wordLimit : Int) ≤ n && n < wordLimit

end IntC.Number
