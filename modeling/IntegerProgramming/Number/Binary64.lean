/-! # Doubles as exact values

    A double is undefined, infinite, or a signed multiple of a power of two.
    Everything that is written about a double (its shortest decimal, its
    decimal to a fixed number of places, its place in the total order) is
    computed from this view, in exact integer arithmetic. -/

namespace IntegerProgramming

/-- What a double stands for; a finite one is `± significand * 2 ^ exponent`. -/
inductive Binary64 where
  | undefined
  | infinite (negative : Bool)
  | finite (negative : Bool) (significand : Nat) (exponent : Int)
  deriving DecidableEq

namespace Binary64

/-- The bit patterns from here on belong to negative numbers. -/
def signThreshold : Nat := Nat.pow 2 63

/-- The number of values that the exponent field can take. -/
def exponentRange : Nat := Nat.pow 2 11

/-- The number of values that the fraction field can take. -/
def fractionRange : Nat := Nat.pow 2 52

/-- Reads sign, exponent and fraction off the 64 bits.  The smallest exponent
    belongs to the subnormal numbers, the largest to infinities and undefined
    numbers; all other numbers have a leading one that is not stored. -/
def ofBits (bits : Nat) : Binary64 :=
  let negative := decide (signThreshold ≤ bits)
  let biased : Nat := bits / fractionRange % exponentRange
  let fraction : Nat := bits % fractionRange
  if biased = exponentRange - 1 then
    if fraction = 0 then infinite negative else undefined
  else if biased = 0 then finite negative fraction (-1074)
  else finite negative (fractionRange + fraction) ((biased : Int) - 1075)

def ofFloat (x : Float) : Binary64 := ofBits x.toBits.toNat

/-- The gap to the next number below is half the gap above: so it is at every
    power of two but the smallest normal number. -/
def isNarrowBelow (significand : Nat) (exponent : Int) : Bool :=
  significand == fractionRange && decide (-1074 < exponent)

/-- A key that orders the bit patterns of doubles as the numbers they stand
    for, minus zero before zero and the undefined number last. -/
def rank (bits : Nat) : Int :=
  if bits < signThreshold then bits else (signThreshold : Int) - 1 - bits

end Binary64

end IntegerProgramming
