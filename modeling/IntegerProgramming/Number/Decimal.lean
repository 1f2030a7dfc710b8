/-! # Decimals

    A decimal is a sign, a whole coefficient and a power of ten.  It stands for
    the nearest double; beyond the largest double lies infinity, and below the
    smallest lies zero. -/

namespace IntegerProgramming

/-- The number `± coefficient * 10 ^ power`. -/
structure Decimal where
  negative : Bool
  coefficient : Nat
  power : Int
  deriving DecidableEq

namespace Decimal

/-- The number of digits of the coefficient. -/
def size (d : Decimal) : Nat := d.coefficient.repr.length

/-- The nearest double.  All doubles lie between `10 ^ -325` and `10 ^ 309`, so
    decimals far outside are settled without computing their power. -/
def toFloat (d : Decimal) : Float :=
  let magnitude : Float :=
    if d.coefficient = 0 ∨ d.size + d.power < -330 then 0.0
    else if 330 < d.size + d.power then 1.0 / 0.0
    else Float.ofScientific d.coefficient (decide (d.power < 0)) d.power.natAbs
  if d.negative then -magnitude else magnitude

end Decimal

end IntegerProgramming
