import IntegerProgramming.Number.Double
import IntegerProgramming.Number.Numeral

/-! # Reading by scaling

    A quick way to turn a numeral into a double.  Its digits are gathered in a
    machine word as far as they fit, the word becomes a double, and that is
    multiplied or divided by a power of ten.  Each of these steps rounds, so
    that the result may be a neighbour of the nearest double: `1e-23` is read
    as `1.0000000000000001e-23`. -/

namespace IntegerProgramming

namespace Numeral

/-! ## Gathering digits -/

/-- Words are below this number. -/
def wordBound : Nat := Nat.pow 2 64

/-- Appends digits to a word as long as it stays below the bound.  What is left
    begins with the first digit that does not fit. -/
def gather (word : Nat) : List Char → Nat × List Char
  | [] => (word, [])
  | c :: cs =>
    let longer := 10 * word + digitValue c
    if longer < wordBound then gather longer cs else (word, c :: cs)

/-- The decimal whose coefficient is a word.  A digit before the point that is
    left out still counts as a place; one after it is lost.  The fraction is
    tried even where the whole part did not fit, as a smaller digit may. -/
def gathered (n : Numeral) : Decimal :=
  let (word, places) := gather 0 n.whole
  let (word, lost) := gather word n.fraction
  ⟨n.negative, word, n.exponent + places.length - (n.fraction.length - lost.length)⟩

/-! ## Scaling -/

/-- The largest power of ten that a double holds. -/
def largestPower : Nat := 308

/-- The nearest double to a power of ten. -/
def powerOfTen (k : Nat) : Float := Float.ofScientific 1 false k

/-- Multiplies or divides a number by a power of ten; none if the result is
    infinite.  Zero stays zero at any power.  A power too small for one
    division takes several, the first ones by the largest power there is. -/
def scale (x : Float) (power : Int) : Option Float :=
  if 0 ≤ power then
    if power ≤ largestPower then
      let scaled := x * powerOfTen power.toNat
      if Scalar.IsFinite scaled then some scaled else none
    else if x == 0.0 then some x
    else none
  else if -largestPower ≤ power then some (x / powerOfTen (-power).toNat)
  else if x == 0.0 then some x
  else scale (x / powerOfTen largestPower) (power + largestPower)
termination_by (-power).toNat
decreasing_by simp only [largestPower] at *; omega

/-- The double that scaling gives for a numeral, if it is not too large. -/
def scaled? (n : Numeral) : Option Float :=
  let d := n.gathered
  (scale (Float.ofNat d.coefficient) d.power).map fun x => if d.negative then -x else x

end Numeral

end IntegerProgramming
