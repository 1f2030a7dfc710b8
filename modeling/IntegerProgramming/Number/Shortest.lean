import IntegerProgramming.Number.Binary64

/-! # Shortest decimals

    Among the decimals that read back as a given double, the ones with the
    fewest digits, and of those the nearest to the double.

    The reals that round to a double form an interval around it, which
    contains its ends exactly when the significand is even.  The search
    refines a decimal grid one digit at a time and tests the two neighbours of
    the double on it: as soon as any point of a grid lies in the interval, so
    does one of these two.  All comparisons are between natural numbers. -/

namespace IntegerProgramming.Shortest

/-- What happens when two shortest decimals are equally near. -/
inductive Tie where
  | toEven
  | away
  deriving DecidableEq

/-! ## The interval of a double -/

/-- A double `middle * 2 ^ exponent` and the interval of reals that round to
    it, all three in quarters of the double's last place. -/
structure Interval where
  lower : Nat
  middle : Nat
  upper : Nat
  exponent : Int
  /-- Whether the ends belong to the interval. -/
  closed : Bool

def Interval.ofDouble (significand : Nat) (exponent : Int) : Interval where
  lower := 4 * significand - (if Binary64.isNarrowBelow significand exponent then 1 else 2)
  middle := 4 * significand
  upper := 4 * significand + 2
  exponent := exponent - 2
  closed := significand % 2 == 0

/-- The interval on the grid of multiples of `10 ^ power`: `a * 2 ^ exponent`
    is `a * numerator / denominator` steps of the grid. -/
structure Grid where
  numerator : Nat
  denominator : Nat

def Interval.grid (i : Interval) (power : Int) : Grid where
  numerator := Nat.pow 2 i.exponent.toNat * Nat.pow 10 (-power).toNat
  denominator := Nat.pow 2 (-i.exponent).toNat * Nat.pow 10 power.toNat

/-- Whether the `d`-th point of the grid lies in the interval. -/
def Interval.contains (i : Interval) (g : Grid) (d : Nat) : Bool :=
  let point := d * g.denominator
  if i.closed then i.lower * g.numerator ≤ point && point ≤ i.upper * g.numerator
  else i.lower * g.numerator < point && point < i.upper * g.numerator

/-- The last grid point that is not above the double. -/
def Interval.floor (i : Interval) (g : Grid) : Nat := i.middle * g.numerator / g.denominator

/-- Of two neighbouring grid points the nearer one to the double. -/
def Interval.nearer (i : Interval) (g : Grid) (tie : Tie) (d : Nat) : Nat :=
  match compare (2 * (i.middle * g.numerator)) ((2 * d + 1) * g.denominator) with
  | .lt => d
  | .gt => d + 1
  | .eq => if tie = .toEven ∧ d % 2 = 0 then d else d + 1

/-- The better of the two grid points around the double, if one of them lies
    in its interval. -/
def Interval.pick (i : Interval) (g : Grid) (tie : Tie) : Option Nat :=
  let d := i.floor g
  match i.contains g d, i.contains g (d + 1) with
  | true, true => some (i.nearer g tie d)
  | true, false => some d
  | false, true => some (d + 1)
  | false, false => none

/-! ## The search -/

/-- The least `k` for which a positive double is below `10 ^ k`.  The binary
    logarithm gives an estimate that is too small by at most two. -/
def scale (significand : Nat) (exponent : Int) : Int :=
  let estimate := ((significand.log2 + exponent) * 30103).fdiv 100000
  let isBelow (k : Int) : Bool :=
    significand * Nat.pow 2 exponent.toNat * Nat.pow 10 (-k).toNat <
      Nat.pow 10 k.toNat * Nat.pow 2 (-exponent).toNat
  if isBelow estimate then estimate
  else if isBelow (estimate + 1) then estimate + 1
  else estimate + 2

/-- Drops the zeros at the end of `d` and counts them, at most `fuel` of them. -/
def stripZeros : Nat → Nat → Nat × Nat
  | 0, d => (d, 0)
  | fuel + 1, d =>
    if d % 10 = 0 ∧ d ≠ 0 then
      let (rest, zeros) := stripZeros fuel (d / 10)
      (rest, zeros + 1)
    else (d, 0)

/-- Seventeen digits identify every double. -/
def mostDigits : Nat := 17

/-- The shortest decimal `digits * 10 ^ power` of the positive double
    `significand * 2 ^ exponent`. -/
def shortest (tie : Tie) (significand : Nat) (exponent : Int) : Nat × Int :=
  let i := Interval.ofDouble significand exponent
  let k := scale significand exponent
  let hit := (List.range mostDigits).findSome? fun (n : Nat) =>
    let power : Int := k - (n + 1)
    (i.pick (i.grid power) tie).map fun d => (d, power)
  let (digits, power) := hit.getD
    (significand * Nat.pow 2 exponent.toNat * Nat.pow 5 (-exponent).toNat, min exponent 0)
  let (digits, zeros) := stripZeros (mostDigits + 1) digits
  (digits, power + zeros)

end IntegerProgramming.Shortest
