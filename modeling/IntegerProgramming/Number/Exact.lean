import IntegerProgramming.Number.Scalar

/-! # Exact scalars

    The rational numbers, completed by two infinities and an undefined value:
    floating-point arithmetic without rounding and without overflow.  Absent
    bounds are infinite here just as they are for doubles, so the engines run
    unchanged, and on rational data every intermediate number is rational.

    Minus zero is zero. -/

namespace IntegerProgramming

/-- A rational number, an infinity, or the undefined number. -/
inductive Exact where
  | undefined
  | minusInfinity
  | rational (q : Rat)
  | plusInfinity
  deriving DecidableEq

namespace Exact

/-! ## Arithmetic -/

/-- The infinity with the sign of `q`; undefined if `q` is zero. -/
def infinityOf (q : Rat) : Exact :=
  if 0 < q then plusInfinity else if q < 0 then minusInfinity else undefined

protected def neg : Exact → Exact
  | undefined => undefined
  | minusInfinity => plusInfinity
  | rational q => rational (-q)
  | plusInfinity => minusInfinity

protected def add : Exact → Exact → Exact
  | rational p, rational q => rational (p + q)
  | undefined, _ | _, undefined => undefined
  | minusInfinity, plusInfinity | plusInfinity, minusInfinity => undefined
  | minusInfinity, _ | _, minusInfinity => minusInfinity
  | plusInfinity, _ | _, plusInfinity => plusInfinity

protected def sub (x y : Exact) : Exact := x.add y.neg

protected def mul : Exact → Exact → Exact
  | rational p, rational q => rational (p * q)
  | undefined, _ | _, undefined => undefined
  | plusInfinity, plusInfinity | minusInfinity, minusInfinity => plusInfinity
  | plusInfinity, minusInfinity | minusInfinity, plusInfinity => minusInfinity
  | plusInfinity, rational q | rational q, plusInfinity => infinityOf q
  | minusInfinity, rational q | rational q, minusInfinity => infinityOf (-q)

protected def div : Exact → Exact → Exact
  | rational p, rational q => if q = 0 then infinityOf p else rational (p / q)
  | undefined, _ | _, undefined => undefined
  | rational _, plusInfinity | rational _, minusInfinity => rational 0
  | plusInfinity, rational q => if q < 0 then minusInfinity else plusInfinity
  | minusInfinity, rational q => if q < 0 then plusInfinity else minusInfinity
  | _, _ => undefined

/-! ## Order -/

/-- Strictly below; never true of the undefined number. -/
def below : Exact → Exact → Bool
  | rational p, rational q => decide (p < q)
  | minusInfinity, rational _ | minusInfinity, plusInfinity | rational _, plusInfinity => true
  | _, _ => false

/-- Below or the same; never true of the undefined number. -/
def atMost : Exact → Exact → Bool
  | rational p, rational q => decide (p ≤ q)
  | minusInfinity, minusInfinity | plusInfinity, plusInfinity => true
  | minusInfinity, rational _ | minusInfinity, plusInfinity | rational _, plusInfinity => true
  | _, _ => false

/-- The same number; never true of the undefined number. -/
def same : Exact → Exact → Bool
  | rational p, rational q => decide (p = q)
  | minusInfinity, minusInfinity | plusInfinity, plusInfinity => true
  | _, _ => false

/-- The total order in which the undefined number comes last. -/
def precedes : Exact → Exact → Bool
  | _, undefined => true
  | undefined, _ => false
  | x, y => atMost x y

theorem precedes_trans (x y z : Exact) (hxy : precedes x y = true) (hyz : precedes y z = true) :
    precedes x z = true := by
  cases x <;> cases y <;> cases z <;> simp_all [precedes, atMost]
  exact Rat.le_trans hxy hyz

theorem precedes_total (x y : Exact) : (precedes x y || precedes y x) = true := by
  cases x <;> cases y <;> simp [precedes, atMost]
  exact Rat.le_total

/-! ## Rounding -/

/-- Applies a rounding function to a rational number and leaves the others alone. -/
def rounded (f : Rat → Int) : Exact → Exact
  | rational q => rational (f q)
  | x => x

/-- The nearest whole number; a half goes away from zero. -/
def nearest (q : Rat) : Int := if 0 ≤ q then (q + 1 / 2).floor else (q - 1 / 2).ceil

/-- A fraction in lowest terms, or a whole number. -/
def text : Exact → String
  | undefined => "NaN"
  | minusInfinity => "-inf"
  | plusInfinity => "inf"
  | rational q => if q.den = 1 then q.num.repr else q.num.repr ++ "/" ++ q.den.repr

instance : Scalar Exact where
  zero := rational 0
  one := rational 1
  add := Exact.add
  sub := Exact.sub
  mul := Exact.mul
  div := Exact.div
  neg := Exact.neg
  beq := same
  below := below
  atMost := atMost
  infinity := plusInfinity
  floor := rounded Rat.floor
  ceil := rounded Rat.ceil
  round := rounded nearest
  precedes := precedes
  precedes_trans := precedes_trans
  precedes_total := precedes_total
  text := text

end Exact

end IntegerProgramming
