/-! # Scalars

    The numbers that models are written in and that the engines compute with.

    Every engine is written once, against the class `Scalar`.  Running it on
    `Float` gives the program; running it on exact numbers gives the
    mathematics that the program approximates.  Nothing here assumes that the
    arithmetic is exact, or that a comparison of two numbers ever succeeds:
    an undefined number is smaller than nothing, larger than nothing and
    different from itself.

    Sums run from left to right and start at minus zero, the neutral element
    of addition for signed zeros: `-0 + x = x` holds for `x = -0` as well. -/

namespace IntegerProgramming

/-- A number type with the operations that the engines use.

    Comparisons may fail on both sides for undefined numbers.  `precedes` is a
    separate order, total on the defined numbers, that sorting relies on. -/
class Scalar (α : Type) extends Zero α, One α, Add α, Sub α, Mul α, Div α, Neg α, BEq α where
  /-- Strictly below; false if either number is undefined. -/
  below : α → α → Bool
  /-- Below or equal; false if either number is undefined. -/
  atMost : α → α → Bool
  /-- The number above all finite ones. -/
  infinity : α
  /-- The largest whole number that is not above the argument. -/
  floor : α → α
  /-- The smallest whole number that is not below the argument. -/
  ceil : α → α
  /-- The nearest whole number; a half goes away from zero. -/
  round : α → α
  /-- A total order that extends `<` and puts minus zero before zero. -/
  precedes : α → α → Bool
  precedes_trans : ∀ a b c, precedes a b = true → precedes b c = true → precedes a c = true
  precedes_total : ∀ a b, (precedes a b || precedes b a) = true
  /-- The number as it is written inside names and messages. -/
  text : α → String

namespace Scalar

variable {α : Type} [Scalar α]

instance (priority := low) : LT α := ⟨fun x y => below x y = true⟩

instance (priority := low) : LE α := ⟨fun x y => atMost x y = true⟩

instance (priority := low) (x y : α) : Decidable (x < y) :=
  inferInstanceAs (Decidable (below x y = true))

instance (priority := low) (x y : α) : Decidable (x ≤ y) :=
  inferInstanceAs (Decidable (atMost x y = true))

/-! ## Derived operations -/

/-- The number halfway between zero and one. -/
def half : α := 1 / (1 + 1)

/-- The distance from zero. -/
def abs (x : α) : α := if x < 0 then -x else x

/-- The larger of two numbers.  An undefined one is passed over, and of two
    equal ones it is the second, which decides the sign of a zero. -/
def larger (x y : α) : α := if y < x ∨ (y == y) = false then x else y

/-- The smaller of two numbers.  An undefined one is passed over, and of two
    equal ones it is the second, which decides the sign of a zero. -/
def smaller (x y : α) : α := if x < y ∨ (y == y) = false then x else y

/-- Neither infinite nor undefined. -/
def IsFinite (x : α) : Prop := -infinity < x ∧ x < infinity

instance (x : α) : Decidable (IsFinite x) := inferInstanceAs (Decidable (_ ∧ _))

/-- One of the two infinities. -/
def IsInfinite (x : α) : Prop := (x == infinity || x == -infinity) = true

instance (x : α) : Decidable (IsInfinite x) := inferInstanceAs (Decidable (_ = _))

/-- The sum of a list, from left to right, starting at minus zero. -/
def sum (xs : List α) : α := xs.foldl (· + ·) (-0)

/-- The inner product of two lists; the longer one is cut to the shorter. -/
def dot (xs ys : List α) : α := sum (List.zipWith (· * ·) xs ys)

/-- The row of length `n` with a one at `j` and zeros elsewhere. -/
def unitRow (n j : Nat) : List α := (List.replicate n 0).set j 1

end Scalar

end IntegerProgramming
