import IntegerProgramming.Proofs.Number.Rational

/-! # Ordered scalars

    What an argument about comparisons needs of the numbers.  The defined
    numbers are in a total order, and moving two of them by the same finite
    amount does not turn their order around.  It may make them equal: nothing
    says that the arithmetic is exact, so rounding is allowed as long as it is
    monotone. -/

namespace IntegerProgramming

namespace Scalar

variable {α : Type} [Scalar α]

/-- The undefined number is the one that differs from itself. -/
def IsDefined (x : α) : Prop := (x == x) = true

instance (x : α) : Decidable (IsDefined x) := inferInstanceAs (Decidable (_ = true))

/-- Numbers in a total order that sums and differences respect. -/
class Ordered (α : Type) [Scalar α] : Prop where
  le_trans {x y z : α} (hxy : x ≤ y) (hyz : y ≤ z) : x ≤ z
  le_total {x y : α} (hx : IsDefined x) (hy : IsDefined y) : x ≤ y ∨ y ≤ x
  lt_iff_not_le {x y : α} (hx : IsDefined x) (hy : IsDefined y) : x < y ↔ ¬ y ≤ x
  defined_add {x t : α} (hx : IsDefined x) (ht : IsFinite t) : IsDefined (x + t)
  defined_sub {x t : α} (hx : IsDefined x) (ht : IsFinite t) : IsDefined (x - t)
  add_le_add {x y t : α} (ht : IsFinite t) (h : x ≤ y) : x + t ≤ y + t
  sub_le_sub {x y t : α} (ht : IsFinite t) (h : x ≤ y) : x - t ≤ y - t

namespace Ordered

variable [Ordered α] {x y z : α}

theorem not_lt_iff_le (hx : IsDefined x) (hy : IsDefined y) : ¬ x < y ↔ y ≤ x := by
  rw [lt_iff_not_le hx hy, Decidable.not_not]

theorem le_rfl (hx : IsDefined x) : x ≤ x := (le_total hx hx).elim id id

theorem le_of_lt (hx : IsDefined x) (hy : IsDefined y) (h : x < y) : x ≤ y :=
  (le_total hx hy).resolve_right ((lt_iff_not_le hx hy).mp h)

theorem lt_of_lt_of_le (hx : IsDefined x) (hy : IsDefined y) (hz : IsDefined z) (hxy : x < y)
    (hyz : y ≤ z) : x < z := by
  rw [lt_iff_not_le hx hz]
  intro hzx
  exact (lt_iff_not_le hx hy).mp hxy (le_trans hyz hzx)

theorem lt_of_le_of_lt (hx : IsDefined x) (hy : IsDefined y) (hz : IsDefined z) (hxy : x ≤ y)
    (hyz : y < z) : x < z := by
  rw [lt_iff_not_le hx hz]
  intro hzx
  exact (lt_iff_not_le hy hz).mp hyz (le_trans hzx hxy)

end Ordered

end Scalar

/-! ## Exact numbers -/

namespace Exact

open Scalar

theorem isDefined_iff (x : Exact) : IsDefined x ↔ x ≠ undefined := by
  cases x <;> simp [IsDefined, BEq.beq, same]

theorem defined_of_le {x y : Exact} (h : x ≤ y) : x ≠ undefined ∧ y ≠ undefined := by
  constructor
  · rintro rfl
    exact absurd h Bool.false_ne_true
  · rintro rfl
    cases x <;> exact absurd h Bool.false_ne_true

/-- Below a defined number the two orders are the same. -/
theorem le_iff_precedes {x y : Exact} (hy : y ≠ undefined) : x ≤ y ↔ precedes x y = true := by
  cases y with
  | undefined => exact absurd rfl hy
  | minusInfinity => cases x <;> exact Iff.rfl
  | rational q => cases x <;> exact Iff.rfl
  | plusInfinity => cases x <;> exact Iff.rfl

theorem below_eq_not_atMost {x y : Exact} (hx : x ≠ undefined) (hy : y ≠ undefined) :
    below x y = !atMost y x := by
  cases x with
  | undefined => exact absurd rfl hx
  | minusInfinity => cases y <;> simp_all [below, atMost]
  | plusInfinity => cases y <;> simp_all [below, atMost]
  | rational p =>
    cases y with
    | undefined => exact absurd rfl hy
    | minusInfinity => rfl
    | plusInfinity => rfl
    | rational q => simp [below, atMost, ← not_le]

theorem add_rational_ne_undefined {x : Exact} (hx : x ≠ undefined) (q : ℚ) :
    x + rational q ≠ undefined := by
  cases x with
  | undefined => exact absurd rfl hx
  | minusInfinity => exact nofun
  | rational p => exact nofun
  | plusInfinity => exact nofun

/-- Moving two numbers by the same amount keeps their order. -/
theorem add_rational_le_add {x y : Exact} (h : x ≤ y) (q : ℚ) :
    x + rational q ≤ y + rational q := by
  cases x with
  | undefined => exact absurd h Bool.false_ne_true
  | minusInfinity => cases y <;> exact h
  | plusInfinity => cases y <;> exact h
  | rational p =>
    cases y with
    | rational r =>
      rw [rational_add, rational_add, rational_le]
      exact add_le_add_left ((rational_le p r).mp h) q
    | undefined => exact h
    | minusInfinity => exact h
    | plusInfinity => exact h

/-- Exact numbers are ordered, and their sums are not rounded. -/
instance : Ordered Exact where
  le_trans hxy hyz := by
    have hz := (defined_of_le hyz).2
    rw [le_iff_precedes (defined_of_le hxy).2] at hxy
    rw [le_iff_precedes hz] at hyz ⊢
    exact precedes_trans _ _ _ hxy hyz
  le_total {x y} hx hy := by
    rw [isDefined_iff] at hx hy
    rw [le_iff_precedes hx, le_iff_precedes hy, ← Bool.or_eq_true]
    exact precedes_total x y
  lt_iff_not_le {x y} hx hy := by
    rw [isDefined_iff] at hx hy
    show below x y = true ↔ ¬ atMost y x = true
    rw [below_eq_not_atMost hx hy, Bool.not_eq_true', Bool.not_eq_true]
  defined_add {x t} hx ht := by
    rw [isDefined_iff] at hx ⊢
    rw [(isRational_iff_isFinite t).mpr ht]
    exact add_rational_ne_undefined hx _
  defined_sub {x t} hx ht := by
    rw [isDefined_iff] at hx ⊢
    rw [(isRational_iff_isFinite t).mpr ht]
    exact add_rational_ne_undefined hx _
  add_le_add {x y t} ht h := by
    rw [(isRational_iff_isFinite t).mpr ht]
    exact add_rational_le_add h _
  sub_le_sub {x y t} ht h := by
    rw [(isRational_iff_isFinite t).mpr ht]
    exact add_rational_le_add h _

end Exact

end IntegerProgramming
