import IntegerProgramming.Proofs.Number.Double

/-! # Compared scalars

    What an argument needs that compares numbers and never looks at what was
    computed.  Nothing is said about sums, products, quotients and rounding to
    whole numbers: they may come out in any way, monotone or not. -/

namespace IntegerProgramming

namespace Scalar

variable {α : Type} [Scalar α]

/-- Numbers whose comparisons are those of a total order on the defined ones. -/
class Compared (α : Type) [Scalar α] : Prop where
  le_trans {x y z : α} (hxy : x ≤ y) (hyz : y ≤ z) : x ≤ z
  le_total {x y : α} (hx : IsDefined x) (hy : IsDefined y) : x ≤ y ∨ y ≤ x
  lt_iff_not_le {x y : α} (hx : IsDefined x) (hy : IsDefined y) : x < y ↔ ¬ y ≤ x
  /-- Nothing is below an undefined number, or above it. -/
  defined_of_lt {x y : α} (h : x < y) : IsDefined x ∧ IsDefined y
  finite_zero : IsFinite (0 : α)

namespace Compared

variable [Compared α] {x y z : α}

theorem defined_zero : IsDefined (0 : α) := (defined_of_lt finite_zero.1).2

theorem not_lt_of_le (hx : IsDefined x) (hy : IsDefined y) (h : x ≤ y) : ¬ y < x := by
  rw [lt_iff_not_le hy hx, not_not]
  exact h

theorem le_of_not_lt (hx : IsDefined x) (hy : IsDefined y) (h : ¬ y < x) : x ≤ y := by
  rwa [lt_iff_not_le hy hx, not_not] at h

theorem le_of_lt (h : x < y) : x ≤ y := by
  obtain ⟨hx, hy⟩ := defined_of_lt h
  exact (le_total hx hy).resolve_right ((lt_iff_not_le hx hy).mp h)

theorem lt_of_lt_of_le (hz : IsDefined z) (hxy : x < y) (hyz : y ≤ z) : x < z := by
  obtain ⟨hx, hy⟩ := defined_of_lt hxy
  rw [lt_iff_not_le hx hz]
  exact fun hzx => (lt_iff_not_le hx hy).mp hxy (le_trans hyz hzx)

theorem lt_of_le_of_lt (hx : IsDefined x) (hxy : x ≤ y) (hyz : y < z) : x < z := by
  obtain ⟨hy, hz⟩ := defined_of_lt hyz
  rw [lt_iff_not_le hx hz]
  exact fun hzx => (lt_iff_not_le hy hz).mp hyz (le_trans hzx hxy)

theorem lt_irrefl (x : α) : ¬ x < x := by
  intro h
  obtain ⟨hx, -⟩ := defined_of_lt h
  exact not_lt_of_le hx hx ((le_total hx hx).elim id id) h

/-! ## The larger of two numbers -/

/-- The larger of two numbers is the first one, or a number that is not below
    it. -/
theorem larger_cases (hx : IsDefined x) (y : α) :
    larger x y = x ∨ larger x y = y ∧ IsDefined y ∧ x ≤ y := by
  unfold larger
  split
  · exact .inl rfl
  · rename_i h
    obtain ⟨hlt, hself⟩ := not_or.mp h
    have hy : IsDefined y := Bool.of_not_eq_false hself
    exact .inr ⟨rfl, hy, le_of_not_lt hx hy hlt⟩

theorem lt_larger (h : z < x) (y : α) : z < larger x y := by
  rcases larger_cases (defined_of_lt h).2 y with hfirst | ⟨hsecond, hy, hle⟩
  · rw [hfirst]
    exact h
  · rw [hsecond]
    exact lt_of_lt_of_le hy h hle

/-! ## One and zero under a tolerance -/

section tolerance

variable {τ : α} (hzero : 0 ≤ τ) (hone : τ < 1)

include hzero hone

/-- A tolerance below one tells one from zero. -/
theorem lt_abs_one : τ < abs (1 : α) := by
  obtain ⟨-, hdefined⟩ := defined_of_lt hone
  have hnonneg : ¬ (1 : α) < 0 :=
    not_lt_of_le defined_zero hdefined (le_trans hzero (le_of_lt hone))
  unfold abs
  rwa [if_neg hnonneg]

/-- No tolerance is below zero. -/
theorem not_lt_abs_zero : ¬ τ < abs (0 : α) := by
  unfold abs
  rw [if_neg (lt_irrefl 0)]
  exact not_lt_of_le defined_zero (defined_of_lt hone).1 hzero

end tolerance

end Compared

end Scalar

/-! ## Exact numbers and doubles -/

open Scalar

theorem Exact.ne_undefined_of_lt {x y : Exact} (h : x < y) : x ≠ undefined ∧ y ≠ undefined := by
  constructor
  · rintro rfl
    exact absurd h Bool.false_ne_true
  · rintro rfl
    cases x <;> exact absurd h Bool.false_ne_true

instance : Compared Exact where
  le_trans := Ordered.le_trans
  le_total := Ordered.le_total
  lt_iff_not_le := Ordered.lt_iff_not_le
  defined_of_lt {x y} h := by
    rw [Exact.isDefined_iff, Exact.isDefined_iff]
    exact Exact.ne_undefined_of_lt h
  finite_zero := Exact.isFinite_rational 0

/-- Doubles compare as the numbers that they stand for. -/
instance : Compared Float where
  le_trans := Ordered.le_trans
  le_total := Ordered.le_total
  lt_iff_not_le := Ordered.lt_iff_not_le
  defined_of_lt {x y} h := by
    obtain ⟨a, ha⟩ := Double.reads_float x
    obtain ⟨b, hb⟩ := Double.reads_float y
    have hab : a < b := (Double.below_eq ha hb).symm.trans h
    rw [Double.isDefined_iff ha, Double.isDefined_iff hb]
    exact Compared.defined_of_lt hab
  finite_zero := by decide +kernel

end IntegerProgramming
