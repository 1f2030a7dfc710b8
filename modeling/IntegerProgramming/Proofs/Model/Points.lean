import IntegerProgramming.Model.Basic
import IntegerProgramming.Proofs.Number.Rational

/-! # Rational models and their points

    A model with rational data is read over ℚ: its objective and the left-hand
    sides of its constraints are linear forms, and a rational point is
    feasible if it lies between the bounds and satisfies every constraint.
    Bounds may be absent, so the bounds in force may be infinite.

    The two senses are treated as one: the merit of a value is larger the
    better the value is. -/

namespace IntegerProgramming

open Exact

/-! ## Merit -/

/-- How good a value is; a larger merit is better. -/
def Sense.merit : Sense → ℚ → ℚ
  | .maximize, q => q
  | .minimize, q => -q

theorem Sense.better_iff_merit (s : Sense) (p q : ℚ) :
    s.Better (rational p) (rational q) ↔ s.merit q < s.merit p := by
  cases s with
  | maximize => exact rational_lt q p
  | minimize =>
    show rational p < rational q ↔ -q < -p
    rw [rational_lt, neg_lt_neg_iff]

/-! ## Rational data -/

/-- The given bounds are rational numbers. -/
structure Variable.IsRational (v : Variable Exact) : Prop where
  lower : ∀ l ∈ v.lower, l.IsRational
  upper : ∀ u ∈ v.upper, u.IsRational

instance (v : Variable Exact) : Decidable v.IsRational :=
  decidable_of_iff ((∀ l ∈ v.lower, l.IsRational) ∧ ∀ u ∈ v.upper, u.IsRational)
    ⟨fun h => ⟨h.1, h.2⟩, fun h => ⟨h.lower, h.upper⟩⟩

structure Constraint.IsRational (c : Constraint Exact) : Prop where
  coefficients : AllRational c.coefficients
  rhs : c.rhs.IsRational

instance (c : Constraint Exact) : Decidable c.IsRational :=
  decidable_of_iff (AllRational c.coefficients ∧ c.rhs.IsRational)
    ⟨fun h => ⟨h.1, h.2⟩, fun h => ⟨h.coefficients, h.rhs⟩⟩

/-- All data of the model are rational numbers; bounds may be absent. -/
structure Model.IsRational (m : Model Exact) : Prop where
  vars : ∀ v ∈ m.vars, v.IsRational
  objective : AllRational m.objective
  constraints : ∀ c ∈ m.constraints, c.IsRational

instance (m : Model Exact) : Decidable m.IsRational :=
  decidable_of_iff ((∀ v ∈ m.vars, v.IsRational) ∧ AllRational m.objective ∧
      ∀ c ∈ m.constraints, c.IsRational)
    ⟨fun h => ⟨h.1, h.2.1, h.2.2⟩, fun h => ⟨h.vars, h.objective, h.constraints⟩⟩

/-- The objective and the constraints are rational; nothing is asked of the
    bounds. -/
structure Model.RationalForms (m : Model Exact) : Prop where
  objective : AllRational m.objective
  constraints : ∀ c ∈ m.constraints, c.IsRational

instance (m : Model Exact) : Decidable m.RationalForms :=
  decidable_of_iff (AllRational m.objective ∧ ∀ c ∈ m.constraints, c.IsRational)
    ⟨fun h => ⟨h.1, h.2⟩, fun h => ⟨h.objective, h.constraints⟩⟩

theorem Model.IsRational.forms {m : Model Exact} (hm : m.IsRational) : m.RationalForms :=
  ⟨hm.objective, hm.constraints⟩

/-- Without rational bound a variable is unbounded on that side. -/
theorem Variable.IsRational.lowerBound_cases {v : Variable Exact} (hv : v.IsRational) :
    v.lowerBound.IsRational ∨ v.lowerBound = minusInfinity ∧ v.kind = .unrestricted := by
  unfold Variable.lowerBound
  cases hl : v.lower with
  | none => cases hk : v.kind <;> simp
  | some l =>
    have hrat : l = rational l.toRat := hv.lower l hl
    rw [hrat]
    cases hk : v.kind <;> simp

theorem Variable.IsRational.upperBound_cases {v : Variable Exact} (hv : v.IsRational) :
    v.upperBound.IsRational ∨ v.upperBound = plusInfinity ∧ v.kind ≠ .binary := by
  unfold Variable.upperBound
  cases hu : v.upper with
  | none => cases hk : v.kind <;> simp
  | some u =>
    have hrat : u = rational u.toRat := hv.upper u hu
    rw [hrat]
    cases hk : v.kind <;> simp

/-! ## Unit rows -/

/-- There are zeros before and behind the one of a unit row. -/
theorem Scalar.unitRow_eq {α : Type} [Scalar α] {n j : Nat} (hj : j < n) :
    Scalar.unitRow n j =
      List.replicate j (0 : α) ++ 1 :: List.replicate (n - (j + 1)) 0 := by
  unfold unitRow
  rw [List.set_eq_take_append_cons_drop, if_pos (by simpa using hj)]
  simp [Nat.min_eq_left hj.le]

/-! ## Alignment -/

theorem Model.aligned_iff {α : Type} (m : Model α) :
    m.Aligned ↔ m.objective.length = m.vars.length ∧
      ∀ c ∈ m.constraints, c.coefficients.length = m.vars.length := by
  unfold Aligned misalignment
  dsimp only
  by_cases hobjective : m.objective.length = m.vars.length
  · rw [if_neg (not_not.mpr hobjective), Option.map_eq_none_iff, List.find?_eq_none]
    simp [hobjective]
  · simp [hobjective]

theorem Model.Aligned.objective {α : Type} {m : Model α} (h : m.Aligned) :
    m.objective.length = m.vars.length := (m.aligned_iff.mp h).1

theorem Model.Aligned.constraint {α : Type} {m : Model α} (h : m.Aligned) {c : Constraint α}
    (hc : c ∈ m.constraints) : c.coefficients.length = m.vars.length :=
  (m.aligned_iff.mp h).2 c hc

/-! ## Points -/

/-- The first number is related to the second as asked. -/
def Relation.Relates : Relation → ℚ → ℚ → Prop
  | .atMost, p, q => p ≤ q
  | .atLeast, p, q => q ≤ p
  | .equal, p, q => p = q

/-- The constraint holds exactly at a rational point. -/
def Constraint.HoldsAt (c : Constraint Exact) (x : List ℚ) : Prop :=
  c.relation.Relates (linear c.coefficients x) c.rhs.toRat

theorem Constraint.IsRational.holds_iff {c : Constraint Exact} (hc : c.IsRational) (x : List ℚ) :
    c.Holds (x.map rational) 0 ↔ c.HoldsAt x := by
  have hlhs : c.lhs (x.map rational) = rational (linear c.coefficients x) :=
    dot_map_rational hc.coefficients x
  have hrhs : c.rhs = rational c.rhs.toRat := hc.rhs
  unfold Constraint.Holds Constraint.HoldsAt Relation.Relates
  cases c.relation with
  | atMost => simp only [hlhs, add_zero_eq]; rw [hrhs]; simp
  | atLeast => simp only [hlhs, sub_zero_eq]; rw [hrhs]; simp
  | equal => simp only [hlhs]; rw [hrhs]; simp [sub_eq_zero]

/-- The value lies between the bounds in force. -/
def Variable.Allows (v : Variable Exact) (q : ℚ) : Prop :=
  v.lowerBound ≤ rational q ∧ rational q ≤ v.upperBound

/-- The bounds at a point, position by position. -/
theorem Model.isFeasible_iff_getD {α : Type} [Scalar α] (m : Model α) (x : List α) (τ : α) :
    m.IsFeasible x τ ↔ x.length = m.vars.length ∧
      (∀ j (hj : j < m.vars.length), m.vars[j].lowerBound - τ ≤ x.getD j 0 ∧
        x.getD j 0 ≤ m.vars[j].upperBound + τ) ∧ ∀ c ∈ m.constraints, c.Holds x τ := by
  unfold Model.IsFeasible
  refine and_congr_right fun hlen => and_congr_left fun _ => ?_
  constructor
  · -- A position names a pair of the zipped list.
    intro h j hj
    have hx : j < x.length := by omega
    have hmem : (m.vars[j], x[j]) ∈ m.vars.zip x :=
      List.mem_iff_getElem.mpr ⟨j, by simp [hlen, hj], by simp⟩
    rw [List.getD_eq_getElem _ _ hx]
    exact h _ hmem
  · -- Every pair of the zipped list stands at a position.
    rintro h ⟨v, y⟩ hmem
    obtain ⟨j, hj, hget⟩ := List.mem_iff_getElem.mp hmem
    have hjv : j < m.vars.length := by simp at hj; omega
    have hjx : j < x.length := by omega
    rw [List.getElem_zip, Prod.mk.injEq] at hget
    have hj' := h j hjv
    rw [List.getD_eq_getElem _ _ hjx] at hj'
    rw [← hget.1, ← hget.2]
    exact hj'

/-- A rational point of a model: one value per variable, between its bounds,
    such that all constraints hold. -/
theorem Model.RationalForms.isFeasible_iff {m : Model Exact} (hm : m.RationalForms) (x : List ℚ) :
    m.IsFeasible (x.map rational) 0 ↔
      x.length = m.vars.length ∧ (∀ j (hj : j < m.vars.length), m.vars[j].Allows (x.getD j 0)) ∧
        ∀ c ∈ m.constraints, c.HoldsAt x := by
  rw [m.isFeasible_iff_getD, List.length_map]
  refine and_congr_right fun hlen => and_congr ?_ ?_
  · refine forall₂_congr fun j _ => ?_
    rw [sub_zero_eq, add_zero_eq, getD_map_rational]
    exact Iff.rfl
  · exact forall₂_congr fun c hc => (hm.constraints c hc).holds_iff x

theorem Model.IsRational.isFeasible_iff {m : Model Exact} (hm : m.IsRational) (x : List ℚ) :
    m.IsFeasible (x.map rational) 0 ↔
      x.length = m.vars.length ∧ (∀ j (hj : j < m.vars.length), m.vars[j].Allows (x.getD j 0)) ∧
        ∀ c ∈ m.constraints, c.HoldsAt x :=
  hm.forms.isFeasible_iff x

theorem Model.IsRational.evaluate_eq {m : Model Exact} (hm : m.IsRational) (x : List ℚ) :
    m.evaluate (x.map rational) = rational (linear m.objective x) :=
  dot_map_rational hm.objective x

end IntegerProgramming
