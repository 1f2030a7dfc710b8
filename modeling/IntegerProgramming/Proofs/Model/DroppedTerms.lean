import IntegerProgramming.Proofs.Model.Relaxation

/-! # Points that the relaxation loses

    A constraint counts as one on a single variable if all its other
    coefficients are within the tolerance, however large the other variables may
    become.  Folding leaves these terms out, so the range that it gives to the
    variable may exclude values that the constraint allows.

    A point of the model is a point of the relaxation exactly if it satisfies
    every folded constraint without its other terms as well.  It does so if
    their coefficients are zero, and it misses a folded constraint by no more
    than the tolerance times the sizes of the other values
    (`relax_keeps_iff`).  There is no bound on these sizes: at the tolerance
    10⁻⁹ a coefficient of 2⁻³⁰ is left out, and with it the optimum may be
    (`lifting_loses`). -/

namespace IntegerProgramming

open Exact

/-! ## Terms within the tolerance -/

instance (relation : Relation) (p q : ℚ) : Decidable (relation.Relates p q) :=
  match relation with
  | .atMost => inferInstanceAs (Decidable (p ≤ q))
  | .atLeast => inferInstanceAs (Decidable (q ≤ p))
  | .equal => inferInstanceAs (Decidable (p = q))

instance (c : Constraint Exact) (τ : Exact) (x : List ℚ) : Decidable (c.FoldsAt τ x) :=
  inferInstanceAs (Decidable (∀ _ ∈ c.single? τ, _))

/-- What the other terms of a linear form can add up to. -/
theorem abs_linear_sub_le {a : List Exact} {j : Nat} (hj : j < a.length) {τ : ℚ}
    (hother : ∀ k, k ≠ j → |coordinate a k| ≤ τ) (x : List ℚ) :
    |linear a x - coordinate a j * x.getD j 0| ≤
      τ * ∑ k ∈ (Finset.range a.length).erase j, |x.getD k 0| := by
  have hrest : linear a x - coordinate a j * x.getD j 0 =
      ∑ k ∈ (Finset.range a.length).erase j, coordinate a k * x.getD k 0 := by
    unfold linear
    rw [Finset.sum_erase_eq_sub (Finset.mem_range.mpr hj)]
  have hterm : ∀ k ∈ (Finset.range a.length).erase j,
      |coordinate a k * x.getD k 0| ≤ τ * |x.getD k 0| := by
    intro k hk
    rw [abs_mul]
    exact mul_le_mul_of_nonneg_right (hother k (Finset.ne_of_mem_erase hk)) (abs_nonneg _)
  rw [hrest]
  calc |∑ k ∈ (Finset.range a.length).erase j, coordinate a k * x.getD k 0|
      ≤ ∑ k ∈ (Finset.range a.length).erase j, |coordinate a k * x.getD k 0| :=
        Finset.abs_sum_le_sum_abs _ _
    _ ≤ ∑ k ∈ (Finset.range a.length).erase j, τ * |x.getD k 0| := Finset.sum_le_sum hterm
    _ = τ * ∑ k ∈ (Finset.range a.length).erase j, |x.getD k 0| := (Finset.mul_sum _ _ _).symm

/-! ## Points -/

namespace Model

variable {m : Model Exact} {τ : ℚ} {x : List ℚ}

/-- The bounds and the constraints that were not folded lose no point. -/
theorem IsRational.relaxation_keeps_iff (hm : m.IsRational) (hal : m.Aligned) (hτ : 0 ≤ τ)
    (hx : m.IsFeasible (x.map rational) 0) :
    (m.relaxation (rational τ)).IsFeasible (x.map rational) 0 ↔
      ∀ c ∈ m.constraints, c.FoldsAt (rational τ) x := by
  obtain ⟨hlen, hbounds, hheld⟩ := (hm.isFeasible_iff x).mp hx
  have hwithin := hm.forms.foldedRanges_within hτ hal hm.range_defined x
  rw [hm.relaxation_feasible_iff hτ, hwithin]
  constructor
  · intro h
    exact h.2.1.2
  · intro h
    exact ⟨hlen, ⟨hbounds, h⟩, fun c hc _ => hheld c hc⟩

/-- At every tolerance a point of the model is a point of its relaxation
    exactly if it satisfies the folded constraints without the terms that were
    left out.  A constraint of which nothing is left out is among them, and the
    terms left out are bounded by the tolerance and the sizes of the values. -/
theorem relax_keeps_iff (hm : m.IsRational) (hal : m.Aligned) (hτ : 0 ≤ τ)
    (hx : m.IsFeasible (x.map rational) 0) :
    ((∃ relaxed, m.relax (rational τ) = .ok relaxed ∧ relaxed.IsFeasible (x.map rational) 0) ↔
      ∀ c ∈ m.constraints, c.FoldsAt (rational τ) x) ∧
    ∀ c ∈ m.constraints, (c.DropsNothing (rational τ) → c.FoldsAt (rational τ) x) ∧
      ∀ j a, c.single? (rational τ) = some (j, a) →
        |linear c.coefficients x - a.toRat * x.getD j 0| ≤
          τ * ∑ k ∈ (Finset.range m.vars.length).erase j, |x.getD k 0| := by
  have hkeeps := hm.relaxation_keeps_iff hal hτ hx
  obtain ⟨-, hbounds, hheld⟩ := (hm.isFeasible_iff x).mp hx
  refine ⟨⟨?_, fun hfolds => ?_⟩, fun c hc => ⟨fun hdrops => ?_, fun j a hsingle => ?_⟩⟩
  · rintro ⟨relaxed, hrelax, hfeasible⟩
    rw [relax_eq_relaxation hrelax] at hfeasible
    exact hkeeps.mp hfeasible
  · -- The values lie in the folded ranges, so none of these is empty.
    have hwithin := (hm.forms.foldedRanges_within hτ hal hm.range_defined x).mpr ⟨hbounds, hfolds⟩
    exact ⟨_, relax_of_within hτ hwithin, hkeeps.mpr hfolds⟩
  · exact ((hm.constraints c hc).foldsAt_iff hτ hdrops x).mpr fun _ => hheld c hc
  · obtain ⟨rfl, -, hother⟩ := (hm.constraints c hc).single?_eq_some hτ hsingle
    rw [← hal.constraint hc]
    exact abs_linear_sub_le (Constraint.lt_of_single? hsingle) hother x

/-- A hoist that lifts one load more for every 2³⁰ units of ballast. -/
def lifting : Model Exact where
  sense := .maximize
  vars := [⟨"loads", .integer, none, none⟩, ⟨"ballast", .continuous, none, none⟩]
  objective := [rational 1000, rational 0]
  constraints :=
    [⟨"lift", [rational 1, rational (-1 / 2 ^ 30)], .atMost, rational 1⟩,
      ⟨"stock", [rational 0, rational 1], .atMost, rational (2 ^ 31)⟩]

/-- The tolerance 10⁻⁹. -/
def billionth : ℚ := 1 / 10 ^ 9

/-- One load needs no ballast and is kept. -/
theorem lifting_keeps : ∃ relaxed, lifting.relax (rational billionth) = .ok relaxed ∧
    relaxed.IsFeasible ([1, 0].map rational) 0 :=
  (relax_keeps_iff (by decide +kernel) (by decide +kernel) (by decide +kernel)
    (by decide +kernel)).1.mpr (by decide +kernel)

/-- Three loads are lost: without the ballast in it the constraint allows one. -/
theorem lifting_loses : lifting.IsFeasible ([3, 2 ^ 31].map rational) 0 ∧
    ∃ relaxed, lifting.relax (rational billionth) = .ok relaxed ∧
      ¬ relaxed.IsFeasible ([3, 2 ^ 31].map rational) 0 := by
  constructor
  · decide +kernel
  · apply relax_loses
    decide +kernel

end Model

end IntegerProgramming
