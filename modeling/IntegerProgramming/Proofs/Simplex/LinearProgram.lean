import IntegerProgramming.Proofs.Simplex.Reading

/-! # Linear programs in standard form

    A standard form asks for the largest gain over nonnegative points whose
    rows stay below their right-hand sides.  With the slacks as further
    columns, its points are the nonnegative solutions of the first tableau, and
    so of every tableau that pivots reach from it.

    The signs of such a tableau therefore decide the linear program: the
    theorems `Reached.optimal`, `Reached.infeasible` and `Reached.unbounded`
    turn them into statements about the standard form. -/

namespace IntegerProgramming

open Exact

variable {n m : Nat}

/-! ## Points of a standard form -/

namespace StandardForm

/-- All data of the standard form are rational numbers. -/
structure IsRational (form : StandardForm Exact n m) : Prop where
  objective : ∀ j : Fin n, (form.objective.get j).IsRational
  coefficients : ∀ (i : Fin m) (j : Fin n), ((form.rows.get i).coefficients.get j).IsRational
  rhs : ∀ i : Fin m, (form.rows.get i).rhs.IsRational

/-- The right-hand side of a row. -/
def limit (form : StandardForm Exact n m) (i : Fin m) : ℚ :=
  (form.rows.get i).rhs.toRat

/-- The left-hand side of a row at a point. -/
def left (form : StandardForm Exact n m) (i : Fin m) (y : Fin n → ℚ) : ℚ :=
  ∑ j : Fin n, ((form.rows.get i).coefficients.get j).toRat * y j

/-- The objective at a point. -/
def gain (form : StandardForm Exact n m) (y : Fin n → ℚ) : ℚ :=
  ∑ j : Fin n, (form.objective.get j).toRat * y j

/-- The points that the linear program chooses from. -/
def Feasible (form : StandardForm Exact n m) (y : Fin n → ℚ) : Prop :=
  (∀ j, 0 ≤ y j) ∧ ∀ i, form.left i y ≤ form.limit i

/-- The points that violate no condition of the linear program by more than a
    slack. -/
def FeasibleWithin (form : StandardForm Exact n m) (σ : ℚ) (y : Fin n → ℚ) : Prop :=
  (∀ j, -σ ≤ y j) ∧ ∀ i, form.left i y ≤ form.limit i + σ

theorem feasibleWithin_zero {form : StandardForm Exact n m} {y : Fin n → ℚ} :
    form.FeasibleWithin 0 y ↔ form.Feasible y := by
  unfold FeasibleWithin Feasible
  simp only [neg_zero, add_zero]

/-- A point with its slacks. -/
def extend (form : StandardForm Exact n m) (y : Fin n → ℚ) : Fin (n + m) → ℚ :=
  Fin.addCases y fun i => form.limit i - form.left i y

theorem extend_nonneg {form : StandardForm Exact n m} {y : Fin n → ℚ} (hy : form.Feasible y)
    (j : Fin (n + m)) : 0 ≤ form.extend y j := by
  unfold extend
  cases j using Fin.addCases with
  | left j => simpa using hy.1 j
  | right i => simpa using hy.2 i

end StandardForm

/-! ## The first tableau -/

namespace Tableau

variable {form : StandardForm Exact n m}

theorem initial_objective (j : Fin n) :
    ((initial form).cells.get 0).get (j.castAdd m).castSucc = -form.objective.get j := by
  simp [initial, objectiveRow]

theorem initial_objective_slack (k : Fin m) :
    ((initial form).cells.get 0).get (k.natAdd n).castSucc = 0 := by
  simp [initial, objectiveRow]

theorem initial_objective_rhs :
    ((initial form).cells.get 0).get (Fin.last (n + m)) = 0 := by
  simp [initial, objectiveRow]

theorem initial_row (i : Fin m) (j : Fin n) :
    ((initial form).cells.get i.succ).get (j.castAdd m).castSucc =
      (form.rows.get i).coefficients.get j := by
  simp [initial, constraintRow]

theorem initial_row_slack (i k : Fin m) :
    ((initial form).cells.get i.succ).get (k.natAdd n).castSucc = if k = i then 1 else 0 := by
  simp [initial, constraintRow, Vector.getElem_set, Fin.ext_iff, eq_comm]

theorem initial_row_rhs (i : Fin m) :
    ((initial form).cells.get i.succ).get (Fin.last (n + m)) = (form.rows.get i).rhs := by
  simp [initial, constraintRow]

theorem initial_isRational (h : form.IsRational) : (initial form).IsRational := by
  intro i j
  cases i using Fin.cases with
  | zero =>
    cases j using Fin.lastCases with
    | last => rw [initial_objective_rhs]; rfl
    | cast j =>
      cases j using Fin.addCases with
      | left j =>
        have hj : form.objective.get j = rational _ := h.objective j
        rw [initial_objective, hj]
        rfl
      | right k => rw [initial_objective_slack]; rfl
  | succ i =>
    cases j using Fin.lastCases with
    | last => rw [initial_row_rhs]; exact h.rhs i
    | cast j =>
      cases j using Fin.addCases with
      | left j => rw [initial_row]; exact h.coefficients i j
      | right k => rw [initial_row_slack]; split <;> rfl

theorem initial_based : (initial form).Based := by
  intro i
  have hbasis : (initial form).basis.get i = i.natAdd n := by simp [initial]
  rw [hbasis]
  constructor
  · unfold coefficient cell
    rw [initial_row_slack, if_pos rfl]
    rfl
  · intro k hk
    unfold cell
    cases k using Fin.cases with
    | zero => rw [initial_objective_slack]; rfl
    | succ k =>
      rw [initial_row_slack, if_neg fun he => hk (congrArg Fin.succ he.symm)]
      rfl

theorem initial_residual (i : Fin m) (w : Fin (n + m) → ℚ) :
    (initial form).residual i.succ w =
      form.left i (fun j => w (j.castAdd m)) + w (i.natAdd n) - form.limit i := by
  unfold residual StandardForm.left StandardForm.limit cell
  rw [Fin.sum_univ_add, initial_row_rhs]
  simp only [initial_row, initial_row_slack]
  congr 2
  -- Of the slacks only the one of the row itself counts.
  rw [Finset.sum_eq_single i]
  · rw [if_pos rfl, one_eq, toRat_rational, one_mul]
  · intro k _ hk
    rw [if_neg hk, zero_eq, toRat_rational, zero_mul]
  · intro hi
    exact absurd (Finset.mem_univ i) hi

theorem initial_residual_zero (w : Fin (n + m) → ℚ) :
    (initial form).residual 0 w = -form.gain (fun j => w (j.castAdd m)) := by
  unfold residual StandardForm.gain cell
  rw [Fin.sum_univ_add, initial_objective_rhs]
  simp only [initial_objective, initial_objective_slack]
  simp only [toRat_neg, zero_eq, toRat_rational, neg_mul, zero_mul, Finset.sum_neg_distrib,
    Finset.sum_const_zero, add_zero, sub_zero]

theorem initial_solves_extend (y : Fin n → ℚ) : (initial form).Solves (form.extend y) := by
  intro i
  rw [initial_residual]
  simp [StandardForm.extend]

/-- A nonnegative solution of the first tableau is a point with its slacks. -/
theorem feasible_of_initial_solves {w : Fin (n + m) → ℚ} (hw : ∀ j, 0 ≤ w j)
    (hs : (initial form).Solves w) : form.Feasible fun j => w (j.castAdd m) := by
  refine ⟨fun j => hw _, fun i => ?_⟩
  -- What the row falls short of its right-hand side by is its slack.
  have hi := hs i
  rw [initial_residual] at hi
  linarith [hw (i.natAdd n)]

/-! ## Tableaux that pivots reach -/

/-- What pivots keep: rational cells, unit basic columns, and the equations of
    the first tableau up to equivalence. -/
structure Reached (form : StandardForm Exact n m) (t : Tableau Exact n m) : Prop where
  rational : t.IsRational
  based : t.Based
  equivalent : Equivalent t (initial form)

theorem reached_initial (h : form.IsRational) : Reached form (initial form) :=
  ⟨initial_isRational h, initial_based, Equivalent.refl _⟩

variable {t : Tableau Exact n m}

theorem Reached.pivot (h : Reached form t) {r : Fin m} {c : Fin (n + m)}
    (ha : t.coefficient r c ≠ 0) : Reached form (t.pivot 0 r c) where
  rational := h.rational.pivot ha 0
  based := h.based.pivot h.rational ha zero_le_one
  equivalent := (pivot_equivalent h.rational ha).trans h.equivalent

/-- The point that the tableau stands for. -/
def reading (t : Tableau Exact n m) (j : Fin n) : ℚ := spread t.holder t.level (j.castAdd m)

namespace Reached

/-- A nonnegative solution of the tableau is a point of the linear program, and
    the objective row tells its gain. -/
theorem feasible_of_solves (h : Reached form t) {w : Fin (n + m) → ℚ} (hw : ∀ j, 0 ≤ w j)
    (hs : t.Solves w) : form.Feasible fun j => w (j.castAdd m) :=
  feasible_of_initial_solves hw ((h.equivalent.solves w).mp hs)

theorem gain_eq (h : Reached form t) {w : Fin (n + m) → ℚ} (hs : t.Solves w) :
    form.gain (fun j => w (j.castAdd m)) = -t.residual 0 w := by
  rw [h.equivalent.residual w hs, initial_residual_zero, neg_neg]

theorem solves_extend (h : Reached form t) (y : Fin n → ℚ) : t.Solves (form.extend y) :=
  (h.equivalent.solves _).mpr (initial_solves_extend y)

theorem gain_extend (h : Reached form t) (y : Fin n → ℚ) :
    form.gain y = -t.residual 0 (form.extend y) := by
  rw [← h.gain_eq (h.solves_extend y)]
  simp [StandardForm.extend]

/-- Without negative right-hand sides the point read off is feasible, and its
    gain is the objective reached. -/
theorem reading_feasible (h : Reached form t) (hl : ∀ i, 0 ≤ t.level i) :
    form.Feasible t.reading :=
  h.feasible_of_solves (spread_nonneg hl) (solves_spread (holder_isUnit h.rational h.based))

theorem gain_reading (h : Reached form t) : form.gain t.reading = t.worth := by
  have hu := holder_isUnit h.rational h.based
  unfold reading
  rw [h.gain_eq (solves_spread hu), residual_spread hu, neg_neg]

/-- Without negative costs no point has a larger gain. -/
theorem gain_le_worth (h : Reached form t) (hc : ∀ j, 0 ≤ t.cost j)
    {y : Fin n → ℚ} (hy : form.Feasible y) : form.gain y ≤ t.worth := by
  rw [h.gain_extend]
  exact neg_residual_le_worth hc (StandardForm.extend_nonneg hy)

/-- A negative row without negative entries leaves no point. -/
theorem not_feasible (h : Reached form t) {r : Fin m} (hl : t.level r < 0)
    (hr : ∀ j, 0 ≤ t.coefficient r j) (y : Fin n → ℚ) : ¬ form.Feasible y := fun hy =>
  not_solves_of_stuck hl hr (StandardForm.extend_nonneg hy) (h.solves_extend y)

/-- A negative cost over a column without positive entries lets the gain grow
    beyond every number. -/
theorem unbounded (h : Reached form t) (hl : ∀ i, 0 ≤ t.level i)
    {c : Fin (n + m)} (hc : t.cost c < 0) (hcolumn : ∀ i, t.coefficient i c ≤ 0) (M : ℚ) :
    ∃ y, form.Feasible y ∧ M < form.gain y := by
  -- A step of this length takes the objective from `worth` past `M`.
  let s := (|M - t.worth| + 1) / -t.cost c
  have hneg : 0 < -t.cost c := neg_pos.mpr hc
  have hs : 0 ≤ s := div_nonneg (add_nonneg (abs_nonneg _) zero_le_one) hneg.le
  have hsolves : t.Solves (t.ray c s) := solves_ray h.based s
  refine ⟨fun j => t.ray c s (j.castAdd m),
    h.feasible_of_solves (ray_nonneg hl hcolumn hs) hsolves, ?_⟩
  have hstep : -t.cost c * s = |M - t.worth| + 1 := mul_div_cancel₀ _ hneg.ne'
  rw [h.gain_eq hsolves, residual_ray h.based]
  linarith [le_abs_self (M - t.worth)]

end Reached

end Tableau

end IntegerProgramming
