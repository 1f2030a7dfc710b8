import IntegerProgramming.Proofs.Simplex.Optimality
import IntegerProgramming.Proofs.Simplex.Resolution

/-! # Feasibility within a tolerance

    A tolerance enters a run of the simplex method in four places: cells near
    zero are rounded, a row is passed over if its ratio is less by no more than
    the tolerance, right-hand sides slightly below zero are not repaired, and
    columns that are nearly unit columns are read as such.

    As long as nothing is rounded, the tableaux of a run state the equations of
    the linear program.  The point that is read off the last one is then
    feasible within the tolerance exactly if no right-hand side is below minus
    the tolerance, and this is so if every pivot is made at the least ratio
    (`feasible_within_tolerance`).  A tolerance below the resolution of the
    linear program rounds nothing and finds the least ratios, so under it every
    optimal answer is feasible (`feasible_of_fine`), and every model has such
    tolerances (`exists_fine_tolerance`).

    It need not be so otherwise.  A row that is passed over may be exceeded by
    its entry times the tolerance (`neg_mul_le_level_advance`), and the entry may
    be as large as the data are (`shelf_overloaded`). -/

namespace IntegerProgramming

open Exact

/-! ## Tableaux and nearly feasible points -/

namespace Tableau

variable {n m : Nat} {form : StandardForm Exact n m} {t : Tableau Exact n m}

/-- A row's value is found in the column that holds the row. -/
theorem spread_holder {holder : Fin m → Fin (n + m)} (hu : ∀ i, t.IsUnit (holder i) i)
    (v : Fin m → ℚ) (i : Fin m) : spread holder v (holder i) = v i := by
  unfold spread
  rw [Finset.sum_eq_single i]
  · exact if_pos rfl
  · intro k _ hki
    apply if_neg
    intro hsame
    have hk := hu k
    rw [hsame] at hk
    exact hki (hk.row_unique (hu i))
  · intro hi
    exact absurd (Finset.mem_univ i) hi

theorem spread_of_ne {holder : Fin m → Fin (n + m)} {j : Fin (n + m)}
    (hj : ∀ i, holder i ≠ j) (v : Fin m → ℚ) : spread holder v j = 0 :=
  Finset.sum_eq_zero fun i _ => if_neg (hj i)

/-- The columns violate their sign by no more than the right-hand sides do. -/
theorem neg_le_spread_iff {holder : Fin m → Fin (n + m)} (hu : ∀ i, t.IsUnit (holder i) i)
    {σ : ℚ} (hσ : 0 ≤ σ) (v : Fin m → ℚ) :
    (∀ j, -σ ≤ spread holder v j) ↔ ∀ i, -σ ≤ v i := by
  constructor
  · intro h i
    have hi := h (holder i)
    rwa [spread_holder hu] at hi
  · intro h j
    by_cases hj : ∃ i, holder i = j
    · obtain ⟨i, rfl⟩ := hj
      rw [spread_holder hu]
      exact h i
    · -- A column that holds no row is zero.
      rw [spread_of_ne (not_exists.mp hj)]
      linarith

/-- The point that a tableau stands for is feasible within a slack exactly if
    its right-hand sides are. -/
theorem Reached.reading_within_iff (h : Reached form t) {σ : ℚ} (hσ : 0 ≤ σ) :
    form.FeasibleWithin σ t.reading ↔ ∀ i, -σ ≤ t.level i := by
  have hu := holder_isUnit h.rational h.based
  have hsolves := (h.equivalent.solves _).mp (solves_spread hu)
  -- What a row leaves of its limit is the value of its slack.
  have hslack : ∀ i : Fin m, form.left i t.reading + spread t.holder t.level (i.natAdd n) =
      form.limit i := by
    intro i
    have hi := hsolves i
    rw [initial_residual] at hi
    exact sub_eq_zero.mp hi
  rw [← neg_le_spread_iff hu hσ]
  constructor
  · rintro ⟨hvalues, hrows⟩ j
    cases j using Fin.addCases with
    | left j => exact hvalues j
    | right i =>
      have hi := hrows i
      have hsum := hslack i
      linarith
  · intro hall
    refine ⟨fun j => hall (j.castAdd m), fun i => ?_⟩
    have hi := hall (i.natAdd n)
    have hsum := hslack i
    linarith

end Tableau

/-! ## Rows that are passed over -/

namespace Simplex

section passed

variable {n m : Nat} {form : StandardForm Exact n m} {s : Simplex Exact} {τ : ℚ}

/-- An improvement leaves a row that its scan has looked at no further below
    zero than the row's entry times the tolerance. -/
theorem neg_mul_le_level_advance (hτ : 0 ≤ τ) (hs : s.tolerance = rational τ)
    (hf : form.IsRational) (hunrounded : Unrounded s form) {state : State Exact n m}
    (h : Passes s form .improving state) {place : Tableau.Place Exact n m}
    (hpivot : state.tableau.improvement s.tolerance = .pivot place) {i : Fin m}
    (hi : τ < state.tableau.coefficient i place.column) (hne : i ≠ place.row) :
    -(state.tableau.coefficient i place.column * τ) ≤
      (advance s form state place).tableau.level i := by
  have hreached := reached_of_passes hτ hs hf hunrounded h
  have hrule := Tableau.improvement_describes hreached.rational hτ
  rw [advance_tableau, hunrounded .improving state place h hpivot]
  rw [hs] at hpivot
  rw [hpivot] at hrule
  obtain ⟨-, hrow, hleast⟩ := hrule
  rw [Tableau.level_pivot_of_ne hreached.rational (hτ.trans_lt hrow).ne' hne]
  have hpos : 0 < state.tableau.coefficient i place.column := hτ.trans_lt hi
  have hstep := mul_le_mul_of_nonneg_left (hleast i hi) hpos.le
  rw [mul_add, mul_div_cancel₀ _ hpos.ne'] at hstep
  linarith

end passed

/-! ## Answers -/

section answers

variable {m : Model Exact} {τ σ : ℚ} {t : Tableau Exact m.vars.length m.prepared.height}

/-- The point of a tableau is feasible within the tolerance if its right-hand
    sides are above minus a slack that the tolerance and the ranges have room
    for. -/
theorem feasible_of_level (hm : m.IsRational) (ha : m.Admitted (rational τ)) (hal : m.Aligned)
    (hreached : Tableau.Reached m.prepared.form t) (hσ : 0 ≤ σ) (hστ : σ ≤ τ)
    (hroom : m.HasRoom σ τ) (hlevel : ∀ i, -σ ≤ t.level i) :
    m.IsFeasible ((m.placed t.reading).map rational) (rational τ) := by
  have hwithin := (hreached.reading_within_iff hσ).mpr hlevel
  rw [← m.measured_placed t.reading] at hwithin
  exact Model.feasible_of_within hm ha hal (m.length_placed _) hστ hroom hwithin

theorem level_of_feasible (hm : m.IsRational) (ha : m.Admitted (rational τ)) (hal : m.Aligned)
    (hreached : Tableau.Reached m.prepared.form t) (hτ : 0 ≤ τ)
    (hfeasible : m.IsFeasible ((m.placed t.reading).map rational) (rational τ)) :
    ∀ i, -τ ≤ t.level i := by
  have hwithin := Model.within_of_feasible hm.forms ha hal hfeasible
  rw [m.measured_placed] at hwithin
  exact (hreached.reading_within_iff hτ).mp hwithin

variable {s : Simplex Exact} {sol : Solution Exact}

/-- An optimal answer is the point of the tableau with which the run ended. -/
theorem optimal_run (h : s.solve m = .ok sol) (hstatus : sol.status = .optimal) :
    m.Aligned ∧ m.Admitted s.tolerance ∧
      Passes s m.prepared.form .improving (s.run m.prepared.form).last ∧
      sol.values = s.point m.prepared.form (s.run m.prepared.form).last.tableau := by
  obtain ⟨hal, ⟨hinfeasible, -⟩ | ⟨ha, hanswer⟩⟩ := solve_ok h
  · rw [hstatus] at hinfeasible
    cases hinfeasible
  · have horigin := Run.answer_ok hanswer
    rw [hstatus] at horigin
    obtain ⟨hending, hvalues, -⟩ := horigin
    exact ⟨hal, ha, (run_optimal_passes hending).1, hvalues⟩

/-- If nothing was rounded, it is the point that this tableau stands for. -/
theorem optimal_point (hτ : 0 ≤ τ) (hs : s.tolerance = rational τ) (hm : m.IsRational)
    (h : s.solve m = .ok sol) (hstatus : sol.status = .optimal)
    (hunrounded : Unrounded s m.prepared.form)
    (hread : (s.run m.prepared.form).last.tableau.values s.tolerance =
      (s.run m.prepared.form).last.tableau.values 0) :
    Tableau.Reached m.prepared.form (s.run m.prepared.form).last.tableau ∧
      sol.values = (m.placed (s.run m.prepared.form).last.tableau.reading).map rational := by
  obtain ⟨-, ha, hpasses, hvalues⟩ := optimal_run h hstatus
  have hreached := reached_of_passes hτ hs (m.prepared_isRational hm ha) hunrounded hpasses
  rw [point_eq hread ha hreached] at hvalues
  exact ⟨hreached, hvalues⟩

/-- The optimal point of a thorough run is feasible within the tolerance,
    whatever the ranges of the variables are. -/
theorem feasible_of_thorough (hτ : 0 ≤ τ) (hs : s.tolerance = rational τ) (hm : m.IsRational)
    (h : s.solve m = .ok sol) (hstatus : sol.status = .optimal)
    (hunrounded : Unrounded s m.prepared.form)
    (hread : (s.run m.prepared.form).last.tableau.values s.tolerance =
      (s.run m.prepared.form).last.tableau.values 0)
    (hthorough : Thorough s m.prepared.form) : m.IsFeasible sol.values s.tolerance := by
  obtain ⟨hal, ha, hpasses, -⟩ := optimal_run h hstatus
  obtain ⟨hreached, hvalues⟩ := optimal_point hτ hs hm h hstatus hunrounded hread
  have hf := m.prepared_isRational hm ha
  have hlevel := level_nonneg_of_passes hτ hs hf hunrounded hthorough hpasses rfl
  rw [hs] at ha ⊢
  rw [hvalues]
  -- With nothing below zero the ranges need no room beyond the tolerance.
  apply feasible_of_level hm ha hal hreached le_rfl hτ ha.hasRoom
  intro i
  rw [neg_zero]
  exact hlevel i

/-- If a run rounds nothing and reads its last tableau as it is, its optimal
    point is feasible within the tolerance exactly if no right-hand side of
    that tableau is below minus the tolerance.  This is so if the run is
    thorough, whatever the ranges of the variables are. -/
theorem feasible_within_tolerance (hτ : 0 ≤ τ) (hs : s.tolerance = rational τ)
    (hm : m.IsRational) (h : s.solve m = .ok sol) (hstatus : sol.status = .optimal)
    (hunrounded : Unrounded s m.prepared.form)
    (hread : (s.run m.prepared.form).last.tableau.values s.tolerance =
      (s.run m.prepared.form).last.tableau.values 0) :
    (Thorough s m.prepared.form → m.IsFeasible sol.values s.tolerance) ∧
      ((∀ v ∈ m.vars, v.lowerBound ≤ v.upperBound) →
        (m.IsFeasible sol.values s.tolerance ↔
          ∀ i, -τ ≤ (s.run m.prepared.form).last.tableau.level i)) := by
  constructor
  · exact feasible_of_thorough hτ hs hm h hstatus hunrounded hread
  · intro hranges
    obtain ⟨hal, ha, -, -⟩ := optimal_run h hstatus
    obtain ⟨hreached, hvalues⟩ := optimal_point hτ hs hm h hstatus hunrounded hread
    rw [hs] at ha ⊢
    rw [hvalues]
    constructor
    · exact level_of_feasible hm ha hal hreached hτ
    · exact feasible_of_level hm ha hal hreached hτ le_rfl (Model.hasRoom_of_le hranges τ)

/-- Under a tolerance below the resolution of the linear program an optimal
    answer is feasible within the tolerance. -/
theorem feasible_of_fine {scale bound : ℚ} (hτ : 0 ≤ τ) (hs : s.tolerance = rational τ)
    (hm : m.IsRational) (h : s.solve m = .ok sol) (hstatus : sol.status = .optimal)
    (hscaled : m.prepared.form.Scaled scale bound) (hfine : τ * bound ^ 2 < 1) :
    m.IsFeasible sol.values s.tolerance := by
  obtain ⟨-, ha, hpasses, -⟩ := optimal_run h hstatus
  have hf := m.prepared_isRational hm ha
  exact feasible_of_thorough hτ hs hm h hstatus
    (unrounded_of_fine hscaled hτ hfine hs hf)
    (values_of_fine hscaled hτ hfine hs hf hpasses)
    (thorough_of_fine hscaled hτ hfine hs hf)

/-- Every model has a bound below which a tolerance, whatever the engine's other
    settings are, leaves all optimal answers feasible. -/
theorem exists_fine_tolerance (hm : m.IsRational) : ∃ ε : ℚ, 0 < ε ∧
    ∀ (s : Simplex Exact) (τ : ℚ) (sol : Solution Exact), 0 ≤ τ → τ < ε →
      s.tolerance = rational τ → s.solve m = .ok sol → sol.status = .optimal →
        m.IsFeasible sol.values s.tolerance := by
  obtain ⟨scale, bound, hscaled⟩ := m.prepared.form.exists_scaled
  have hpos : 0 < bound ^ 2 + 1 := by positivity
  refine ⟨1 / (bound ^ 2 + 1), by positivity, ?_⟩
  intro s τ sol hτ hsmall hs h hstatus
  apply feasible_of_fine hτ hs hm h hstatus hscaled
  have hroom : τ * (bound ^ 2 + 1) < 1 := (lt_div_iff₀ hpos).mp hsmall
  linarith

end answers

/-! ## A run that is exact, and one that is not -/

/-- The engine at the tolerance 10⁻⁹. -/
def tolerant : Simplex Exact where
  tolerance := rational (1 / 10 ^ 9)

/-- Jars, limited by the stock and by the room for them. -/
def pantry : Model Exact where
  sense := .maximize
  vars := [⟨"jars", .continuous, none, none⟩]
  objective := [rational 1]
  constraints := [⟨"stock", [rational 1], .atMost, rational 4⟩,
    ⟨"room", [rational 2], .atMost, rational 10⟩]

/-- The pantry's data are whole numbers, and no determinant of them exceeds
    ten. -/
theorem pantry_scaled : pantry.prepared.form.Scaled 1 10 := by
  apply StandardForm.scaled_of_wholes
  · have hden : ∀ i j, ((Tableau.initial pantry.prepared.form).cell i j).den = 1 := by
      decide +kernel
    intro i j
    exact mem_wholes_of_den (hden i j)
  · decide +kernel

/-- The pantry's answer is feasible within the tolerance, which is below the
    resolution of its data. -/
theorem pantry_within : ∃ sol, tolerant.solve pantry = .ok sol ∧ sol.status = .optimal ∧
    sol.objective = some (rational 4) ∧ pantry.IsFeasible sol.values tolerant.tolerance := by
  have hτ : (0 : ℚ) ≤ 1 / 10 ^ 9 := by norm_num
  have hfine : (1 / 10 ^ 9 : ℚ) * 10 ^ 2 < 1 := by norm_num
  have hrun : (tolerant.solve pantry).toOption.map (fun sol => (sol.status, sol.objective)) =
      some (.optimal, some (rational 4)) := by
    decide +kernel
  cases h : tolerant.solve pantry with
  | error failure => rw [h] at hrun; cases hrun
  | ok sol =>
    rw [h] at hrun
    obtain ⟨hstatus, hobjective⟩ := Prod.mk.inj (Option.some.inj hrun)
    obtain ⟨-, ha, hpasses, -⟩ := optimal_run h hstatus
    have hf := pantry.prepared_isRational (by decide) ha
    have hwithin := feasible_within_tolerance hτ rfl (by decide) h hstatus
      (unrounded_of_fine pantry_scaled hτ hfine rfl hf)
      (values_of_fine pantry_scaled hτ hfine rfl hf hpasses)
    exact ⟨sol, rfl, hstatus, hobjective,
      hwithin.1 (thorough_of_fine pantry_scaled hτ hfine rfl hf)⟩

/-- A shelf measured in metres and loaded in grams. -/
def shelf : Model Exact where
  sense := .maximize
  vars := [⟨"x", .continuous, none, none⟩]
  objective := [rational 1]
  constraints := [⟨"length", [rational 1], .atMost, rational 1⟩,
    ⟨"load", [rational 1000000], .atMost, rational (9999999995 / 10000)⟩]

/-- The ratio of the load is less than that of the length by half the
    tolerance.  It is passed over, and the load is exceeded by half a
    thousandth. -/
theorem shelf_overloaded : ∃ sol, tolerant.solve shelf = .ok sol ∧ sol.status = .optimal ∧
    ¬ shelf.IsFeasible sol.values tolerant.tolerance := by
  have hrun : (tolerant.solve shelf).toOption.map
      (fun sol => (sol.status, decide (shelf.IsFeasible sol.values tolerant.tolerance))) =
        some (.optimal, false) := by
    decide +kernel
  cases h : tolerant.solve shelf with
  | error failure => rw [h] at hrun; cases hrun
  | ok sol =>
    rw [h] at hrun
    obtain ⟨hstatus, hfeasible⟩ := Prod.mk.inj (Option.some.inj hrun)
    exact ⟨sol, rfl, hstatus, of_decide_eq_false hfeasible⟩

end Simplex

end IntegerProgramming
