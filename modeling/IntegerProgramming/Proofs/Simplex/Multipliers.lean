import IntegerProgramming.Proofs.Simplex.Optimality

/-! # Tableaux as combinations of the first one

    In the first tableau the slack columns are unit columns, so whatever the
    pivots of a run do to its rows can be read off these columns later on: every
    row is a combination of the first constraint rows, and the entries of the
    row in the slack columns are the multipliers.  The objective row contains
    the first objective row once on top, because no pivot is made in it.

    One pivot replaces rows by combinations of rows, of the slack columns just
    as of all others, and so keeps the identity (`Combines.pivot`).  Signs are
    not looked at; the identity holds in both phases.

    In the last tableau of an optimal run the multipliers of the objective row
    are nonnegative, cover the objective, and are worth what the run has
    reached: they certify that no point has a larger gain. -/

namespace IntegerProgramming

open Exact

variable {n m : Nat}

/-! ## Certificates -/

/-- Multipliers of the rows of a standard form that prove a bound on its
    gain: the objective is covered by the combination of the rows. -/
structure StandardForm.Certifies (form : StandardForm Exact n m) (y : Fin m → ℚ) (bound : ℚ) :
    Prop where
  nonneg : ∀ k, 0 ≤ y k
  covers : ∀ j : Fin n, (form.objective.get j).toRat ≤
    ∑ k, y k * ((form.rows.get k).coefficients.get j).toRat
  worth : ∑ k, y k * form.limit k = bound

/-- No point of the standard form has a larger gain than a certificate says. -/
theorem StandardForm.Certifies.gain_le {form : StandardForm Exact n m} {y : Fin m → ℚ} {bound : ℚ}
    (h : form.Certifies y bound) {x : Fin n → ℚ} (hx : form.Feasible x) : form.gain x ≤ bound := by
  obtain ⟨hnonneg, hrows⟩ := hx
  calc form.gain x
      ≤ ∑ j : Fin n, (∑ k, y k * ((form.rows.get k).coefficients.get j).toRat) * x j :=
        Finset.sum_le_sum fun j _ => mul_le_mul_of_nonneg_right (h.covers j) (hnonneg j)
    _ = ∑ k, y k * form.left k x := by
        simp only [StandardForm.left, Finset.sum_mul, Finset.mul_sum, mul_assoc]
        exact Finset.sum_comm
    _ ≤ ∑ k, y k * form.limit k :=
        Finset.sum_le_sum fun k _ => mul_le_mul_of_nonneg_left (hrows k) (h.nonneg k)
    _ = bound := h.worth

/-! ## Combinations -/

namespace Tableau

variable {t u : Tableau Exact n m} {r : Fin m} {c : Fin (n + m)}

/-- The entry of a row, the objective row being row zero, in the slack column
    of a constraint. -/
def multiplier (t : Tableau Exact n m) (i : Fin (m + 1)) (k : Fin m) : ℚ :=
  t.cell i (k.natAdd n).castSucc

/-- Every row is the combination of another tableau's constraint rows with the
    entries in the slack columns as multipliers; the objective row contains the
    other objective row as well. -/
structure Combines (t u : Tableau Exact n m) : Prop where
  row : ∀ (i : Fin m) (j : Fin (n + m + 1)),
    t.cell i.succ j = ∑ k, t.multiplier i.succ k * u.cell k.succ j
  objective : ∀ j : Fin (n + m + 1),
    t.cell 0 j = ∑ k, t.multiplier 0 k * u.cell k.succ j + u.cell 0 j

/-- The rows of the first tableau are combinations of themselves. -/
theorem combines_initial (form : StandardForm Exact n m) :
    (initial form).Combines (initial form) := by
  have hrow : ∀ i k, (initial form).multiplier i.succ k = if k = i then 1 else 0 := by
    intro i k
    unfold multiplier cell
    rw [initial_row_slack]
    split <;> rfl
  have hobjective : ∀ k, (initial form).multiplier 0 k = 0 := by
    intro k
    unfold multiplier cell
    rw [initial_objective_slack]
    rfl
  constructor
  · intro i j
    simp [hrow]
  · intro j
    simp [hobjective]

/-- A row that loses a multiple of the pivot row loses it in the slack columns
    as well, so it differs from its combination by as much as before. -/
theorem pivot_sub_combination (h : t.IsRational) (ha : t.coefficient r c ≠ 0)
    (hr : ∀ j, t.cell r.succ j = ∑ k, t.multiplier r.succ k * u.cell k.succ j)
    {i : Fin (m + 1)} (hi : i ≠ r.succ) (j : Fin (n + m + 1)) :
    (t.pivot 0 r c).cell i j - ∑ k, (t.pivot 0 r c).multiplier i k * u.cell k.succ j =
      t.cell i j - ∑ k, t.multiplier i k * u.cell k.succ j := by
  have hmultiplier : ∀ k, (t.pivot 0 r c).multiplier i k = t.multiplier i k -
      t.cell i c.castSucc / t.coefficient r c * t.multiplier r.succ k := by
    intro k
    have hcell := cell_pivot_of_ne h ha hi (k.natAdd n).castSucc
    unfold multiplier
    rw [hcell, mul_div_assoc', div_mul_eq_mul_div]
  have hsum : ∑ k, (t.pivot 0 r c).multiplier i k * u.cell k.succ j =
      ∑ k, t.multiplier i k * u.cell k.succ j -
        t.cell i c.castSucc / t.coefficient r c * t.cell r.succ j := by
    rw [hr, Finset.mul_sum, ← Finset.sum_sub_distrib]
    refine Finset.sum_congr rfl fun k _ => ?_
    rw [hmultiplier, sub_mul, mul_assoc]
  rw [cell_pivot_of_ne h ha hi, hsum]
  ring

/-- A pivot replaces rows by combinations of rows. -/
theorem Combines.pivot (hu : t.Combines u) (h : t.IsRational) (ha : t.coefficient r c ≠ 0) :
    (t.pivot 0 r c).Combines u := by
  have hother := fun i hi j => pivot_sub_combination (i := i) h ha (hu.row r) hi j
  constructor
  · intro i j
    by_cases hi : i = r
    · -- The pivot row is divided, and its multipliers with it.
      have hmultiplier : ∀ k, (t.pivot 0 r c).multiplier r.succ k =
          t.multiplier r.succ k / t.coefficient r c := fun k => cell_pivot_row h ha _
      rw [hi, cell_pivot_row h ha, hu.row, Finset.sum_div]
      refine Finset.sum_congr rfl fun k _ => ?_
      rw [hmultiplier, div_mul_eq_mul_div]
    · have hrow := hother i.succ (fun he => hi (Fin.succ_injective m he)) j
      rw [hu.row i j, sub_self] at hrow
      exact sub_eq_zero.mp hrow
  · -- No pivot is made in the objective row.
    intro j
    have hrow := hother 0 (Fin.succ_ne_zero r).symm j
    rw [hu.objective j, add_sub_cancel_left] at hrow
    exact sub_eq_iff_eq_add'.mp hrow

variable {form : StandardForm Exact n m}

/-- Without negative costs the multipliers of the objective row certify the
    objective reached. -/
theorem Combines.certifies (hu : t.Combines (initial form)) (hcost : ∀ j, 0 ≤ t.cost j) :
    form.Certifies (t.multiplier 0) t.worth := by
  constructor
  · intro k
    exact hcost (k.natAdd n)
  · intro j
    have hj : 0 ≤ t.cell 0 (j.castAdd m).castSucc := hcost (j.castAdd m)
    have hzero : (initial form).cell 0 (j.castAdd m).castSucc = -(form.objective.get j).toRat := by
      unfold cell
      rw [initial_objective, toRat_neg]
    have hrows : ∀ k : Fin m, (initial form).cell k.succ (j.castAdd m).castSucc =
        ((form.rows.get k).coefficients.get j).toRat := by
      intro k
      unfold cell
      rw [initial_row]
    rw [hu.objective, hzero] at hj
    simp only [hrows] at hj
    linarith
  · have hzero : (initial form).cell 0 (Fin.last (n + m)) = 0 := by
      unfold cell
      rw [initial_objective_rhs]
      rfl
    have hrows : ∀ k : Fin m, (initial form).cell k.succ (Fin.last (n + m)) = form.limit k := by
      intro k
      unfold cell
      rw [initial_row_rhs]
      rfl
    have hworth := hu.objective (Fin.last (n + m))
    rw [hzero, add_zero] at hworth
    simp only [hrows] at hworth
    exact hworth.symm

end Tableau

/-! ## Runs -/

namespace Simplex

/-- Without tolerance every tableau of a run combines the rows of the first
    one. -/
theorem combines_of_passes {s : Simplex Exact} {form : StandardForm Exact n m}
    (hs : s.tolerance = 0) (hf : form.IsRational) {phase : Phase} {state : State Exact n m}
    (h : Passes s form phase state) : state.tableau.Combines (Tableau.initial form) := by
  induction h with
  | start => exact Tableau.combines_initial form
  | @pivot phase state place hpasses hasks ih =>
    have hreached := reached_of_passes le_rfl hs hf (unrounded_of_exact hs) hpasses
    rw [hs] at hasks
    rw [advance_tableau, hs]
    exact ih.pivot hreached.rational (hasks.coefficient_ne hreached.rational le_rfl)
  | repaired _ _ ih => exact ih

variable {s : Simplex Exact} {m : Model Exact} {p : Prepared Exact m.vars.length}

/-- Without tolerance every tableau that a run passes through is rational and
    combines the rows of the first one, and the multipliers in the objective row
    of the last one certify an optimal answer: the objective reported is what
    they are worth, measured from zero again and turned around for a
    minimization. -/
theorem multipliers_certify (hs : s.tolerance = 0) (hm : m.RationalForms)
    (hp : m.standardForm s.tolerance = .ok p) :
    (∀ phase state, Passes s p.form phase state →
      state.tableau.IsRational ∧ state.tableau.Combines (Tableau.initial p.form)) ∧
    ∀ sol, s.solve m = .ok sol → sol.status = .optimal →
      Passes s p.form .improving (s.run p.form).last ∧
        p.form.Certifies ((s.run p.form).last.tableau.multiplier 0)
          (s.run p.form).last.tableau.worth ∧
        sol.objective = some (rational (m.sense.merit
          (∑ k, (s.run p.form).last.tableau.multiplier 0 k * p.form.limit k + m.offset))) := by
  obtain ⟨hadmitted, rfl⟩ := Model.standardForm_ok hp
  have hf := hm.prepared_isRational hadmitted
  refine ⟨fun phase state hpasses => ⟨?_, combines_of_passes hs hf hpasses⟩, ?_⟩
  · exact (reached_of_passes le_rfl hs hf (unrounded_of_exact hs) hpasses).rational
  · intro sol hsolve hstatus
    obtain ⟨-, ⟨hinfeasible, -⟩ | ⟨-, hanswer⟩⟩ := solve_ok hsolve
    · rw [hstatus] at hinfeasible
      cases hinfeasible
    · have horigin := Run.answer_ok hanswer
      rw [hstatus] at horigin
      obtain ⟨hending, -, hobjective⟩ := horigin
      obtain ⟨hreached, hdescribes⟩ := run_sound hs hf
      rw [hending] at hdescribes
      have hpasses := (run_optimal_passes hending).1
      have hcertifies := (combines_of_passes hs hf hpasses).certifies hdescribes.2
      refine ⟨hpasses, hcertifies, ?_⟩
      rw [hobjective, hcertifies.worth]
      unfold objective
      rw [dot_prepared hm hadmitted, hreached.rational.objective_eq, rational_add]
      cases m.sense with
      | maximize => rfl
      | minimize => rfl

/-- Rations at least cost: the lower bound makes a right-hand side negative, so
    the run starts with a repair. -/
def ration : Model Exact where
  sense := .minimize
  vars := [⟨"bread", .continuous, some (rational 2), some (rational 5)⟩,
    ⟨"butter", .continuous, none, none⟩]
  objective := [rational 3, rational 2]
  constraints := [⟨"spread", [rational 1, rational (-1)], .atMost, rational 1⟩]

/-- The last tableau of the rations without tolerance. -/
def rationed : Tableau Exact ration.vars.length ration.prepared.height :=
  (({ tolerance := 0 } : Simplex Exact).run ration.prepared.form).last.tableau

/-- The multiplier of the constraint is two and that of the upper bound zero:
    the gain is at most minus two, on top of the six that the lower bound costs. -/
theorem ration_certified : ∃ sol, ({ tolerance := 0 } : Simplex Exact).solve ration = .ok sol ∧
    sol.status = .optimal ∧ sol.objective = some (rational 8) ∧
      List.ofFn (rationed.multiplier 0) = [2, 0] ∧
        ration.prepared.form.Certifies (rationed.multiplier 0) (-2) := by
  have hrun : (({ tolerance := 0 } : Simplex Exact).solve ration).toOption.map
      (fun sol => (sol.status, sol.objective)) = some (.optimal, some (rational 8)) := by
    decide +kernel
  have hform : ration.standardForm 0 = .ok ration.prepared :=
    Model.standardForm_eq_prepared (by decide +kernel)
  have hcertify := multipliers_certify (s := { tolerance := 0 }) rfl (by decide) hform
  have hworth : rationed.worth = -2 := by decide +kernel
  have hmultipliers : List.ofFn (rationed.multiplier 0) = [2, 0] := by decide +kernel
  cases h : ({ tolerance := 0 } : Simplex Exact).solve ration with
  | error failure => rw [h] at hrun; cases hrun
  | ok sol =>
    rw [h] at hrun
    obtain ⟨hstatus, hobjective⟩ := Prod.mk.inj (Option.some.inj hrun)
    obtain ⟨-, hcertifies, -⟩ := hcertify.2 sol h hstatus
    exact ⟨sol, rfl, hstatus, hobjective, hmultipliers, hworth ▸ hcertifies⟩

end Simplex

end IntegerProgramming
