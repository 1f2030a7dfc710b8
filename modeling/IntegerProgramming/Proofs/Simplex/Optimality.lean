import IntegerProgramming.Proofs.Simplex.Runs
import IntegerProgramming.Proofs.Simplex.StandardForm

/-! # The simplex method answers rightly

    Without tolerance and on rational data the three answers of the simplex
    method mean what they say: an optimal point is feasible and no feasible
    point is better, an infeasible model has no feasible point, and an
    unbounded one has feasible points better than any number.

    Budget and recording are free: a run that spends its budget gives no
    answer, and recording changes no tableau. -/

namespace IntegerProgramming

open Exact

namespace Simplex

/-! ## What an answer comes from -/

section origin

variable {α : Type} [Scalar α] {s : Simplex α}

/-- The status of an answer tells how the run ended. -/
theorem Run.answer_ok {n m : Nat} {sense : Sense} {form : StandardForm α n m} {r : Run α n m}
    {sol : Solution α} (h : r.answer s sense form = .ok sol) :
    match sol.status with
    | .optimal => r.ending = .optimal ∧ sol.values = s.point form r.last.tableau ∧
        sol.objective = some (objective sense form r.last.tableau)
    | .infeasible => ∃ reason, r.ending = .infeasible reason
    | .unbounded => r.ending = .unbounded
    | .error => False := by
  unfold Run.answer at h
  cases hr : r.ending with
  | exhausted => rw [hr] at h; cases h
  | infeasible reason => rw [hr] at h; cases h; exact ⟨reason, rfl⟩
  | unbounded => rw [hr] at h; cases h; rfl
  | optimal => rw [hr] at h; cases h; exact ⟨rfl, rfl, rfl⟩

/-- A model is answered either because a variable has an empty range, or by a
    run on its standard form. -/
theorem solve_ok {model : Model α} {sol : Solution α} (h : s.solve model = .ok sol) :
    model.Aligned ∧
      ((sol.status = .infeasible ∧ ∃ v ∈ model.vars, v.upperBound < v.lowerBound - s.tolerance) ∨
        (model.Admitted s.tolerance ∧
          (s.run model.prepared.form).answer s model.sense model.prepared.form = .ok sol)) := by
  unfold solve report at h
  cases hal : model.misalignment with
  | some cause => rw [hal] at h; cases h
  | none =>
    rw [hal] at h
    refine ⟨hal, ?_⟩
    cases hform : model.standardForm s.tolerance with
    | error refusal =>
      rw [hform] at h
      cases refusal with
      | unsupported cause => cases h
      | infeasible reason =>
        cases h
        exact .inl ⟨rfl, Model.standardForm_infeasible hform⟩
    | ok p =>
      rw [hform] at h
      obtain ⟨hadmitted, rfl⟩ := Model.standardForm_ok hform
      exact .inr ⟨hadmitted, h⟩

/-- A model is refused because of its form, or the budget was spent. -/
theorem solve_failed {model : Model α} {failure : Failure α} (h : s.solve model = .error failure) :
    (∃ cause, model.misalignment = some cause ∧ failure = .misaligned cause) ∨
      (∃ cause, failure = .unsupported cause) ∨ ∃ trace, failure = .pivotLimit s.maxPivots trace := by
  unfold solve report at h
  cases hal : model.misalignment with
  | some cause =>
    rw [hal] at h
    cases h
    exact .inl ⟨cause, rfl, rfl⟩
  | none =>
    rw [hal] at h
    right
    cases hform : model.standardForm s.tolerance with
    | error refusal =>
      rw [hform] at h
      cases refusal with
      | unsupported cause =>
        cases h
        exact .inl ⟨cause, rfl⟩
      | infeasible reason => cases h
    | ok p =>
      rw [hform] at h
      have hanswer : (s.run p.form).answer s model.sense p.form = .error failure := h
      unfold Run.answer at hanswer
      cases hending : (s.run p.form).ending with
      | exhausted =>
        rw [hending] at hanswer
        cases hanswer
        exact .inr ⟨_, rfl⟩
      | _ => rw [hending] at hanswer; cases hanswer

/-- An optimal point has a value for every variable. -/
theorem length_values {model : Model α} {sol : Solution α} (h : s.solve model = .ok sol)
    (hstatus : sol.status = .optimal) : sol.values.length = model.vars.length := by
  obtain ⟨-, ⟨hinfeasible, -⟩ | ⟨-, hanswer⟩⟩ := solve_ok h
  · rw [hstatus] at hinfeasible
    cases hinfeasible
  · have horigin := Run.answer_ok hanswer
    rw [hstatus] at horigin
    rw [horigin.2.1, point, Tableau.values_eq_map]
    simp

/-- An answer is never in doubt. -/
theorem solve_status {model : Model α} {sol : Solution α} (h : s.solve model = .ok sol) :
    sol.status ≠ .error := by
  intro herror
  obtain ⟨-, ⟨hinfeasible, -⟩ | ⟨-, hanswer⟩⟩ := solve_ok h
  · rw [herror] at hinfeasible
    cases hinfeasible
  · have horigin := Run.answer_ok hanswer
    rw [herror] at horigin
    exact horigin

end origin

/-! ## The point and the objective of a tableau -/

section reading

variable {s : Simplex Exact} {m : Model Exact}

theorem lower_prepared {τ : Exact} (ha : m.Admitted τ) :
    m.prepared.form.lower.toList = List.ofFn fun j => rational (m.base j) := by
  refine List.ext_getElem (by simp) fun j hj _ => ?_
  have hbase := ha.base_eq ⟨j, by simpa using hj⟩
  simp only [Fin.getElem_fin] at hbase
  simp [Model.prepared, vectorOf, hbase]

variable {t : Tableau Exact m.vars.length m.prepared.height}

/-- The point of a tableau whose values are read as without tolerance. -/
theorem point_eq (hread : t.values s.tolerance = t.values 0) {τ : Exact} (ha : m.Admitted τ)
    (h : Tableau.Reached m.prepared.form t) :
    s.point m.prepared.form t = (m.placed t.reading).map rational := by
  unfold point
  rw [hread, Tableau.values_eq_spread h.rational h.based, lower_prepared ha]
  refine List.ext_getElem (by simp [Model.placed]) fun j hj _ => ?_
  simp [Model.placed, Tableau.reading]

theorem dot_prepared (hm : m.RationalForms) {τ : Exact} (ha : m.Admitted τ) :
    Scalar.dot m.prepared.form.objective.toList m.prepared.form.lower.toList =
      rational m.offset := by
  have hlower : AllRational m.prepared.form.lower.toList := by
    intro l hl
    rw [lower_prepared ha] at hl
    obtain ⟨j, rfl⟩ := List.mem_ofFn.mp hl
    rfl
  have hobjective : AllRational m.prepared.form.objective.toList := by
    intro c hc
    obtain ⟨j, hj, rfl⟩ := List.mem_iff_getElem.mp hc
    exact (hm.prepared_isRational ha).objective ⟨j, by simpa using hj⟩
  have hlen : m.prepared.form.objective.toList.length ≤ m.vars.length := by simp
  rw [dot_eq hobjective hlower hlen, Model.offset, Finset.sum_range]
  refine congrArg rational (Finset.sum_congr rfl fun j _ => congrArg₂ (· * ·) ?_ ?_)
  · simp [coordinate, Model.prepared, vectorOf]
  · rw [lower_prepared ha]
    simp [coordinate]

/-- The objective reported is the value of the model's objective at the point
    reported. -/
theorem objective_eq (hm : m.IsRational) (hal : m.Aligned) (ha : m.Admitted 0)
    (h : Tableau.Reached m.prepared.form t) :
    objective m.sense m.prepared.form t = m.evaluate ((m.placed t.reading).map rational) := by
  have hmerit : m.sense.merit (linear m.objective (m.placed t.reading)) = t.worth + m.offset := by
    rw [hal.merit_eq_gain, m.measured_placed, h.gain_reading]
  rw [hm.evaluate_eq]
  unfold objective
  rw [dot_prepared hm.forms ha, h.rational.objective_eq, rational_add, ← hmerit]
  cases m.sense with
  | maximize => rfl
  | minimize => exact congrArg rational (neg_neg _)

end reading

/-! ## The three answers -/

section answers

variable {s : Simplex Exact} {m : Model Exact} {sol : Solution Exact}

/-- An optimal point is feasible, has the objective reported, and no feasible
    point has more merit. -/
theorem solve_optimal (hs : s.tolerance = 0) (hm : m.IsRational) (h : s.solve m = .ok sol)
    (hstatus : sol.status = .optimal) :
    ∃ x : List ℚ, sol.values = x.map rational ∧ m.IsFeasible (x.map rational) 0 ∧
      sol.objective = some (m.evaluate (x.map rational)) ∧
      ∀ y : List ℚ, m.IsFeasible (y.map rational) 0 →
        m.sense.merit (linear m.objective y) ≤ m.sense.merit (linear m.objective x) := by
  obtain ⟨hal, ⟨hinfeasible, -⟩ | ⟨ha, hanswer⟩⟩ := solve_ok h
  · rw [hstatus] at hinfeasible
    cases hinfeasible
  · rw [hs] at ha
    obtain ⟨hreached, hdescribes⟩ := run_sound hs (m.prepared_isRational hm ha)
    have horigin := Run.answer_ok hanswer
    rw [hstatus] at horigin
    obtain ⟨hending, hvalues, hobjective⟩ := horigin
    rw [hending] at hdescribes
    obtain ⟨hlevel, hcost⟩ := hdescribes
    -- The point reported is the one that the last tableau stands for.
    rw [point_eq (by rw [hs]) ha hreached] at hvalues
    rw [objective_eq hm hal ha hreached] at hobjective
    refine ⟨_, hvalues, ?_, hobjective, fun y hy => ?_⟩
    · rw [m.feasible_iff hm ha hal (m.length_placed _), m.measured_placed]
      exact hreached.reading_feasible hlevel
    · have hlen : y.length = m.vars.length := by simpa using hy.1
      rw [hal.merit_eq_gain, hal.merit_eq_gain, m.measured_placed, hreached.gain_reading]
      have hfeasible := (m.feasible_iff hm ha hal hlen).mp hy
      linarith [hreached.gain_le_worth hcost hfeasible]

theorem solve_infeasible (hs : s.tolerance = 0) (hm : m.IsRational) (h : s.solve m = .ok sol)
    (hstatus : sol.status = .infeasible) (x : List ℚ) : ¬ m.IsFeasible (x.map rational) 0 := by
  intro hx
  obtain ⟨hal, ⟨-, v, hv, hrange⟩ | ⟨ha, hanswer⟩⟩ := solve_ok h
  · -- A value between the bounds would put the lower one below the upper one.
    obtain ⟨j, hj, rfl⟩ := List.mem_iff_getElem.mp hv
    obtain ⟨hlow, hhigh⟩ := ((hm.isFeasible_iff x).mp hx).2.1 j hj
    rw [hs, sub_zero_eq] at hrange
    exact not_lt_of_between hlow hhigh hrange
  · rw [hs] at ha
    obtain ⟨hreached, hdescribes⟩ := run_sound hs (m.prepared_isRational hm ha)
    have horigin := Run.answer_ok hanswer
    rw [hstatus] at horigin
    obtain ⟨reason, hending⟩ := horigin
    rw [hending] at hdescribes
    obtain ⟨r, hlevel, hrow⟩ := hdescribes
    have hlen : x.length = m.vars.length := by simpa using hx.1
    exact hreached.not_feasible hlevel hrow _ ((m.feasible_iff hm ha hal hlen).mp hx)

theorem solve_unbounded (hs : s.tolerance = 0) (hm : m.IsRational) (h : s.solve m = .ok sol)
    (hstatus : sol.status = .unbounded) (M : ℚ) :
    ∃ x : List ℚ, m.IsFeasible (x.map rational) 0 ∧
      M < m.sense.merit (linear m.objective x) := by
  obtain ⟨hal, ⟨hinfeasible, -⟩ | ⟨ha, hanswer⟩⟩ := solve_ok h
  · rw [hstatus] at hinfeasible
    cases hinfeasible
  · rw [hs] at ha
    obtain ⟨hreached, hdescribes⟩ := run_sound hs (m.prepared_isRational hm ha)
    have hending := Run.answer_ok hanswer
    rw [hstatus] at hending
    rw [hending] at hdescribes
    obtain ⟨hlevel, c, hc, hcolumn⟩ := hdescribes
    -- The gain lacks the offset, so it has to pass `M` less the offset.
    obtain ⟨y, hy, hgain⟩ := hreached.unbounded hlevel hc hcolumn (M - m.offset)
    refine ⟨m.placed y, ?_, ?_⟩
    · rw [m.feasible_iff hm ha hal (m.length_placed y), m.measured_placed]
      exact hy
    · rw [hal.merit_eq_gain, m.measured_placed]
      linarith

/-- Whatever the budget of pivots and whether or not tableaux are recorded, an
    answer of the simplex method is right. -/
theorem answer_correct (hs : s.tolerance = 0) (hm : m.IsRational) (h : s.solve m = .ok sol) :
    (sol.status = .optimal →
      m.IsFeasible sol.values 0 ∧ sol.objective = some (m.evaluate sol.values) ∧
        ∀ y : List ℚ, m.IsFeasible (y.map rational) 0 →
          ¬ m.sense.Better (m.evaluate (y.map rational)) (m.evaluate sol.values)) ∧
      (sol.status = .infeasible → ∀ y : List ℚ, ¬ m.IsFeasible (y.map rational) 0) ∧
      (sol.status = .unbounded → ∀ M : ℚ, ∃ y : List ℚ,
        m.IsFeasible (y.map rational) 0 ∧
          m.sense.Better (m.evaluate (y.map rational)) (rational M)) := by
  refine ⟨fun hstatus => ?_, solve_infeasible hs hm h, fun hstatus M => ?_⟩
  · obtain ⟨x, hvalues, hfeasible, hobjective, hbest⟩ := solve_optimal hs hm h hstatus
    rw [hvalues]
    refine ⟨hfeasible, hobjective, fun y hy => ?_⟩
    rw [hm.evaluate_eq, hm.evaluate_eq, Sense.better_iff_merit, not_lt]
    exact hbest y hy
  · obtain ⟨y, hy, hmerit⟩ := solve_unbounded hs hm h hstatus (m.sense.merit M)
    refine ⟨y, hy, ?_⟩
    rw [hm.evaluate_eq, Sense.better_iff_merit]
    exact hmerit

/-- A program with a lower bound, an upper bound and a constraint. -/
def workshop : Model Exact where
  sense := .maximize
  vars := [⟨"x", .continuous, some (rational 1), some (rational 3)⟩,
    ⟨"y", .continuous, none, none⟩]
  objective := [rational 3, rational 2]
  constraints := [⟨"hours", [rational 1, rational 1], .atMost, rational 4⟩]

theorem workshop_solved : ∃ sol : Solution Exact,
    ({ tolerance := 0 } : Simplex Exact).solve workshop = .ok sol ∧
      sol.status = .optimal ∧ sol.objective = some (rational 11) ∧
      workshop.IsFeasible sol.values 0 ∧
      ∀ y : List ℚ, workshop.IsFeasible (y.map rational) 0 →
        ¬ rational 11 < workshop.evaluate (y.map rational) := by
  have hrun : (({ tolerance := 0 } : Simplex Exact).solve workshop).toOption.map
      (fun sol => (sol.status, sol.objective)) = some (.optimal, some (rational 11)) := by
    decide +kernel
  cases h : ({ tolerance := 0 } : Simplex Exact).solve workshop with
  | error failure => rw [h] at hrun; cases hrun
  | ok sol =>
    rw [h] at hrun
    obtain ⟨hstatus, hobjective⟩ := Prod.mk.inj (Option.some.inj hrun)
    obtain ⟨hfeasible, hvalue, hbest⟩ := (answer_correct rfl (by decide) h).1 hstatus
    have heleven : workshop.evaluate sol.values = rational 11 :=
      Option.some.inj (hvalue.symm.trans hobjective)
    rw [heleven] at hbest
    exact ⟨sol, rfl, hstatus, hobjective, hfeasible, hbest⟩

end answers

end Simplex

end IntegerProgramming
