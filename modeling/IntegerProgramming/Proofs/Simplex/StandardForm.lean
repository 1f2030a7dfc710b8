import IntegerProgramming.Simplex.StandardForm
import IntegerProgramming.Proofs.Model.Points
import IntegerProgramming.Proofs.Simplex.LinearProgram

/-! # Models and their standard forms

    A model that has a standard form has continuous variables from zero up and
    upper bounds on linear forms.  Measuring every variable from its lower
    bound turns the points of the model into the points of the standard form
    (`feasible_iff`), and the merit of a point into its gain, up to what the
    lower bounds contribute (`merit_eq_gain`).

    Points that are feasible within a tolerance are treated along with the
    others.  A row is violated by as much as its constraint is; only a range
    that the tolerance admits although it is empty is not the same in the two.

    A model is called infeasible at this stage only because a variable has an
    empty range. -/

namespace IntegerProgramming

/-! ## What is taken -/

section admission

variable {α : Type} [Scalar α] {τ : α}

/-- A variable that the simplex method takes: continuous, with a finite lower
    bound from zero up and a range that is not empty. -/
structure Variable.Admitted (τ : α) (v : Variable α) : Prop where
  kind : v.kind = .continuous
  finite : Scalar.IsFinite v.lowerBound
  nonneg : ¬ v.lowerBound < 0
  range : ¬ v.upperBound < v.lowerBound - τ

theorem Variable.origin_ok {v : Variable α} {l : α} (h : v.origin τ = .ok l) :
    v.Admitted τ ∧ l = v.lowerBound := by
  unfold Variable.origin at h
  split at h
  · cases h
  · split at h
    · cases h
    · split at h
      · cases h
      · rename_i hkind hlow hrange
        cases h
        rw [not_or, not_not] at hlow
        exact ⟨⟨not_not.mp hkind, hlow.1, hlow.2, hrange⟩, rfl⟩

theorem Variable.origin_infeasible {v : Variable α} {reason : Infeasibility α}
    (h : v.origin τ = .error (.infeasible reason)) : v.upperBound < v.lowerBound - τ := by
  unfold Variable.origin at h
  split at h
  · cases h
  · split at h
    · cases h
    · split at h
      · assumption
      · cases h

theorem origins_ok {vs : List (Variable α)} {lower : List α}
    (h : vs.mapM (Variable.origin τ) = .ok lower) :
    (∀ v ∈ vs, v.Admitted τ) ∧ lower = vs.map Variable.lowerBound := by
  induction vs generalizing lower with
  | nil =>
    cases h
    exact ⟨fun v hv => absurd hv List.not_mem_nil, rfl⟩
  | cons v vs ih =>
    rw [List.mapM_cons] at h
    cases hv : v.origin τ with
    | error e => rw [hv] at h; cases h
    | ok l =>
      cases hvs : vs.mapM (Variable.origin τ) with
      | error e => rw [hv, hvs] at h; cases h
      | ok ls =>
        rw [hv, hvs] at h
        cases h
        obtain ⟨hadmitted, hl⟩ := Variable.origin_ok hv
        obtain ⟨hrest, hls⟩ := ih hvs
        exact ⟨List.forall_mem_cons.mpr ⟨hadmitted, hrest⟩, by rw [hl, hls, List.map_cons]⟩

theorem origins_infeasible {vs : List (Variable α)} {reason : Infeasibility α}
    (h : vs.mapM (Variable.origin τ) = .error (.infeasible reason)) :
    ∃ v ∈ vs, v.upperBound < v.lowerBound - τ := by
  induction vs with
  | nil => cases h
  | cons v vs ih =>
    rw [List.mapM_cons] at h
    cases hv : v.origin τ with
    | error e =>
      rw [hv] at h
      cases h
      exact ⟨v, List.mem_cons_self, Variable.origin_infeasible hv⟩
    | ok l =>
      cases hvs : vs.mapM (Variable.origin τ) with
      | error e =>
        rw [hv, hvs] at h
        cases h
        -- The first variable is taken, so the range that is empty comes later.
        obtain ⟨u, hu, hrange⟩ := ih hvs
        exact ⟨u, List.mem_cons_of_mem v hu, hrange⟩
      | ok ls => rw [hv, hvs] at h; cases h

theorem Constraint.admit_ok {c : Constraint α} (h : Constraint.admit c = .ok ()) :
    c.relation = .atMost ∧ ¬ c.rhs < 0 := by
  unfold Constraint.admit at h
  split at h
  · cases h
  · split at h
    · cases h
    · rename_i hrelation hrhs
      exact ⟨not_not.mp hrelation, hrhs⟩

theorem Constraint.admit_not_infeasible (c : Constraint α) (reason : Infeasibility α) :
    Constraint.admit c ≠ .error (.infeasible reason) := by
  unfold Constraint.admit
  split
  · exact fun h => by cases h
  · split
    · exact fun h => by cases h
    · exact fun h => by cases h

theorem admits_cons (c : Constraint α) (cs : List (Constraint α)) :
    (c :: cs).forM Constraint.admit =
      Constraint.admit c >>= fun _ => cs.forM Constraint.admit := rfl

theorem admits_ok {cs : List (Constraint α)} (h : cs.forM Constraint.admit = .ok ()) :
    ∀ c ∈ cs, c.relation = .atMost ∧ ¬ c.rhs < 0 := by
  induction cs with
  | nil => exact fun c hc => absurd hc List.not_mem_nil
  | cons c cs ih =>
    rw [admits_cons] at h
    cases hc : Constraint.admit c with
    | error e => rw [hc] at h; cases h
    | ok _ =>
      rw [hc] at h
      exact List.forall_mem_cons.mpr ⟨Constraint.admit_ok hc, ih h⟩

theorem admits_not_infeasible (cs : List (Constraint α)) (reason : Infeasibility α) :
    cs.forM Constraint.admit ≠ .error (.infeasible reason) := by
  induction cs with
  | nil => exact fun h => by cases h
  | cons c cs ih =>
    rw [admits_cons]
    cases hc : Constraint.admit c with
    | error e =>
      intro h
      have he : e = .infeasible reason := Except.error.inj h
      exact c.admit_not_infeasible reason (by rw [hc, he])
    | ok _ => exact ih

/-- The standard form that a model is brought to. -/
def Model.prepared (m : Model α) : Prepared α m.vars.length :=
  let lower := m.vars.map Variable.lowerBound
  let rows := m.rows m.vars.length lower
  ⟨rows.size,
    { names := Vector.ofFn fun i => (m.vars.get i).name
      objective := vectorOf m.vars.length m.gain
      lower := vectorOf m.vars.length lower
      rows := rows.toVector }⟩

/-- What a model with a standard form looks like. -/
structure Model.Admitted (m : Model α) (τ : α) : Prop where
  vars : ∀ v ∈ m.vars, v.Admitted τ
  constraints : ∀ c ∈ m.constraints, c.relation = .atMost ∧ ¬ c.rhs < 0

theorem Model.standardForm_ok {m : Model α} {p : Prepared α m.vars.length}
    (h : m.standardForm τ = .ok p) : m.Admitted τ ∧ p = m.prepared := by
  unfold Model.standardForm at h
  cases hvars : m.vars.mapM (Variable.origin τ) with
  | error e => rw [hvars] at h; cases h
  | ok lower =>
    cases hconstraints : m.constraints.forM Constraint.admit with
    | error e =>
      simp only [bind, Except.bind, hvars, hconstraints] at h
      cases h
    | ok _ =>
      simp only [bind, Except.bind, hvars, hconstraints] at h
      obtain ⟨hadmitted, rfl⟩ := origins_ok hvars
      cases h
      exact ⟨⟨hadmitted, admits_ok hconstraints⟩, rfl⟩

/-- A model that is not refused has this standard form. -/
theorem Model.standardForm_eq_prepared {m : Model α}
    (h : (m.standardForm τ).toOption.isSome = true) : m.standardForm τ = .ok m.prepared := by
  cases hform : m.standardForm τ with
  | error refusal => rw [hform] at h; cases h
  | ok p =>
    obtain ⟨-, rfl⟩ := Model.standardForm_ok hform
    rfl

theorem Model.standardForm_infeasible {m : Model α} {reason : Infeasibility α}
    (h : m.standardForm τ = .error (.infeasible reason)) :
    ∃ v ∈ m.vars, v.upperBound < v.lowerBound - τ := by
  unfold Model.standardForm at h
  cases hvars : m.vars.mapM (Variable.origin τ) with
  | error e =>
    rw [hvars] at h
    cases h
    exact origins_infeasible hvars
  | ok lower =>
    cases hconstraints : m.constraints.forM Constraint.admit with
    | error e =>
      simp only [bind, Except.bind, hvars, hconstraints] at h
      cases h
      exact absurd hconstraints (admits_not_infeasible _ reason)
    | ok _ =>
      simp only [bind, Except.bind, hvars, hconstraints] at h
      cases h

end admission

/-! ## Rows -/

open Exact

theorem toRat_vectorOf {n : Nat} (xs : List Exact) (j : Fin n) :
    ((vectorOf n xs).get j).toRat = coordinate xs j := by
  simp [vectorOf, coordinate]

theorem isRational_vectorOf {n : Nat} {xs : List Exact} (h : AllRational xs) (j : Fin n) :
    ((vectorOf n xs).get j).IsRational := by
  have hget : (vectorOf n xs).get j = xs.getD j 0 := by simp [vectorOf]
  rw [hget, h.getD_eq]
  rfl

/-- The rows of a model are its constraints and its finite upper bounds. -/
theorem Model.mem_rows {α : Type} [Scalar α] {m : Model α} {n : Nat} {row : Row α n} :
    row ∈ m.rows n (m.vars.map Variable.lowerBound) ↔
      (∃ c ∈ m.constraints, c.row n (m.vars.map Variable.lowerBound) = row) ∨
        ∃ (j : Nat) (hj : j < m.vars.length),
          m.vars[j].upperRow? n m.vars[j].lowerBound j = some row := by
  unfold Model.rows
  rw [List.mem_toArray, List.mem_append, List.mem_map, List.mem_filterMap]
  refine or_congr_right ⟨?_, ?_⟩
  · rintro ⟨⟨⟨v, l⟩, j⟩, hmem, hrow⟩
    rw [List.mem_zipIdx_iff_getElem?, List.getElem?_zip_eq_some, List.getElem?_map] at hmem
    obtain ⟨hj, hv⟩ := List.getElem?_eq_some_iff.mp hmem.1
    refine ⟨j, hj, ?_⟩
    rw [hmem.1, Option.map_some, Option.some.injEq] at hmem
    dsimp only at hv hmem hrow
    rw [hv, Option.some.inj hmem.2]
    exact hrow
  · rintro ⟨j, hj, hrow⟩
    refine ⟨((m.vars[j], m.vars[j].lowerBound), j), ?_, hrow⟩
    rw [List.mem_zipIdx_iff_getElem?, List.getElem?_zip_eq_some, List.getElem?_map]
    simp [hj]

/-! ## Points, measured from the lower bounds -/

namespace Model

/-- The value that a variable is measured from. -/
def base (m : Model Exact) (j : Fin m.vars.length) : ℚ := m.vars[j].lowerBound.toRat

/-- A point of the model, measured from the lower bounds. -/
def measured (m : Model Exact) (x : List ℚ) (j : Fin m.vars.length) : ℚ := x.getD j 0 - m.base j

/-- The point of the model with the given distances from the lower bounds. -/
def placed (m : Model Exact) (y : Fin m.vars.length → ℚ) : List ℚ :=
  List.ofFn fun j => y j + m.base j

theorem measured_placed (m : Model Exact) (y : Fin m.vars.length → ℚ) :
    m.measured (m.placed y) = y := by
  funext j
  simp [measured, placed]

theorem length_placed (m : Model Exact) (y : Fin m.vars.length → ℚ) :
    (m.placed y).length = m.vars.length := List.length_ofFn

variable {m : Model Exact}

theorem Admitted.base_eq {τ : Exact} (ha : m.Admitted τ) (j : Fin m.vars.length) :
    m.vars[j].lowerBound = rational (m.base j) :=
  (isRational_iff_isFinite _).mpr (ha.vars _ (List.getElem_mem j.isLt)).finite

/-- The ranges of the variables have room for a slack, with the tolerance on
    their upper bounds. -/
def HasRoom (m : Model Exact) (σ τ : ℚ) : Prop :=
  ∀ v ∈ m.vars, ∀ l u : ℚ, v.lowerBound = rational l → v.upperBound = rational u → l + σ ≤ u + τ

/-- No range that is taken is empty by more than the tolerance. -/
theorem Admitted.hasRoom {τ : ℚ} (ha : m.Admitted (rational τ)) : m.HasRoom 0 τ := by
  intro v hv l u hl hu
  have hrange := (ha.vars v hv).range
  rw [hl, hu, rational_sub, rational_lt, not_lt] at hrange
  linarith

/-- Ranges that are not empty have room for the tolerance itself. -/
theorem hasRoom_of_le (h : ∀ v ∈ m.vars, v.lowerBound ≤ v.upperBound) (τ : ℚ) :
    m.HasRoom τ τ := by
  intro v hv l u hl hu
  have hrange := h v hv
  rw [hl, hu, rational_le] at hrange
  linarith

theorem Admitted.lower_allRational {τ : Exact} (ha : m.Admitted τ) :
    AllRational (m.vars.map Variable.lowerBound) := by
  intro l hl
  obtain ⟨v, hv, rfl⟩ := List.mem_map.mp hl
  exact (isRational_iff_isFinite _).mpr (ha.vars v hv).finite

theorem coordinate_lower (m : Model Exact) (j : Fin m.vars.length) :
    coordinate (m.vars.map Variable.lowerBound) j = m.base j := by
  simp [coordinate, base]

/-- A constraint becomes a row that is exceeded by the same amount. -/
theorem RationalForms.constraintRow_excess (hm : m.RationalForms) {τ : Exact} (ha : m.Admitted τ)
    (hal : m.Aligned) {c : Constraint Exact} (hc : c ∈ m.constraints) (x : List ℚ) :
    ∑ j, ((c.row m.vars.length (m.vars.map Variable.lowerBound)).coefficients.get j).toRat *
        m.measured x j - (c.row m.vars.length (m.vars.map Variable.lowerBound)).rhs.toRat =
      linear c.coefficients x - c.rhs.toRat := by
  have hlen := hal.constraint hc
  have hrational := hm.constraints c hc
  have hrhs : c.rhs = rational c.rhs.toRat := hrational.rhs
  have hlhs : c.lhs (m.vars.map Variable.lowerBound) =
      rational (∑ j : Fin m.vars.length, coordinate c.coefficients j * m.base j) := by
    rw [Constraint.lhs, dot_eq hrational.coefficients ha.lower_allRational hlen.le,
      Finset.sum_range]
    simp only [coordinate_lower]
  unfold Constraint.row
  dsimp only
  rw [hlhs, hrhs, rational_sub, toRat_rational, linear_eq_sum _ _ hlen]
  simp only [toRat_vectorOf, measured, mul_sub, Finset.sum_sub_distrib, toRat_rational]
  ring

/-- The row of an upper bound asks for one variable to stay below it, or at the
    lower bound if that is larger. -/
theorem Admitted.upperRow_eq {ρ : Exact} (ha : m.Admitted ρ) (j : Fin m.vars.length)
    {row : Row Exact m.vars.length}
    (h : m.vars[j.val].upperRow? m.vars.length m.vars[j.val].lowerBound j = some row) :
    ∃ u : ℚ, m.vars[j.val].upperBound = rational u ∧ row.rhs.toRat = max (u - m.base j) 0 ∧
      ∀ y : Fin m.vars.length → ℚ, ∑ k, (row.coefficients.get k).toRat * y k = y j := by
  unfold Variable.upperRow? at h
  split at h
  · rename_i hfinite
    have hu : m.vars[j.val].upperBound = rational _ := (isRational_iff_isFinite _).mpr hfinite
    obtain rfl := Option.some.inj h
    refine ⟨_, hu, ?_, fun y => ?_⟩
    · have hbase : m.vars[j.val].lowerBound = rational (m.base j) := ha.base_eq j
      dsimp only
      rw [hbase, hu, zero_eq, rational_sub, larger_rational, toRat_rational, toRat_rational]
    · simp only [toRat_vectorOf]
      exact sum_unitRow j y
  · cases h

/-! ## The standard form of a model -/

theorem RationalForms.prepared_isRational (hm : m.RationalForms) {τ : Exact} (ha : m.Admitted τ) :
    m.prepared.form.IsRational := by
  have hrow : ∀ row ∈ m.rows m.vars.length (m.vars.map Variable.lowerBound),
      (∀ j : Fin m.vars.length, (row.coefficients.get j).IsRational) ∧ row.rhs.IsRational := by
    intro row hmem
    rcases mem_rows.mp hmem with ⟨c, hc, rfl⟩ | ⟨j, hj, hupper⟩
    · have hrational := hm.constraints c hc
      have hrhs : c.rhs = rational _ := hrational.rhs
      refine ⟨isRational_vectorOf hrational.coefficients, ?_⟩
      unfold Constraint.row Constraint.lhs
      rw [hrhs, dot_eq hrational.coefficients ha.lower_allRational le_rfl]
      rfl
    · unfold Variable.upperRow? at hupper
      split at hupper
      · rename_i hfinite
        have hu : m.vars[j].upperBound = rational _ := (isRational_iff_isFinite _).mpr hfinite
        obtain rfl := Option.some.inj hupper
        refine ⟨isRational_vectorOf (allRational_unitRow _ _), ?_⟩
        have hl : m.vars[j].lowerBound = rational _ := ha.base_eq ⟨j, hj⟩
        rw [hu, hl, zero_eq, rational_sub, larger_rational]
        rfl
      · cases hupper
  refine ⟨isRational_vectorOf ?_, fun i j => ?_, fun i => ?_⟩
  · unfold gain
    cases m.sense with
    | maximize => exact hm.objective
    | minimize =>
      intro a ha
      obtain ⟨b, hb, rfl⟩ := List.mem_map.mp ha
      have hrational : b = rational _ := hm.objective b hb
      rw [hrational]
      rfl
  · exact (hrow _ (Array.getElem_mem i.isLt)).1 j
  · exact (hrow _ (Array.getElem_mem i.isLt)).2

theorem prepared_isRational (hm : m.IsRational) {τ : Exact} (ha : m.Admitted τ) :
    m.prepared.form.IsRational := hm.forms.prepared_isRational ha

/-! ## Points of the standard form -/

section points

variable {τ σ : ℚ} {x : List ℚ}

/-- The rows of the standard form, one by one. -/
theorem feasibleWithin_iff (y : Fin m.vars.length → ℚ) :
    m.prepared.form.FeasibleWithin σ y ↔ (∀ j, -σ ≤ y j) ∧
      ∀ row ∈ m.rows m.vars.length (m.vars.map Variable.lowerBound),
        ∑ j, (row.coefficients.get j).toRat * y j ≤ row.rhs.toRat + σ := by
  refine and_congr_right fun _ => ⟨fun h row hmem => ?_, fun h i => ?_⟩
  · obtain ⟨i, hi, rfl⟩ := Array.mem_iff_getElem.mp hmem
    exact h ⟨i, hi⟩
  · exact h _ (Array.getElem_mem i.isLt)

theorem holds_iff_le (hm : m.RationalForms) {ρ : Exact} (ha : m.Admitted ρ) {c : Constraint Exact}
    (hc : c ∈ m.constraints) :
    c.Holds (x.map rational) (rational τ) ↔ linear c.coefficients x ≤ c.rhs.toRat + τ := by
  have hrhs : c.rhs = rational c.rhs.toRat := (hm.constraints c hc).rhs
  have hlhs : c.lhs (x.map rational) = rational (linear c.coefficients x) :=
    dot_map_rational (hm.constraints c hc).coefficients x
  unfold Constraint.Holds
  rw [(ha.constraints c hc).1]
  dsimp only
  rw [hlhs, hrhs, rational_add, rational_le, toRat_rational]

/-- A point that is feasible within a tolerance is so in the standard form. -/
theorem within_of_feasible (hm : m.RationalForms) {ρ : Exact} (ha : m.Admitted ρ) (hal : m.Aligned)
    (h : m.IsFeasible (x.map rational) (rational τ)) :
    m.prepared.form.FeasibleWithin τ (m.measured x) := by
  obtain ⟨-, hbounds, hconstraints⟩ := (m.isFeasible_iff_getD _ _).mp h
  rw [feasibleWithin_iff]
  refine ⟨fun j => ?_, fun row hmem => ?_⟩
  · have hlow := (hbounds j j.isLt).1
    have hbase : m.vars[j.val].lowerBound = rational (m.base j) := ha.base_eq j
    rw [getD_map_rational, hbase, rational_sub, rational_le] at hlow
    unfold measured
    linarith
  · rcases mem_rows.mp hmem with ⟨c, hc, rfl⟩ | ⟨j, hj, hupper⟩
    · have hexcess := hm.constraintRow_excess ha hal hc x
      have hle := (holds_iff_le hm ha hc).mp (hconstraints c hc)
      linarith
    · obtain ⟨u, hbound, hrhs, hsum⟩ := ha.upperRow_eq ⟨j, hj⟩ hupper
      have hhigh := (hbounds j hj).2
      have hu : m.vars[j].upperBound = rational u := hbound
      rw [getD_map_rational, hu, rational_add, rational_le] at hhigh
      -- The row asks for no more than the bound does.
      have hmax := le_max_left (u - m.base ⟨j, hj⟩) 0
      rw [hsum, hrhs]
      show x.getD j 0 - m.base ⟨j, hj⟩ ≤ _
      linarith

/-- A point that is feasible within a slack in the standard form is feasible
    within the tolerance if the ranges have room for the slack. -/
theorem feasible_of_within (hm : m.IsRational) {ρ : Exact} (ha : m.Admitted ρ) (hal : m.Aligned)
    (hlen : x.length = m.vars.length) (hσ : σ ≤ τ) (hroom : m.HasRoom σ τ)
    (h : m.prepared.form.FeasibleWithin σ (m.measured x)) :
    m.IsFeasible (x.map rational) (rational τ) := by
  obtain ⟨hvalues, hrows⟩ := (feasibleWithin_iff _).mp h
  have hbase : ∀ j (hj : j < m.vars.length),
      m.vars[j].lowerBound = rational (m.base ⟨j, hj⟩) := fun j hj => ha.base_eq ⟨j, hj⟩
  rw [m.isFeasible_iff_getD, List.length_map]
  refine ⟨hlen, fun j hj => ⟨?_, ?_⟩, fun c hc => ?_⟩
  · have hlow : -σ ≤ x.getD j 0 - m.base ⟨j, hj⟩ := hvalues ⟨j, hj⟩
    rw [getD_map_rational, hbase j hj, rational_sub, rational_le]
    linarith
  · rcases (hm.vars _ (List.getElem_mem hj)).upperBound_cases with hfinite | ⟨hinfinite, -⟩
    · have hupper : m.vars[j].upperRow? m.vars.length m.vars[j].lowerBound j = some _ :=
        if_pos ((isRational_iff_isFinite _).mp hfinite)
      have hrow := hrows _ (mem_rows.mpr (.inr ⟨j, hj, hupper⟩))
      obtain ⟨u, hbound, hrhs, hsum⟩ := ha.upperRow_eq ⟨j, hj⟩ hupper
      have hu : m.vars[j].upperBound = rational u := hbound
      have hnarrow := hroom _ (List.getElem_mem hj) _ u (hbase j hj) hu
      rw [hsum, hrhs] at hrow
      have hmeasured : x.getD j 0 - m.base ⟨j, hj⟩ ≤ max (u - m.base ⟨j, hj⟩) 0 + σ := hrow
      rw [getD_map_rational, hu, rational_add, rational_le]
      -- The row stops at the upper bound, or at the lower one.
      rcases max_cases (u - m.base ⟨j, hj⟩) 0 with ⟨hmax, -⟩ | ⟨hmax, -⟩
      · rw [hmax] at hmeasured
        linarith
      · rw [hmax] at hmeasured
        linarith
    · rw [getD_map_rational, hinfinite]
      exact rational_le_plusInfinity _
  · have hrow := hrows _ (mem_rows.mpr (.inl ⟨c, hc, rfl⟩))
    have hexcess := hm.forms.constraintRow_excess ha hal hc x
    rw [holds_iff_le hm.forms ha hc]
    linarith

/-- The points of the standard form are the points of the model, measured from
    the lower bounds. -/
theorem feasible_iff (hm : m.IsRational) (ha : m.Admitted 0) (hal : m.Aligned)
    (hlen : x.length = m.vars.length) :
    m.IsFeasible (x.map rational) 0 ↔ m.prepared.form.Feasible (m.measured x) := by
  rw [← StandardForm.feasibleWithin_zero]
  constructor
  · exact within_of_feasible hm.forms ha hal
  · exact feasible_of_within hm ha hal hlen le_rfl ha.hasRoom

end points

/-- What the lower bounds contribute to the objective that is maximized. -/
def offset (m : Model Exact) : ℚ := ∑ j : Fin m.vars.length, coordinate m.gain j * m.base j

theorem coordinate_gain (m : Model Exact) (j : Nat) :
    coordinate m.gain j = m.sense.merit (coordinate m.objective j) := by
  unfold gain
  cases m.sense with
  | maximize => rfl
  | minimize => exact coordinate_map_neg m.objective j

/-- The merit of a point is its gain in the standard form, up to the offset. -/
theorem Aligned.merit_eq_gain (hal : m.Aligned) (x : List ℚ) :
    m.sense.merit (linear m.objective x) = m.prepared.form.gain (m.measured x) + m.offset := by
  have hgain : m.prepared.form.gain (m.measured x) =
      ∑ j : Fin m.vars.length, coordinate m.gain j * m.measured x j :=
    Finset.sum_congr rfl fun j _ => congrArg (· * m.measured x j) (toRat_vectorOf m.gain j)
  rw [hgain, offset, ← Finset.sum_add_distrib, linear_eq_sum _ _ hal.objective]
  simp only [← mul_add, measured, sub_add_cancel, coordinate_gain]
  cases m.sense with
  | maximize => rfl
  | minimize => simp only [Sense.merit, neg_mul, Finset.sum_neg_distrib]

end Model

end IntegerProgramming
