import IntegerProgramming.BranchAndBound
import IntegerProgramming.Proofs.Model.Points

/-! # Splitting at a fractional value

    A decision adds one bound to a model and changes nothing else
    (`feasible_withDecision`).  The two decisions at a value exclude only
    numbers strictly between two neighbouring whole numbers, so no whole point
    is lost (`whole_le_floor_or_ceil_le`). -/

namespace IntegerProgramming

open Exact

/-! ## Whole points -/

/-- The point has a whole value wherever the model asks for one. -/
def Model.Whole {α : Type} (m : Model α) (x : List ℚ) : Prop :=
  ∀ j ∈ m.integralIndices, ∃ k : ℤ, x.getD j 0 = k

theorem Model.mem_integralIndices {α : Type} {m : Model α} {j : Nat} :
    j ∈ m.integralIndices ↔ ∃ v, m.vars[j]? = some v ∧ v.kind.isIntegral = true := by
  unfold integralIndices
  rw [List.mem_map]
  constructor
  · rintro ⟨⟨v, k⟩, hmem, rfl⟩
    rw [List.mem_filter, List.mem_zipIdx_iff_getElem?] at hmem
    exact ⟨v, hmem⟩
  · rintro ⟨v, hv⟩
    exact ⟨(v, j), by rw [List.mem_filter, List.mem_zipIdx_iff_getElem?]; exact hv, rfl⟩

theorem Model.lt_of_mem_integralIndices {α : Type} {m : Model α} {j : Nat}
    (h : j ∈ m.integralIndices) : j < m.vars.length := by
  obtain ⟨v, hv, -⟩ := mem_integralIndices.mp h
  exact (List.getElem?_eq_some_iff.mp hv).1

theorem exists_int_of_isWhole {q : ℚ} (h : IsWhole 0 (rational q)) : ∃ k : ℤ, q = k := by
  refine ⟨nearest q, ?_⟩
  have habs : Scalar.abs (rational q - rational (nearest q : ℚ)) ≤ (0 : Exact) := h
  rw [rational_sub, abs_rational, zero_eq, rational_le] at habs
  exact sub_eq_zero.mp (abs_nonpos_iff.mp habs)

theorem nearest_intCast (k : ℤ) : nearest (k : ℚ) = k := by
  unfold nearest
  split
  · show ⌊(k : ℚ) + 1 / 2⌋ = k
    rw [Int.floor_eq_iff]
    constructor <;> linarith
  · rw [Rat.ceil_eq_neg_floor_neg]
    show -⌊-((k : ℚ) - 1 / 2)⌋ = k
    rw [neg_eq_iff_eq_neg, Int.floor_eq_iff, Int.cast_neg]
    constructor <;> linarith

theorem isWhole_intCast (k : ℤ) : IsWhole 0 (rational k) := by
  show Scalar.abs (rational k - rational (nearest k : ℚ)) ≤ (0 : Exact)
  rw [nearest_intCast, rational_sub, sub_self, abs_rational, abs_zero]
  exact (rational_le 0 0).mpr le_rfl

/-! ## The variable to split at -/

/-- The variable to split at has to be whole and is not. -/
theorem mostFractional?_eq_some {α : Type} [Scalar α] {τ : α} {integral : List Nat}
    {values : List α} {j : Nat} (h : mostFractional? τ integral values = some j) :
    j ∈ integral ∧ ¬ IsWhole τ (values.getD j 0) := by
  unfold mostFractional? at h
  rw [Option.map_eq_some_iff] at h
  obtain ⟨⟨i, d⟩, hfold, rfl⟩ := h
  revert hfold i d
  -- Whatever the scan keeps was among the positions and not whole.
  induction integral using List.reverseRecOn with
  | nil => exact fun i d h => by cases h
  | append_singleton integral k ih =>
    intro i d h
    rw [List.foldl_append, List.foldl_cons, List.foldl_nil] at h
    have hkept (hbest : integral.foldl _ none = some (i, d)) :
        i ∈ integral ++ [k] ∧ ¬ IsWhole τ (values.getD i 0) :=
      ⟨List.mem_append_left _ (ih i d hbest).1, (ih i d hbest).2⟩
    have hnew (hwhole : ¬ IsWhole τ (values.getD k 0)) (hki : k = i) :
        i ∈ integral ++ [k] ∧ ¬ IsWhole τ (values.getD i 0) :=
      ⟨List.mem_append_right _ (List.mem_singleton.mpr hki.symm), hki ▸ hwhole⟩
    dsimp only at h
    split at h
    · exact hkept h
    · rename_i hwhole
      split at h
      · exact hnew hwhole (congrArg Prod.fst (Option.some.inj h))
      · split at h
        · exact hnew hwhole (congrArg Prod.fst (Option.some.inj h))
        · exact hkept h

/-- Only if all values are whole there is no variable to split at. -/
theorem isWhole_of_mostFractional?_eq_none {α : Type} [Scalar α] {τ : α} {integral : List Nat}
    {values : List α} (h : mostFractional? τ integral values = none) :
    ∀ j ∈ integral, IsWhole τ (values.getD j 0) := by
  unfold mostFractional? at h
  rw [Option.map_eq_none_iff] at h
  induction integral using List.reverseRecOn with
  | nil => exact fun j hj => by cases hj
  | append_singleton integral k ih =>
    rw [List.foldl_append, List.foldl_cons, List.foldl_nil] at h
    dsimp only at h
    -- Once the scan has kept a variable it keeps one.
    split at h
    · rename_i hwhole
      intro j hj
      rcases List.mem_append.mp hj with hold | hnew
      · exact ih h j hold
      · rwa [List.mem_singleton.mp hnew]
    · split at h
      · cases h
      · split at h
        · cases h
        · rename_i hsome _
          rw [hsome] at h
          cases h

/-- A node is split at a variable that has to be whole and is not; its two
    decisions carry the name of that variable. -/
theorem BranchAndBound.branch_ok {α : Type} [Scalar α] {e : BranchAndBound α} {m node : Model α}
    {b : Bounded α} {lower upper : Branching α × Model α}
    (h : (e.scheme m).branch node b = .ok (lower, upper)) :
    ∃ j v, m.vars[j]? = some v ∧ v.kind.isIntegral = true ∧
      ¬ IsWhole e.search.tolerance (b.values.getD j 0) ∧
      lower = (⟨v.name, .down, Scalar.floor (b.values.getD j 0)⟩,
        node.withDecision j ⟨v.name, .down, Scalar.floor (b.values.getD j 0)⟩) ∧
      upper = (⟨v.name, .up, Scalar.ceil (b.values.getD j 0)⟩,
        node.withDecision j ⟨v.name, .up, Scalar.ceil (b.values.getD j 0)⟩) := by
  unfold scheme branch at h
  dsimp only at h
  cases hj : mostFractional? e.search.tolerance m.integralIndices b.values with
  | none => rw [hj] at h; cases h
  | some j =>
    rw [hj] at h
    cases h
    obtain ⟨hmem, hwhole⟩ := mostFractional?_eq_some hj
    obtain ⟨v, hv, hintegral⟩ := Model.mem_integralIndices.mp hmem
    have hname : m.names.getD j "" = v.name := by simp [Model.names, hv]
    rw [hname]
    exact ⟨j, v, hv, hintegral, hwhole, rfl, rfl⟩

/-! ## Decisions -/

/-- The values that a decision allows. -/
def Branching.Permits (b : Branching Exact) (q : ℚ) : Prop :=
  match b.direction with
  | .down => q ≤ b.value.toRat
  | .up => b.value.toRat ≤ q

theorem Branching.coefficients_constraint {α : Type} [Scalar α] (b : Branching α) (n j : Nat) :
    (b.constraint n j).coefficients = Scalar.unitRow n j := by
  unfold constraint
  cases b.direction <;> rfl

theorem Branching.rhs_constraint {α : Type} [Scalar α] (b : Branching α) (n j : Nat) :
    (b.constraint n j).rhs = b.value := by
  unfold constraint
  cases b.direction <;> rfl

/-- A row with a single one is about one variable, if the tolerance tells one
    from zero. -/
theorem Constraint.single?_of_unitRow {α : Type} [Scalar α] {τ : α} (hone : τ < Scalar.abs 1)
    (hzero : ¬ τ < Scalar.abs 0) {c : Constraint α} {n j : Nat}
    (hc : c.coefficients = Scalar.unitRow n j) (hj : j < n) : c.single? τ = some (j, 1) := by
  -- The support drops the zeros before and behind the one.
  have hzeros : ∀ k start, ((List.replicate k (0 : α)).zipIdx start).filter
      (fun p => decide (τ < Scalar.abs p.1)) = [] := by
    intro k start
    rw [List.filter_eq_nil_iff]
    intro p hp
    have heq : p.1 = 0 := List.eq_of_mem_replicate (List.fst_mem_of_mem_zipIdx hp)
    rw [heq, decide_eq_true_iff]
    exact hzero
  have hkept : ∀ k rest, List.filter (fun p : α × Nat => decide (τ < Scalar.abs p.1))
      ((1, k) :: rest) = (1, k) :: rest.filter (fun p => decide (τ < Scalar.abs p.1)) :=
    fun _ _ => List.filter_cons_of_pos (decide_eq_true hone)
  have hsupport : c.support τ = [(j, 1)] := by
    unfold support
    rw [hc, Scalar.unitRow_eq hj, List.zipIdx_append, List.filter_append, hzeros, List.nil_append,
      List.zipIdx_cons, hkept, hzeros, List.length_replicate, Nat.zero_add]
    rfl
  unfold single?
  rw [hsupport]

/-- Folding a decision changes the range of its variable and no other one. -/
theorem Model.foldedRanges_withDecision {α : Type} [Scalar α] {τ : α}
    (hone : τ < Scalar.abs 1) (hzero : ¬ τ < Scalar.abs 0) {m : Model α} {j : Nat}
    (hj : j < m.vars.length) (b : Branching α) :
    (m.withDecision j b).foldedRanges τ = (m.foldedRanges τ).modify j
      (·.restrict (b.constraint m.vars.length j).relation 1 b.value) := by
  have hsingle : (b.constraint m.vars.length j).single? τ = some (j, 1) :=
    Constraint.single?_of_unitRow hone hzero (b.coefficients_constraint _ _) hj
  show (m.constraints ++ [b.constraint m.vars.length j]).foldl (Constraint.fold τ) _ = _
  rw [List.foldl_append, List.foldl_cons, List.foldl_nil]
  unfold Constraint.fold
  rw [hsingle, b.rhs_constraint]
  rfl

theorem Branching.holdsAt_constraint (b : Branching Exact) {n j : Nat} (hj : j < n) (x : List ℚ) :
    (b.constraint n j).HoldsAt x ↔ b.Permits (x.getD j 0) := by
  unfold Constraint.HoldsAt Permits
  rw [b.coefficients_constraint, b.rhs_constraint, linear_unitRow hj]
  unfold constraint
  cases b.direction <;> rfl

namespace Model

variable {m : Model Exact} {b : Branching Exact} {j : Nat}

theorem IsRational.withDecision (hm : m.IsRational) (hb : b.value.IsRational) (j : Nat) :
    (m.withDecision j b).IsRational := by
  refine ⟨hm.vars, hm.objective, fun c hc => ?_⟩
  rcases List.mem_append.mp hc with hold | hnew
  · exact hm.constraints c hold
  · obtain rfl := List.mem_singleton.mp hnew
    refine ⟨?_, ?_⟩
    · rw [b.coefficients_constraint]
      exact allRational_unitRow _ _
    · rw [b.rhs_constraint]
      exact hb

theorem Aligned.withDecision {α : Type} [Scalar α] {m : Model α} (hal : m.Aligned) (j : Nat)
    (b : Branching α) : (m.withDecision j b).Aligned := by
  refine (m.withDecision j b).aligned_iff.mpr ⟨hal.objective, fun c hc => ?_⟩
  rcases List.mem_append.mp hc with hold | hnew
  · exact hal.constraint hold
  · obtain rfl := List.mem_singleton.mp hnew
    rw [b.coefficients_constraint]
    simp [Scalar.unitRow, Model.withDecision, addConstraint]

/-- A decision adds one bound and changes nothing else. -/
theorem IsRational.feasible_withDecision (hm : m.IsRational) (hb : b.value.IsRational)
    (hj : j < m.vars.length) (x : List ℚ) :
    (m.withDecision j b).IsFeasible (x.map rational) 0 ↔
      m.IsFeasible (x.map rational) 0 ∧ b.Permits (x.getD j 0) := by
  have hconstraints : (∀ c ∈ (m.withDecision j b).constraints, c.HoldsAt x) ↔
      (∀ c ∈ m.constraints, c.HoldsAt x) ∧ b.Permits (x.getD j 0) := by
    rw [← b.holdsAt_constraint hj]
    exact List.forall_mem_append.trans (and_congr_right fun _ => List.forall_mem_singleton)
  rw [(hm.withDecision hb j).isFeasible_iff, hm.isFeasible_iff, hconstraints, and_assoc, and_assoc]
  rfl

end Model

/-- Whole numbers are on one of the two sides of a split. -/
theorem whole_le_floor_or_ceil_le (k : ℤ) (q : ℚ) : (k : ℚ) ≤ ⌊q⌋ ∨ (⌈q⌉ : ℚ) ≤ k := by
  rcases le_or_gt (k : ℚ) q with hle | hgt
  · exact .inl (Int.cast_le.mpr (Int.le_floor.mpr hle))
  · exact .inr (Int.cast_le.mpr (Int.ceil_le.mpr hgt.le))

end IntegerProgramming
