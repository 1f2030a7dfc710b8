import IntegerProgramming.Model.Relaxation
import IntegerProgramming.Proofs.Model.Points

/-! # The relaxation has the points of the model

    A constraint on a single variable is folded into that variable's range:
    what is left of it is the constraint without its other coefficients, which
    the tolerance takes for zeros (`foldedRanges_within`).

    A relaxed variable has the finite ends of its folded range as bounds and
    none in place of an infinite end.  What an absent bound means depends on the
    kind: without a lower bound an unrestricted variable starts at minus
    infinity and any other one at zero.  So two kinds of ranges are not kept.  A
    variable that is not unrestricted starts at zero if its range has no start
    (`Floored`), and a range from plus infinity up or from minus infinity down,
    which contains nothing, turns into one that does (`Inverted`).  All others
    are kept, those of absent or rational bounds among them.

    Without tolerance the coefficients that are left out are zero.  So the
    relaxation of a rational model has exactly the points of the model
    (`relaxation_feasible`), and a model without relaxation has none (`relax_error`). -/

namespace IntegerProgramming

open Exact

/-! ## Ranges -/

namespace Range

/-- The value lies in the range. -/
def Contains (r : Range Exact) (q : ℚ) : Prop := r.lower ≤ rational q ∧ rational q ≤ r.upper

/-- Neither end is undefined. -/
structure Defined (r : Range Exact) : Prop where
  lower : r.lower ≠ undefined
  upper : r.upper ≠ undefined

variable {r : Range Exact} (limit q : ℚ)

theorem Defined.capAbove_contains (h : r.Defined) :
    (r.capAbove (rational limit)).Contains q ↔ r.Contains q ∧ q ≤ limit := by
  have hupper : rational q ≤ Scalar.smaller r.upper (rational limit) ↔
      rational q ≤ r.upper ∧ q ≤ limit := by
    cases hu : r.upper with
    | rational u => rw [smaller_rational, rational_le, rational_le, le_min_iff]
    | plusInfinity => simp
    | minusInfinity => exact ⟨fun h => absurd h Bool.false_ne_true, fun h => h.1⟩
    | undefined => exact absurd hu h.upper
  unfold Contains capAbove
  rw [hupper, and_assoc]

theorem Defined.capBelow_contains (h : r.Defined) :
    (r.capBelow (rational limit)).Contains q ↔ r.Contains q ∧ limit ≤ q := by
  have hlower : Scalar.larger r.lower (rational limit) ≤ rational q ↔
      r.lower ≤ rational q ∧ limit ≤ q := by
    cases hl : r.lower with
    | rational l => rw [larger_rational, rational_le, rational_le, max_le_iff]
    | minusInfinity => simp
    | plusInfinity => exact ⟨fun h => absurd h Bool.false_ne_true, fun h => h.1⟩
    | undefined => exact absurd hl h.lower
  unfold Contains capBelow
  rw [hlower, and_right_comm]

theorem Defined.capBelow (h : r.Defined) : (r.capBelow (rational limit)).Defined :=
  ⟨larger_ne_undefined h.lower nofun, h.upper⟩

theorem Defined.capAbove (h : r.Defined) : (r.capAbove (rational limit)).Defined :=
  ⟨h.lower, smaller_ne_undefined h.upper nofun⟩

variable {limit} {a b : ℚ} (relation : Relation)

/-- Folding a constraint on a single value keeps the values that satisfy it. -/
theorem Defined.restrict_contains (h : r.Defined) (ha : a ≠ 0) :
    (r.restrict relation (rational a) (rational b)).Contains q ↔
      r.Contains q ∧ relation.Relates (a * q) b := by
  unfold restrict Relation.Relates
  rw [rational_div ha]
  rcases lt_or_gt_of_ne ha with hneg | hpos
  · -- Dividing by a negative coefficient turns the relation around.
    have hsign : decide ((0 : Exact) < rational a) = false := by simp [hneg.le]
    rw [hsign]
    cases relation with
    | atMost =>
      refine (h.capBelow_contains _ q).trans (and_congr_right fun _ => ?_)
      rw [div_le_iff_of_neg hneg, mul_comm]
    | atLeast =>
      refine (h.capAbove_contains _ q).trans (and_congr_right fun _ => ?_)
      rw [le_div_iff_of_neg hneg, mul_comm]
    | equal =>
      refine ((h.capBelow _).capAbove_contains _ q).trans ?_
      rw [h.capBelow_contains, and_assoc, ← le_antisymm_iff, div_eq_iff ha, mul_comm, eq_comm]
  · have hsign : decide ((0 : Exact) < rational a) = true := by simp [hpos]
    rw [hsign]
    cases relation with
    | atMost =>
      refine (h.capAbove_contains _ q).trans (and_congr_right fun _ => ?_)
      rw [le_div_iff₀ hpos, mul_comm]
    | atLeast =>
      refine (h.capBelow_contains _ q).trans (and_congr_right fun _ => ?_)
      rw [div_le_iff₀ hpos, mul_comm]
    | equal =>
      refine ((h.capBelow _).capAbove_contains _ q).trans ?_
      rw [h.capBelow_contains, and_assoc, ← le_antisymm_iff, div_eq_iff ha, mul_comm, eq_comm]

/-- Restricting a range cuts it on one side or on both. -/
theorem restrict_eq {α : Type} [Scalar α] (r : Range α) (relation : Relation) (a rhs : α) :
    r.restrict relation a rhs = r.capAbove (rhs / a) ∨
      r.restrict relation a rhs = r.capBelow (rhs / a) ∨
        r.restrict relation a rhs = (r.capBelow (rhs / a)).capAbove (rhs / a) := by
  unfold restrict
  dsimp only
  split
  · exact .inl rfl
  · exact .inl rfl
  · exact .inr (.inl rfl)
  · exact .inr (.inl rfl)
  · exact .inr (.inr rfl)

theorem restrict_cases (ha : a ≠ 0) (r : Range Exact) :
    let limit := rational (b / a)
    let s := r.restrict relation (rational a) (rational b)
    s = r.capAbove limit ∨ s = r.capBelow limit ∨ s = (r.capBelow limit).capAbove limit := by
  rw [← rational_div ha]
  exact r.restrict_eq relation (rational a) (rational b)

theorem Defined.restrict (h : r.Defined) (ha : a ≠ 0) :
    (r.restrict relation (rational a) (rational b)).Defined := by
  rcases restrict_cases relation ha r with hr | hr | hr <;> rw [hr]
  · exact h.capAbove _
  · exact h.capBelow _
  · exact (h.capBelow _).capAbove _

/-- A range that contains a number is not empty. -/
theorem Contains.not_isEmpty {q τ : ℚ} (h : r.Contains q) (hτ : 0 ≤ τ) :
    ¬ r.IsEmpty (rational τ) := by
  intro hempty
  have hcrossed : r.upper + rational τ < r.lower := hempty
  refine not_lt_of_between h.1 (u := r.upper + rational τ) ?_ hcrossed
  have hupper := h.2
  cases hu : r.upper with
  | rational u =>
    rw [hu, rational_le] at hupper
    rw [rational_add, rational_le]
    linarith
  | plusInfinity => exact rational_le_plusInfinity q
  | minusInfinity => rw [hu] at hupper; exact absurd hupper Bool.false_ne_true
  | undefined => rw [hu] at hupper; exact absurd hupper Bool.false_ne_true

/-- A range as bounds that are absent or rational leave it: without a rational
    lower end only for an unrestricted variable. -/
structure Fits (r : Range Exact) (v : Variable Exact) : Prop where
  lower : r.lower.IsRational ∨ r.lower = minusInfinity ∧ v.kind = .unrestricted
  upper : r.upper.IsRational ∨ r.upper = plusInfinity

variable {v : Variable Exact}

theorem Fits.defined (h : r.Fits v) : r.Defined := by
  constructor
  · intro hl
    rcases h.lower with hrational | ⟨hinfinite, -⟩
    · rw [hl] at hrational; cases hrational
    · rw [hl] at hinfinite; cases hinfinite
  · intro hu
    rcases h.upper with hrational | hinfinite
    · rw [hu] at hrational; cases hrational
    · rw [hu] at hinfinite; cases hinfinite

theorem Fits.capAbove (h : r.Fits v) (limit : ℚ) : (r.capAbove (rational limit)).Fits v := by
  refine ⟨h.lower, .inl ?_⟩
  unfold Range.capAbove
  rcases h.upper with hrational | hinfinite
  · have hu : r.upper = rational _ := hrational
    rw [hu, smaller_rational]; rfl
  · rw [hinfinite, smaller_plusInfinity]; rfl

theorem Fits.capBelow (h : r.Fits v) (limit : ℚ) : (r.capBelow (rational limit)).Fits v := by
  refine ⟨.inl ?_, h.upper⟩
  unfold Range.capBelow
  rcases h.lower with hrational | ⟨hinfinite, -⟩
  · have hl : r.lower = rational _ := hrational
    rw [hl, larger_rational]; rfl
  · rw [hinfinite, larger_minusInfinity]; rfl

theorem Fits.restrict (h : r.Fits v) (ha : a ≠ 0) :
    (r.restrict relation (rational a) (rational b)).Fits v := by
  rcases restrict_cases relation ha r with hr | hr | hr <;> rw [hr]
  · exact h.capAbove _
  · exact h.capBelow _
  · exact (h.capBelow _).capAbove _

end Range

theorem Variable.IsRational.range_fits {v : Variable Exact} (hv : v.IsRational) : v.range.Fits v :=
  ⟨hv.lowerBound_cases, hv.upperBound_cases.imp_right And.left⟩

/-! ## Constraints on a single variable -/

theorem Constraint.mem_support {α : Type} [Scalar α] {c : Constraint α} {tolerance a : α}
    {j : Nat} : (j, a) ∈ c.support tolerance ↔
      c.coefficients[j]? = some a ∧ tolerance < Scalar.abs a := by
  unfold support
  rw [List.mem_map]
  constructor
  · rintro ⟨⟨b, k⟩, hmem, hpair⟩
    rw [List.mem_filter, List.mem_zipIdx_iff_getElem?, decide_eq_true_iff] at hmem
    cases hpair
    exact hmem
  · rintro ⟨hget, ha⟩
    refine ⟨(a, j), ?_, rfl⟩
    rw [List.mem_filter, List.mem_zipIdx_iff_getElem?, decide_eq_true_iff]
    exact ⟨hget, ha⟩

theorem Constraint.support_of_single? {α : Type} [Scalar α] {c : Constraint α} {tolerance : α}
    {entry : Nat × α} (h : c.single? tolerance = some entry) : c.support tolerance = [entry] := by
  unfold single? at h
  split at h
  · rename_i hsupport
    rw [hsupport, Option.some.inj h]
  · cases h

/-- A constraint on a single variable has a coefficient for it. -/
theorem Constraint.lt_of_single? {α : Type} [Scalar α] {c : Constraint α} {tolerance a : α}
    {j : Nat} (h : c.single? tolerance = some (j, a)) : j < c.coefficients.length := by
  have hmem : (j, a) ∈ c.support tolerance := by
    rw [support_of_single? h]
    exact List.mem_singleton.mpr rfl
  exact (List.getElem?_eq_some_iff.mp (mem_support.mp hmem).1).1

section single

variable {c : Constraint Exact} {τ : ℚ} (hτ : 0 ≤ τ)

include hτ

/-- A coefficient beyond the tolerance is in the support. -/
theorem Constraint.IsRational.mem_support_of_lt (hc : c.IsRational) {k : Nat}
    (hk : τ < |coordinate c.coefficients k|) : ∃ a, (k, a) ∈ c.support (rational τ) := by
  have hlen : k < c.coefficients.length := by
    by_contra hlen
    rw [coordinate_of_length_le (Nat.not_lt.mp hlen), abs_zero] at hk
    linarith
  have ha : c.coefficients[k] = rational _ := hc.coefficients _ (List.getElem_mem hlen)
  refine ⟨_, mem_support.mpr ⟨List.getElem?_eq_getElem hlen, ?_⟩⟩
  rw [ha, abs_rational, rational_lt]
  simpa [coordinate, hlen] using hk

/-- A constraint on a single variable has one coefficient beyond the
    tolerance. -/
theorem Constraint.IsRational.single?_eq_some (hc : c.IsRational) {j : Nat} {a : Exact}
    (h : c.single? (rational τ) = some (j, a)) :
    a = rational (coordinate c.coefficients j) ∧ τ < |coordinate c.coefficients j| ∧
      ∀ k, k ≠ j → |coordinate c.coefficients k| ≤ τ := by
  have hsupport := support_of_single? h
  obtain ⟨hget, habs⟩ := mem_support.mp (hsupport ▸ List.mem_singleton.mpr rfl)
  obtain ⟨hj, rfl⟩ := List.getElem?_eq_some_iff.mp hget
  have ha : c.coefficients[j] = rational (coordinate c.coefficients j) := by
    rw [← hc.coefficients.getD_eq, List.getD_eq_getElem _ _ hj]
  rw [ha, abs_rational, rational_lt] at habs
  refine ⟨ha, habs, fun k hk => ?_⟩
  -- Any other coefficient beyond the tolerance would be in the support as well.
  by_contra hbeyond
  obtain ⟨b, hmem⟩ := hc.mem_support_of_lt hτ (not_le.mp hbeyond)
  rw [hsupport, List.mem_singleton, Prod.mk.injEq] at hmem
  exact hk hmem.1

end single

/-- What folding asks of a point: a constraint on a single variable is asked of
    that variable alone, and no other constraint is looked at. -/
def Constraint.FoldsAt (c : Constraint Exact) (τ : Exact) (x : List ℚ) : Prop :=
  ∀ entry ∈ c.single? τ, c.relation.Relates (entry.2.toRat * x.getD entry.1 0) c.rhs.toRat

/-- All coefficients but that of a single variable are zero. -/
def Constraint.DropsNothing (c : Constraint Exact) (τ : Exact) : Prop :=
  ∀ entry ∈ c.single? τ, ∀ k, k ≠ entry.1 → coordinate c.coefficients k = 0

theorem linear_eq_mul {a : List Exact} {j : Nat} (hj : j < a.length)
    (hzero : ∀ k, k ≠ j → coordinate a k = 0) (x : List ℚ) :
    linear a x = coordinate a j * x.getD j 0 := by
  unfold linear
  rw [Finset.sum_eq_single j]
  · intro k _ hk
    rw [hzero k hk, zero_mul]
  · intro hk
    exact absurd (Finset.mem_range.mpr hj) hk

/-- If nothing is dropped, folding asks for the constraint itself. -/
theorem Constraint.IsRational.foldsAt_iff {c : Constraint Exact} (hc : c.IsRational) {τ : ℚ}
    (hτ : 0 ≤ τ) (h : c.DropsNothing (rational τ)) (x : List ℚ) :
    c.FoldsAt (rational τ) x ↔ ((c.single? (rational τ)).isSome → c.HoldsAt x) := by
  unfold FoldsAt
  cases hsingle : c.single? (rational τ) with
  | none => simp
  | some entry =>
    obtain ⟨j, a⟩ := entry
    obtain ⟨rfl, -, -⟩ := hc.single?_eq_some hτ hsingle
    have hlinear := linear_eq_mul (lt_of_single? hsingle) (h _ hsingle) x
    simp [HoldsAt, hlinear]

theorem Constraint.IsRational.dropsNothing_zero {c : Constraint Exact} (hc : c.IsRational) :
    c.DropsNothing 0 := by
  rintro ⟨j, a⟩ hsingle k hk
  obtain ⟨-, -, hother⟩ := hc.single?_eq_some le_rfl hsingle
  exact abs_nonpos_iff.mp (hother k hk)

/-! ## Folding -/

/-- Every range contains the value of the point at its position. -/
def Within (ranges : List (Range Exact)) (x : List ℚ) : Prop :=
  ∀ (j : Nat) (r : Range Exact), ranges[j]? = some r → r.Contains (x.getD j 0)

/-- Every range fits the variable at its position. -/
def Fitting (vars : List (Variable Exact)) (ranges : List (Range Exact)) : Prop :=
  ∀ (j : Nat) (v : Variable Exact) (r : Range Exact),
    vars[j]? = some v → ranges[j]? = some r → r.Fits v

/-- Folding changes ranges and adds none. -/
theorem Constraint.length_fold {α : Type} [Scalar α] (tolerance : α) (ranges : List (Range α))
    (c : Constraint α) : (c.fold tolerance ranges).length = ranges.length := by
  unfold fold
  split
  · exact List.length_modify ..
  · rfl

theorem length_foldl_fold {α : Type} [Scalar α] (tolerance : α) (cs : List (Constraint α))
    (ranges : List (Range α)) :
    (cs.foldl (Constraint.fold tolerance) ranges).length = ranges.length := by
  induction cs generalizing ranges with
  | nil => rfl
  | cons c cs ih => exact (ih _).trans (c.length_fold tolerance ranges)

section folding

variable {ranges : List (Range Exact)} {c : Constraint Exact} {τ : ℚ}

/-- What restricting a range preserves holds after folding, position by
    position. -/
theorem foldl_fold_preserves (hτ : 0 ≤ τ) {P : Nat → Range Exact → Prop}
    (hP : ∀ j r relation (a b : ℚ), a ≠ 0 → P j r →
      P j (r.restrict relation (rational a) (rational b)))
    {cs : List (Constraint Exact)} (hcs : ∀ c ∈ cs, c.IsRational)
    (h : ∀ j r, ranges[j]? = some r → P j r) (j : Nat) (r : Range Exact)
    (hr : (cs.foldl (Constraint.fold (rational τ)) ranges)[j]? = some r) : P j r := by
  induction cs generalizing ranges with
  | nil => exact h j r hr
  | cons c cs ih =>
    obtain ⟨hc, hcs⟩ := List.forall_mem_cons.mp hcs
    refine ih hcs (fun i s hs => ?_) hr
    unfold Constraint.fold at hs
    cases hsingle : c.single? (rational τ) with
    | none =>
      rw [hsingle] at hs
      exact h i s hs
    | some entry =>
      obtain ⟨k, a⟩ := entry
      obtain ⟨rfl, hbeyond, -⟩ := hc.single?_eq_some hτ hsingle
      have hrhs : c.rhs = rational _ := hc.rhs
      rw [hsingle] at hs
      dsimp only at hs
      rw [List.getElem?_modify, Option.map_eq_map, Option.map_eq_some_iff] at hs
      obtain ⟨s', hs', rfl⟩ := hs
      have hold := h i s' hs'
      split
      · rw [hrhs]
        exact hP i s' _ _ _ (abs_pos.mp (hτ.trans_lt hbeyond)) hold
      · exact hold

/-- Changing one range changes what is asked of one value. -/
theorem within_modify {f : Range Exact → Range Exact} {j : Nat} (hj : j < ranges.length)
    {x : List ℚ} {P : Prop}
    (hf : (f ranges[j]).Contains (x.getD j 0) ↔ ranges[j].Contains (x.getD j 0) ∧ P) :
    Within (ranges.modify j f) x ↔ Within ranges x ∧ P := by
  unfold Within
  simp only [List.getElem?_modify, Option.map_eq_map, Option.map_eq_some_iff,
    forall_exists_index, and_imp, forall_apply_eq_imp_iff₂]
  constructor
  · intro hall
    have hown := hall j _ (List.getElem?_eq_getElem hj)
    rw [if_pos rfl, hf] at hown
    refine ⟨fun k r hr => ?_, hown.2⟩
    by_cases hk : j = k
    · subst hk
      rw [List.getElem?_eq_getElem hj] at hr
      rw [← Option.some.inj hr]
      exact hown.1
    · have hother := hall k r hr
      rwa [if_neg hk] at hother
  · rintro ⟨hall, hP⟩ k r hr
    by_cases hk : j = k
    · subst hk
      rw [List.getElem?_eq_getElem hj] at hr
      rw [if_pos rfl, ← Option.some.inj hr, hf]
      exact ⟨hall j _ (List.getElem?_eq_getElem hj), hP⟩
    · rw [if_neg hk]
      exact hall k r hr

variable (hτ : 0 ≤ τ)

include hτ

/-- Folding leaves no end undefined. -/
theorem foldl_fold_defined {cs : List (Constraint Exact)} (hcs : ∀ c ∈ cs, c.IsRational)
    (h : ∀ r ∈ ranges, r.Defined) :
    ∀ r ∈ cs.foldl (Constraint.fold (rational τ)) ranges, r.Defined := by
  intro r hr
  obtain ⟨j, hj⟩ := List.mem_iff_getElem?.mp hr
  refine foldl_fold_preserves (P := fun _ r => r.Defined) hτ ?_ hcs ?_ j r hj
  · intro _ s relation a b ha hs
    exact hs.restrict relation ha
  · intro i s hs
    exact h s (List.mem_of_getElem? hs)

/-- Folding a constraint asks for what is left of it. -/
theorem Constraint.IsRational.fold_within (hc : c.IsRational) (hr : ∀ r ∈ ranges, r.Defined)
    (hcount : c.coefficients.length = ranges.length) (x : List ℚ) :
    Within (c.fold (rational τ) ranges) x ↔ Within ranges x ∧ c.FoldsAt (rational τ) x := by
  unfold fold FoldsAt
  cases hsingle : c.single? (rational τ) with
  | none => simp
  | some entry =>
    obtain ⟨j, a⟩ := entry
    obtain ⟨rfl, hbeyond, -⟩ := hc.single?_eq_some hτ hsingle
    have hne : coordinate c.coefficients j ≠ 0 := abs_pos.mp (hτ.trans_lt hbeyond)
    have hrhs : c.rhs = rational _ := hc.rhs
    have hj : j < ranges.length := hcount ▸ lt_of_single? hsingle
    simp only [Option.mem_some_iff, forall_eq']
    refine within_modify hj ?_
    rw [hrhs]
    exact (hr _ (List.getElem_mem hj)).restrict_contains _ _ hne

/-- All constraints on single variables are folded, each one on top of those
    before it. -/
theorem foldl_fold_within {cs : List (Constraint Exact)} (hcs : ∀ c ∈ cs, c.IsRational)
    (hcount : ∀ c ∈ cs, c.coefficients.length = ranges.length)
    (hr : ∀ r ∈ ranges, r.Defined) (x : List ℚ) :
    Within (cs.foldl (Constraint.fold (rational τ)) ranges) x ↔
      Within ranges x ∧ ∀ c ∈ cs, c.FoldsAt (rational τ) x := by
  induction cs generalizing ranges with
  | nil => simp
  | cons c cs ih =>
    obtain ⟨hc, hcs⟩ := List.forall_mem_cons.mp hcs
    obtain ⟨hcount, hcounts⟩ := List.forall_mem_cons.mp hcount
    have hlen := c.length_fold (rational τ) ranges
    -- The folded ranges are defined again, so the rest is folded on top of them.
    have hfolded : ∀ r ∈ c.fold (rational τ) ranges, r.Defined :=
      foldl_fold_defined hτ (List.forall_mem_singleton.mpr hc) hr
    rw [List.foldl_cons, ih hcs (fun d hd => (hcounts d hd).trans hlen.symm) hfolded,
      hc.fold_within hτ hr hcount, List.forall_mem_cons, and_assoc]

end folding

/-! ## Relaxed variables -/

section relaxed

variable {v : Variable Exact} {r : Range Exact}

theorem finiteBound_of_isRational {x : Exact} (h : x.IsRational) : finiteBound x = some x :=
  if_pos ((isRational_iff_isFinite x).mp h)

theorem finiteBound_minusInfinity : finiteBound minusInfinity = none := rfl

theorem finiteBound_plusInfinity : finiteBound plusInfinity = none := rfl

theorem Variable.relaxed_kind (v : Variable Exact) (r : Range Exact) :
    (v.relaxed r).kind = .unrestricted ∨ (v.relaxed r).kind = .continuous := by
  unfold relaxed
  dsimp only
  split
  · exact .inl rfl
  · exact .inr rfl

/-- The bounds of a relaxed variable are absent or rational. -/
theorem Variable.relaxed_isRational (v : Variable Exact) (r : Range Exact) :
    (v.relaxed r).IsRational := by
  have hfinite : ∀ x : Exact, ∀ y ∈ finiteBound x, y.IsRational := by
    intro x y hy
    unfold finiteBound at hy
    split at hy
    · rename_i hx
      rw [Option.mem_some_iff] at hy
      exact hy ▸ (isRational_iff_isFinite x).mpr hx
    · cases hy
  exact ⟨hfinite r.lower, hfinite r.upper⟩

namespace Range

/-- The range has no start, and that of the relaxed variable starts at zero. -/
def Floored (r : Range Exact) (v : Variable Exact) : Prop :=
  r.lower = minusInfinity ∧ v.kind ≠ .unrestricted

/-- The range lies beyond all numbers. -/
def Inverted (r : Range Exact) : Prop := r.lower = plusInfinity ∨ r.upper = minusInfinity

instance (r : Range Exact) (v : Variable Exact) : Decidable (r.Floored v) :=
  inferInstanceAs (Decidable (_ ∧ _))

instance (r : Range Exact) : Decidable r.Inverted := inferInstanceAs (Decidable (_ ∨ _))

variable {q : ℚ}

theorem Contains.not_inverted (h : r.Contains q) : ¬ r.Inverted := by
  obtain ⟨hlow, hhigh⟩ := h
  rintro (hl | hu)
  · rw [hl] at hlow
    exact Bool.false_ne_true hlow
  · rw [hu] at hhigh
    exact Bool.false_ne_true hhigh

/-- The lower bound of a relaxed variable, one kind of end after the other. -/
theorem relaxed_lower_iff (v : Variable Exact) (hr : r.lower ≠ undefined) :
    ((v.relaxed r).lowerBound ≤ rational q ∧ r.lower ≠ plusInfinity) ↔
      (r.lower ≤ rational q ∧ (r.Floored v → 0 ≤ q)) := by
  have hlower : (v.relaxed r).lower = finiteBound r.lower := rfl
  unfold Variable.lowerBound Floored
  rw [hlower]
  cases hl : r.lower with
  | undefined => exact absurd hl hr
  | plusInfinity =>
    have hnone : ¬ plusInfinity ≤ rational q := Bool.false_ne_true
    simp [hnone]
  | rational l =>
    rw [finiteBound_of_isRational (isRational_rational l)]
    rcases v.relaxed_kind r with hk | hk <;> rw [hk] <;> simp
  | minusInfinity =>
    rw [finiteBound_minusInfinity]
    by_cases hfree : v.kind = .unrestricted
    · have hkind : (v.relaxed r).kind = .unrestricted :=
        if_pos ⟨hfree, by rw [hl]; rfl⟩
      rw [hkind]
      simp [hfree]
    · have hkind : (v.relaxed r).kind = .continuous := if_neg fun h => hfree h.1
      rw [hkind]
      simp [hfree]

theorem relaxed_upper_iff (v : Variable Exact) (hr : r.upper ≠ undefined) :
    (rational q ≤ (v.relaxed r).upperBound ∧ r.upper ≠ minusInfinity) ↔
      rational q ≤ r.upper := by
  have hupper : (v.relaxed r).upper = finiteBound r.upper := rfl
  unfold Variable.upperBound
  rw [hupper]
  cases hu : r.upper with
  | undefined => exact absurd hu hr
  | minusInfinity =>
    have hnone : ¬ rational q ≤ minusInfinity := Bool.false_ne_true
    simp [hnone]
  | rational u =>
    rw [finiteBound_of_isRational (isRational_rational u)]
    rcases v.relaxed_kind r with hk | hk <;> rw [hk] <;> simp
  | plusInfinity =>
    rw [finiteBound_plusInfinity]
    rcases v.relaxed_kind r with hk | hk <;> rw [hk] <;> simp

/-- A relaxed variable allows the values of its range from zero up if the range
    is floored, and it allows too much only if the range is inverted. -/
theorem Defined.relaxed_allows_iff (h : r.Defined) (v : Variable Exact) :
    ((v.relaxed r).Allows q ∧ ¬ r.Inverted) ↔ (r.Contains q ∧ (r.Floored v → 0 ≤ q)) := by
  have hlow := relaxed_lower_iff (q := q) v h.lower
  have hhigh := relaxed_upper_iff (q := q) v h.upper
  unfold Variable.Allows Contains Inverted
  rw [not_or]
  exact (and_and_and_comm.trans (and_congr hlow hhigh)).trans and_right_comm

/-- Absent and rational bounds are kept. -/
theorem Fits.kept (h : r.Fits v) : ¬ r.Floored v ∧ ¬ r.Inverted := by
  constructor
  · rintro ⟨hlower, hkind⟩
    rcases h.lower with hrational | ⟨-, hfree⟩
    · rw [hlower] at hrational
      cases hrational
    · exact hkind hfree
  · rintro (hlower | hupper)
    · rcases h.lower with hrational | ⟨hinfinite, -⟩
      · rw [hlower] at hrational
        cases hrational
      · rw [hlower] at hinfinite
        cases hinfinite
    · rcases h.upper with hrational | hinfinite
      · rw [hupper] at hrational
        cases hrational
      · rw [hupper] at hinfinite
        cases hinfinite

end Range

end relaxed

/-! ## Relaxed models -/

namespace Model

theorem length_foldedRanges {α : Type} [Scalar α] (m : Model α) (tolerance : α) :
    (m.foldedRanges tolerance).length = m.vars.length :=
  (length_foldl_fold _ _ _).trans (List.length_map ..)

/-- The relaxation that a model has if no folded range is empty. -/
def relaxation {α : Type} [Scalar α] (m : Model α) (tolerance : α) : Model α where
  sense := m.sense
  vars := (m.vars.zip (m.foldedRanges tolerance)).map fun vr => vr.1.relaxed vr.2
  objective := m.objective
  constraints := m.constraints.filter fun c => (c.single? tolerance).isNone

theorem relax_eq_relaxation {α : Type} [Scalar α] {m relaxed : Model α} {tolerance : α}
    (h : m.relax tolerance = .ok relaxed) : relaxed = m.relaxation tolerance := by
  unfold relax at h
  dsimp only at h
  split at h
  · cases h
  · cases h
    rfl

theorem length_relaxation {α : Type} [Scalar α] (m : Model α) (tolerance : α) :
    (m.relaxation tolerance).vars.length = m.vars.length := by
  unfold relaxation
  rw [List.length_map, List.length_zip, length_foldedRanges, min_self]

theorem relaxation_vars {α : Type} [Scalar α] {m : Model α} {tolerance : α} {j : Nat}
    (hj : j < (m.relaxation tolerance).vars.length) (hv : j < m.vars.length)
    (hr : j < (m.foldedRanges tolerance).length) :
    (m.relaxation tolerance).vars[j] = m.vars[j].relaxed (m.foldedRanges tolerance)[j] := by
  simp only [relaxation, List.getElem_map, List.getElem_zip]

/-- The relaxation has the variables of the model. -/
theorem length_relax {α : Type} [Scalar α] {m relaxed : Model α} {tolerance : α}
    (h : m.relax tolerance = .ok relaxed) : relaxed.vars.length = m.vars.length := by
  rw [relax_eq_relaxation h, length_relaxation]

/-- The relaxation of a model whose rows have a coefficient for every variable
    is such a model again. -/
theorem Aligned.relax {α : Type} [Scalar α] {m relaxed : Model α} {tolerance : α}
    (hal : m.Aligned) (h : m.relax tolerance = .ok relaxed) : relaxed.Aligned := by
  rw [relax_eq_relaxation h, aligned_iff, length_relaxation]
  exact ⟨hal.objective, fun c hc => hal.constraint (List.mem_filter.mp hc).1⟩

/-- A relaxation that is computed and found not to have a point. -/
theorem relax_loses {α : Type} [Scalar α] {m : Model α} {tolerance : α} {x : List α}
    (h : (m.relax tolerance).toOption.map (fun relaxed => decide (relaxed.IsFeasible x 0)) =
      some false) :
    ∃ relaxed, m.relax tolerance = .ok relaxed ∧ ¬ relaxed.IsFeasible x 0 := by
  cases hrelax : m.relax tolerance with
  | error reason => rw [hrelax] at h; cases h
  | ok relaxed =>
    rw [hrelax] at h
    exact ⟨relaxed, rfl, of_decide_eq_false (Option.some.inj h)⟩

/-! ## Ranges that are kept -/

/-- No folded range lies beyond all numbers. -/
def NoneInverted (m : Model Exact) (τ : Exact) : Prop := ∀ r ∈ m.foldedRanges τ, ¬ r.Inverted

/-- The values of the variables that start at zero in the relaxation only are
    not below zero. -/
def FloorsAt (m : Model Exact) (τ : Exact) (x : List ℚ) : Prop :=
  ∀ (j : Nat) (v : Variable Exact) (r : Range Exact), m.vars[j]? = some v →
    (m.foldedRanges τ)[j]? = some r → r.Floored v → 0 ≤ x.getD j 0

/-- The relaxed variables have the folded ranges. -/
def KeepsRanges (m : Model Exact) (τ : Exact) : Prop :=
  ∀ vr ∈ m.vars.zip (m.foldedRanges τ), ¬ vr.2.Floored vr.1 ∧ ¬ vr.2.Inverted

instance (m : Model Exact) (τ : Exact) : Decidable (m.KeepsRanges τ) :=
  inferInstanceAs (Decidable (∀ _ ∈ _, _))

section kept

variable {m : Model Exact} {τ : Exact}

theorem KeepsRanges.floorsAt (h : m.KeepsRanges τ) (x : List ℚ) : m.FloorsAt τ x := by
  intro j v r hv hr hfloored
  have hmem : (v, r) ∈ m.vars.zip (m.foldedRanges τ) :=
    List.mem_of_getElem? (List.getElem?_zip_eq_some.mpr ⟨hv, hr⟩)
  exact absurd hfloored (h _ hmem).1

theorem KeepsRanges.noneInverted (h : m.KeepsRanges τ) : m.NoneInverted τ := by
  intro r hr
  obtain ⟨j, hj⟩ := List.mem_iff_getElem?.mp hr
  obtain ⟨hlt, -⟩ := List.getElem?_eq_some_iff.mp hj
  rw [length_foldedRanges] at hlt
  have hmem : (m.vars[j], r) ∈ m.vars.zip (m.foldedRanges τ) :=
    List.mem_of_getElem? (List.getElem?_zip_eq_some.mpr ⟨List.getElem?_eq_getElem hlt, hj⟩)
  exact (h _ hmem).2

theorem noneInverted_of_within {x : List ℚ} (h : Within (m.foldedRanges τ) x) :
    m.NoneInverted τ := by
  intro r hr
  obtain ⟨j, hj⟩ := List.mem_iff_getElem?.mp hr
  exact (h j r hj).not_inverted

/-- The bounds of the relaxation, position by position. -/
theorem relaxation_allows_iff (hd : ∀ r ∈ m.foldedRanges τ, r.Defined) (x : List ℚ) :
    ((∀ j (hj : j < (m.relaxation τ).vars.length),
        (m.relaxation τ).vars[j].Allows (x.getD j 0)) ∧ m.NoneInverted τ) ↔
      (Within (m.foldedRanges τ) x ∧ m.FloorsAt τ x) := by
  have hlength := m.length_foldedRanges τ
  have hcount := m.length_relaxation τ
  constructor
  · rintro ⟨hallows, hnone⟩
    have hboth : ∀ (j : Nat) (v : Variable Exact) (r : Range Exact), m.vars[j]? = some v →
        (m.foldedRanges τ)[j]? = some r →
        r.Contains (x.getD j 0) ∧ (r.Floored v → 0 ≤ x.getD j 0) := by
      intro j v r hv hr
      obtain ⟨hjv, rfl⟩ := List.getElem?_eq_some_iff.mp hv
      obtain ⟨hjr, rfl⟩ := List.getElem?_eq_some_iff.mp hr
      have hj := hallows j (by omega)
      rw [relaxation_vars _ hjv hjr] at hj
      have hmem := List.getElem_mem hjr
      exact ((hd _ hmem).relaxed_allows_iff _).mp ⟨hj, hnone _ hmem⟩
    refine ⟨fun j r hr => ?_, fun j v r hv hr => (hboth j v r hv hr).2⟩
    obtain ⟨hjr, -⟩ := List.getElem?_eq_some_iff.mp hr
    exact (hboth j _ r (List.getElem?_eq_getElem (hlength ▸ hjr)) hr).1
  · rintro ⟨hwithin, hfloors⟩
    refine ⟨fun j hj => ?_, noneInverted_of_within hwithin⟩
    have hjv : j < m.vars.length := by omega
    have hjr : j < (m.foldedRanges τ).length := by omega
    have hr := List.getElem?_eq_getElem hjr
    rw [relaxation_vars hj hjv hjr]
    exact (((hd _ (List.getElem_mem hjr)).relaxed_allows_iff _).mpr
      ⟨hwithin j _ hr, hfloors j _ _ (List.getElem?_eq_getElem hjv) hr⟩).1

theorem RationalForms.relaxation (hm : m.RationalForms) : (m.relaxation τ).IsRational := by
  refine ⟨fun v hv => ?_, hm.objective, fun c hc => ?_⟩
  · obtain ⟨vr, -, rfl⟩ := List.mem_map.mp hv
    exact vr.1.relaxed_isRational vr.2
  · exact hm.constraints c (List.mem_filter.mp hc).1

/-- A point of the relaxation, if no range is inverted: its values lie in the
    folded ranges and above the floors, and it satisfies the constraints that
    were not folded. -/
theorem RationalForms.relaxation_feasible_iff (hm : m.RationalForms)
    (hd : ∀ r ∈ m.foldedRanges τ, r.Defined) (x : List ℚ) :
    ((m.relaxation τ).IsFeasible (x.map rational) 0 ∧ m.NoneInverted τ) ↔
      ((x.length = m.vars.length ∧ Within (m.foldedRanges τ) x ∧
        ∀ c ∈ m.constraints, c.single? τ = none → c.HoldsAt x) ∧ m.FloorsAt τ x) := by
  have hallows := relaxation_allows_iff hd x
  have hkept : (∀ c ∈ (m.relaxation τ).constraints, c.HoldsAt x) ↔
      ∀ c ∈ m.constraints, c.single? τ = none → c.HoldsAt x := by
    unfold Model.relaxation
    simp only [List.mem_filter, Option.isNone_iff_eq_none, and_imp]
  rw [hm.relaxation.isFeasible_iff, hkept]
  constructor
  · rintro ⟨⟨hlen, hbounds, hheld⟩, hnone⟩
    obtain ⟨hwithin, hfloors⟩ := hallows.mp ⟨hbounds, hnone⟩
    rw [length_relaxation] at hlen
    exact ⟨⟨hlen, hwithin, hheld⟩, hfloors⟩
  · rintro ⟨⟨hlen, hwithin, hheld⟩, hfloors⟩
    obtain ⟨hbounds, hnone⟩ := hallows.mpr ⟨hwithin, hfloors⟩
    rw [← m.length_relaxation τ] at hlen
    exact ⟨⟨hlen, hbounds, hheld⟩, hnone⟩

end kept

/-! ## Points of the folded ranges -/

section points

variable {m relaxed : Model Exact} {τ : ℚ} (hτ : 0 ≤ τ)

include hτ

/-- The folded ranges of a model, as one statement about points. -/
theorem RationalForms.foldedRanges_within (hm : m.RationalForms) (hal : m.Aligned)
    (hd : ∀ v ∈ m.vars, v.range.Defined) (x : List ℚ) :
    Within (m.foldedRanges (rational τ)) x ↔
      (∀ j (hj : j < m.vars.length), m.vars[j].Allows (x.getD j 0)) ∧
        ∀ c ∈ m.constraints, c.FoldsAt (rational τ) x := by
  have hcount : ∀ c ∈ m.constraints, c.coefficients.length = (m.vars.map Variable.range).length :=
    fun c hc => (hal.constraint hc).trans (List.length_map ..).symm
  refine (foldl_fold_within hτ hm.constraints hcount (List.forall_mem_map.mpr hd) x).trans
    (and_congr_left' ?_)
  constructor
  · intro h j hj
    exact h j m.vars[j].range (by simp [hj])
  · intro h j r hr
    rw [List.getElem?_map, Option.map_eq_some_iff] at hr
    obtain ⟨v, hv, rfl⟩ := hr
    obtain ⟨hj, rfl⟩ := List.getElem?_eq_some_iff.mp hv
    exact h j hj

theorem RationalForms.foldedRanges_defined (hm : m.RationalForms)
    (hd : ∀ v ∈ m.vars, v.range.Defined) : ∀ r ∈ m.foldedRanges (rational τ), r.Defined :=
  foldl_fold_defined hτ hm.constraints (List.forall_mem_map.mpr hd)

theorem IsRational.foldedRanges_fitting (hm : m.IsRational) :
    Fitting m.vars (m.foldedRanges (rational τ)) := by
  intro j v r hv hr
  refine foldl_fold_preserves (P := fun j r => ∀ v, m.vars[j]? = some v → r.Fits v) hτ ?_
    hm.constraints ?_ j r hr v hv
  · intro j r relation a b ha hr v hv
    exact (hr v hv).restrict relation ha
  · intro j r hr v hv
    rw [List.getElem?_map, hv, Option.map_some, Option.some.injEq] at hr
    rw [← hr]
    exact (hm.vars v (List.mem_of_getElem? hv)).range_fits

theorem IsRational.keepsRanges (hm : m.IsRational) : m.KeepsRanges (rational τ) := by
  rintro ⟨v, r⟩ hmem
  obtain ⟨j, hj⟩ := List.mem_iff_getElem?.mp hmem
  rw [List.getElem?_zip_eq_some] at hj
  exact (hm.foldedRanges_fitting hτ j v r hj.1 hj.2).kept

omit hτ in
theorem IsRational.range_defined (hm : m.IsRational) : ∀ v ∈ m.vars, v.range.Defined :=
  fun v hv => (hm.vars v hv).range_fits.defined

/-- A model has a relaxation if values lie in all folded ranges. -/
theorem relax_of_within {x : List ℚ} (h : Within (m.foldedRanges (rational τ)) x) :
    m.relax (rational τ) = .ok (m.relaxation (rational τ)) := by
  unfold relax
  dsimp only
  split
  · rename_i v r hfind
    -- The range that is reported as empty contains a value.
    have hempty := List.find?_some hfind
    obtain ⟨j, hj⟩ := List.mem_iff_getElem?.mp (List.mem_of_find?_eq_some hfind)
    rw [List.getElem?_zip_eq_some] at hj
    exact absurd (of_decide_eq_true hempty) ((h j r hj.2).not_isEmpty hτ)
  · rfl

/-- A point of the relaxation: its values lie in the folded ranges, and it
    satisfies the constraints that were not folded. -/
theorem IsRational.relaxation_feasible_iff (hm : m.IsRational) (x : List ℚ) :
    (m.relaxation (rational τ)).IsFeasible (x.map rational) 0 ↔
      x.length = m.vars.length ∧ Within (m.foldedRanges (rational τ)) x ∧
        ∀ c ∈ m.constraints, c.single? (rational τ) = none → c.HoldsAt x := by
  have hkeeps := hm.keepsRanges hτ
  have hpoints := hm.forms.relaxation_feasible_iff
    (hm.forms.foldedRanges_defined hτ hm.range_defined) x
  constructor
  · intro hx
    exact (hpoints.mp ⟨hx, hkeeps.noneInverted⟩).1
  · intro hx
    exact (hpoints.mpr ⟨hx, hkeeps.floorsAt x⟩).1

end points

/-! ## Without tolerance -/

section exact

variable {m relaxed : Model Exact}

/-- The values of a point lie in the folded ranges. -/
theorem RationalForms.within_of_isFeasible (hm : m.RationalForms) (hal : m.Aligned)
    (hd : ∀ v ∈ m.vars, v.range.Defined) {x : List ℚ} (hx : m.IsFeasible (x.map rational) 0) :
    Within (m.foldedRanges 0) x := by
  obtain ⟨-, hbounds, hheld⟩ := (hm.isFeasible_iff x).mp hx
  refine (hm.foldedRanges_within le_rfl hal hd x).mpr ⟨hbounds, fun c hc => ?_⟩
  have hrational := hm.constraints c hc
  exact (hrational.foldsAt_iff le_rfl hrational.dropsNothing_zero x).mpr fun _ => hheld c hc

theorem IsRational.within_of_isFeasible (hm : m.IsRational) (hal : m.Aligned) {x : List ℚ}
    (hx : m.IsFeasible (x.map rational) 0) : Within (m.foldedRanges 0) x :=
  hm.forms.within_of_isFeasible hal hm.range_defined hx

/-- A model without relaxation has no points. -/
theorem RationalForms.relax_error (hm : m.RationalForms) (hal : m.Aligned)
    (hd : ∀ v ∈ m.vars, v.range.Defined) {reason : Infeasibility Exact}
    (h : m.relax 0 = .error reason) (x : List ℚ) : ¬ m.IsFeasible (x.map rational) 0 := by
  intro hx
  have hok : m.relax 0 = .ok _ := relax_of_within le_rfl (hm.within_of_isFeasible hal hd hx)
  rw [hok] at h
  cases h

theorem relax_error (hm : m.IsRational) (hal : m.Aligned) {reason : Infeasibility Exact}
    (h : m.relax 0 = .error reason) (x : List ℚ) : ¬ m.IsFeasible (x.map rational) 0 :=
  hm.forms.relax_error hal hm.range_defined h x

/-- Values in the folded ranges and the constraints that were not folded make
    up the points of the model. -/
theorem RationalForms.isFeasible_iff_within (hm : m.RationalForms) (hal : m.Aligned)
    (hd : ∀ v ∈ m.vars, v.range.Defined) (x : List ℚ) :
    m.IsFeasible (x.map rational) 0 ↔
      x.length = m.vars.length ∧ Within (m.foldedRanges 0) x ∧
        ∀ c ∈ m.constraints, c.single? 0 = none → c.HoldsAt x := by
  have hwithin := hm.foldedRanges_within le_rfl hal hd x
  rw [hm.isFeasible_iff, zero_eq, hwithin, and_assoc]
  refine and_congr_right fun _ => and_congr_right fun _ => ?_
  -- A constraint is on a single variable and folded, or it stays.
  rw [← forall₂_and]
  refine forall₂_congr fun c hc => ?_
  have hrational := hm.constraints c hc
  rw [hrational.foldsAt_iff le_rfl hrational.dropsNothing_zero]
  cases c.single? (rational 0) <;> simp

/-- The points of the relaxation are the points of the model from the floors
    up, unless a range is inverted. -/
theorem RationalForms.relaxation_floors (hm : m.RationalForms) (hal : m.Aligned)
    (hd : ∀ v ∈ m.vars, v.range.Defined) (x : List ℚ) :
    ((m.relaxation 0).IsFeasible (x.map rational) 0 ∧ m.NoneInverted 0) ↔
      (m.IsFeasible (x.map rational) 0 ∧ m.FloorsAt 0 x) := by
  rw [hm.isFeasible_iff_within hal hd]
  exact hm.relaxation_feasible_iff (hm.foldedRanges_defined le_rfl hd) x

/-- The relaxation has the points of the model if it keeps the ranges. -/
theorem RationalForms.relaxation_feasible (hm : m.RationalForms) (hal : m.Aligned)
    (hd : ∀ v ∈ m.vars, v.range.Defined) (hkeeps : m.KeepsRanges 0) (x : List ℚ) :
    (m.relaxation 0).IsFeasible (x.map rational) 0 ↔ m.IsFeasible (x.map rational) 0 := by
  have hfloors := hm.relaxation_floors hal hd x
  constructor
  · intro hrelaxed
    exact (hfloors.mp ⟨hrelaxed, hkeeps.noneInverted⟩).1
  · intro hx
    exact (hfloors.mpr ⟨hx, hkeeps.floorsAt x⟩).1

theorem IsRational.relaxation_feasible (hm : m.IsRational) (hal : m.Aligned) (x : List ℚ) :
    (m.relaxation 0).IsFeasible (x.map rational) 0 ↔ m.IsFeasible (x.map rational) 0 :=
  hm.forms.relaxation_feasible hal hm.range_defined (hm.keepsRanges le_rfl) x

end exact

end Model

end IntegerProgramming
