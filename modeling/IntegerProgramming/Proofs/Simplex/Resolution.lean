import IntegerProgramming.Proofs.Simplex.Multipliers
import Mathlib.LinearAlgebra.Matrix.Adjugate
import Mathlib.RingTheory.Localization.FractionRing

/-! # The resolution of a linear program

    What a tolerance takes to be equal need not be equal, and a run that errs
    there loses the equations of the linear program.  But the cells of a tableau
    are no arbitrary numbers.  By Cramer's rule each of them is a quotient of two
    determinants of the first tableau, and the divisor is that of the basis, for
    all cells of the tableau (`Tableau.minor_mul_cell`).

    If the data are whole numbers, so are the determinants, and a cell that is
    not zero is at least one part in the largest determinant away from it; two
    ratios that differ do so by one part in its square.  A tolerance below that
    confuses nothing (`Simplex.sharp_of_scaled`), and the run makes the pivots
    that it would make without tolerance, at the least of all ratios, and reads
    its last tableau as it is.  Other data are whole numbers up to a scale, so
    every linear program has such tolerances (`StandardForm.exists_scaled`). -/

namespace IntegerProgramming

open Exact

variable {n m : Nat}

/-! ## Whole numbers -/

/-- The whole numbers among the fractions. -/
def wholes : Subring ℚ := (Int.castRingHom ℚ).range

theorem mem_wholes_of_den {x : ℚ} (h : x.den = 1) : x ∈ wholes :=
  ⟨x.num, Rat.coe_int_num_of_den_eq_one h⟩

/-- A whole number closer to zero than one is zero. -/
theorem eq_zero_of_mem_wholes {x : ℚ} (h : x ∈ wholes) (hx : |x| < 1) : x = 0 := by
  obtain ⟨z, rfl⟩ := h
  rw [eq_intCast] at hx ⊢
  have hz : |z| < 1 := by exact_mod_cast hx
  rw [Int.abs_lt_one_iff.mp hz, Int.cast_zero]

/-- A fraction is zero if it is small against its denominator. -/
theorem eq_zero_of_small {d x τ bound : ℚ} (hd : d ≠ 0) (hwhole : d * x ∈ wholes)
    (hbound : |d| ≤ bound) (hx : |x| ≤ τ) (hτ : τ * bound < 1) : x = 0 := by
  have hsmall : |d * x| < 1 := by
    calc |d * x| = |x| * |d| := by rw [abs_mul, mul_comm]
      _ ≤ τ * bound := mul_le_mul hx hbound (abs_nonneg d) ((abs_nonneg x).trans hx)
      _ < 1 := hτ
  exact (mul_eq_zero.mp (eq_zero_of_mem_wholes hwhole hsmall)).resolve_left hd

/-- What is no more up to the tolerance is no more, if the tolerance takes
    nothing else for equal. -/
theorem le_of_nearly_le {x y τ : ℚ} (hsame : |x - y| ≤ τ → x = y) (h : x ≤ y + τ) : x ≤ y := by
  by_contra hlt
  have habs : |x - y| ≤ τ := by
    rw [abs_of_pos (sub_pos.mpr (not_le.mp hlt))]
    linarith
  exact hlt (hsame habs).le

/-! ## Determinants of the first tableau -/

namespace StandardForm

/-- The determinant of some columns of the first tableau, one for each row. -/
def minor (form : StandardForm Exact n m) (columns : Fin m → Fin (n + m + 1)) : ℚ :=
  (Matrix.of fun i k => (Tableau.initial form).cell i.succ (columns k)).det

/-- The determinant of some columns and a further one, bordered by a row. -/
def border (form : StandardForm Exact n m) (columns : Fin m → Fin (n + m + 1)) (i : Fin (m + 1))
    (j : Fin (n + m + 1)) : ℚ :=
  form.minor columns * (Tableau.initial form).cell i j -
    ∑ k, (Tableau.initial form).cell i (columns k) * form.minor (Function.update columns k j)

/-- Up to a scale the determinants are whole numbers, those that the objective
    row borders included, and those of the constraint rows are bounded. -/
structure Scaled (form : StandardForm Exact n m) (scale bound : ℚ) : Prop where
  ne_zero : scale ≠ 0
  minor : ∀ columns, scale * form.minor columns ∈ wholes
  border : ∀ columns j, scale * form.border columns 0 j ∈ wholes
  le_bound : ∀ columns, |scale * form.minor columns| ≤ bound

/-- Finitely many fractions have a common denominator. -/
theorem exists_scaled (form : StandardForm Exact n m) : ∃ scale bound, form.Scaled scale bound := by
  obtain ⟨b, hb⟩ := IsLocalization.exist_integer_multiples_of_finite (nonZeroDivisors ℤ)
    (Sum.elim form.minor fun p : (Fin m → Fin (n + m + 1)) × Fin (n + m + 1) =>
      form.border p.1 0 p.2)
  have hwhole : ∀ x : ℚ, IsLocalization.IsInteger ℤ ((b : ℤ) • x) →
      ((b : ℤ) : ℚ) * x ∈ wholes := by
    rintro x ⟨z, hz⟩
    refine ⟨z, ?_⟩
    rw [← zsmul_eq_mul, ← hz]
    rfl
  obtain ⟨bound, hbound⟩ :=
    (Set.finite_range fun columns => |((b : ℤ) : ℚ) * form.minor columns|).bddAbove
  refine ⟨(b : ℤ), bound, ?_, ?_, ?_, ?_⟩
  · exact_mod_cast nonZeroDivisors.coe_ne_zero b
  · intro columns
    exact hwhole _ (hb (.inl columns))
  · intro columns j
    exact hwhole _ (hb (.inr (columns, j)))
  · intro columns
    exact hbound ⟨columns, rfl⟩

/-- Determinants of whole numbers are whole numbers. -/
theorem scaled_of_wholes {form : StandardForm Exact n m} {bound : ℚ}
    (hwhole : ∀ i j, (Tableau.initial form).cell i j ∈ wholes)
    (hbound : ∀ columns, |form.minor columns| ≤ bound) : form.Scaled 1 bound := by
  have hminor : ∀ columns, form.minor columns ∈ wholes := by
    intro columns
    unfold minor
    rw [Matrix.det_apply']
    refine Subring.sum_mem _ fun σ _ => Subring.mul_mem _ ?_ ?_
    · exact intCast_mem _ _
    · exact Subring.prod_mem _ fun i _ => hwhole _ _
  refine ⟨one_ne_zero, ?_, ?_, ?_⟩
  · intro columns
    rw [one_mul]
    exact hminor columns
  · intro columns j
    rw [one_mul]
    refine Subring.sub_mem _ (Subring.mul_mem _ (hminor columns) (hwhole 0 j)) ?_
    exact Subring.sum_mem _ fun k _ => Subring.mul_mem _ (hwhole 0 _) (hminor _)
  · intro columns
    rw [one_mul]
    exact hbound columns

end StandardForm

/-! ## Cells as quotients -/

namespace Tableau

variable {form : StandardForm Exact n m} {t : Tableau Exact n m}

/-- The basic columns, in the order of their rows. -/
def basics (t : Tableau Exact n m) (i : Fin m) : Fin (n + m + 1) := (t.basis.get i).castSucc

theorem Based.cell_basics (hb : t.Based) (i k : Fin m) :
    t.cell i.succ (t.basics k) = if i = k then 1 else 0 := by
  by_cases hik : i = k
  · subst hik
    rw [if_pos rfl]
    exact (hb i).one
  · rw [if_neg hik]
    exact (hb k).zero i.succ fun he => hik (Fin.succ_injective m he)

/-- The basic columns of the first tableau. -/
def basisMatrix (form : StandardForm Exact n m) (t : Tableau Exact n m) :
    Matrix (Fin m) (Fin m) ℚ :=
  Matrix.of fun i k => (initial form).cell i.succ (t.basics k)

/-- The multipliers of the constraint rows. -/
def multiplierMatrix (t : Tableau Exact n m) : Matrix (Fin m) (Fin m) ℚ :=
  Matrix.of fun i k => t.multiplier i.succ k

/-- The multipliers invert the basic columns: they make unit columns of them. -/
theorem multiplierMatrix_mul (hb : t.Based) (hc : t.Combines (initial form)) :
    t.multiplierMatrix * basisMatrix form t = 1 := by
  ext i k
  rw [Matrix.mul_apply, Matrix.one_apply, ← hb.cell_basics i k, hc.row]
  rfl

theorem minor_basics_ne_zero (hb : t.Based) (hc : t.Combines (initial form)) :
    form.minor t.basics ≠ 0 := by
  have hdet : t.multiplierMatrix.det * form.minor t.basics = 1 := by
    have hmul := congrArg Matrix.det (multiplierMatrix_mul hb hc)
    rwa [Matrix.det_mul, Matrix.det_one] at hmul
  exact right_ne_zero_of_mul_eq_one hdet

/-- Cramer's rule for the cells of a constraint row. -/
theorem minor_mul_cell (hb : t.Based) (hc : t.Combines (initial form)) (i : Fin m)
    (j : Fin (n + m + 1)) :
    form.minor t.basics * t.cell i.succ j = form.minor (Function.update t.basics i j) := by
  have hmul := multiplierMatrix_mul hb hc
  let column : Fin m → ℚ := fun k => (initial form).cell k.succ j
  have hcell : t.cell i.succ j = (t.multiplierMatrix.mulVec column) i := hc.row i j
  have hcramer : (basisMatrix form t).cramer column =
      form.minor t.basics • t.multiplierMatrix.mulVec column := by
    calc (basisMatrix form t).cramer column
        = t.multiplierMatrix.mulVec ((basisMatrix form t).mulVec
            ((basisMatrix form t).cramer column)) := by
          rw [Matrix.mulVec_mulVec, hmul, Matrix.one_mulVec]
      _ = form.minor t.basics • t.multiplierMatrix.mulVec column := by
          rw [Matrix.mulVec_cramer, Matrix.mulVec_smul]
          rfl
  rw [hcell, ← smul_eq_mul, ← Pi.smul_apply, ← hcramer, Matrix.cramer_apply]
  unfold StandardForm.minor
  congr 1
  ext k l
  rw [Matrix.updateCol_apply, Matrix.of_apply, Function.update_apply]
  split <;> rfl

/-- The basic columns take the first constraint rows back from their
    combinations. -/
theorem sum_basics_mul_cell (hb : t.Based) (hc : t.Combines (initial form)) (k : Fin m)
    (j : Fin (n + m + 1)) :
    ∑ i, (initial form).cell k.succ (t.basics i) * t.cell i.succ j =
      (initial form).cell k.succ j := by
  let column : Fin m → ℚ := fun k => (initial form).cell k.succ j
  have hinverse : basisMatrix form t * t.multiplierMatrix = 1 :=
    mul_eq_one_comm.mp (multiplierMatrix_mul hb hc)
  have hback : (basisMatrix form t).mulVec (t.multiplierMatrix.mulVec column) = column := by
    rw [Matrix.mulVec_mulVec, hinverse, Matrix.one_mulVec]
  have hrow := congrFun hback k
  simp only [hc.row _ j]
  exact hrow

/-- The objective row has lost what the basic columns were worth in it. -/
theorem cell_zero_eq (hb : t.Based) (hc : t.Combines (initial form)) (j : Fin (n + m + 1)) :
    t.cell 0 j = (initial form).cell 0 j -
      ∑ i, (initial form).cell 0 (t.basics i) * t.cell i.succ j := by
  have hbasic : ∀ i, (initial form).cell 0 (t.basics i) =
      -∑ k, t.multiplier 0 k * (initial form).cell k.succ (t.basics i) := by
    intro i
    have hzero : t.cell 0 (t.basics i) = 0 := (hb i).zero 0 (Fin.succ_ne_zero i).symm
    rw [hc.objective] at hzero
    linarith
  have hsum : ∑ i, (initial form).cell 0 (t.basics i) * t.cell i.succ j =
      -∑ k, t.multiplier 0 k * (initial form).cell k.succ j := by
    calc ∑ i, (initial form).cell 0 (t.basics i) * t.cell i.succ j
        = -∑ i, ∑ k, t.multiplier 0 k *
            ((initial form).cell k.succ (t.basics i) * t.cell i.succ j) := by
          simp only [hbasic, neg_mul, Finset.sum_mul, Finset.sum_neg_distrib, mul_assoc]
      _ = -∑ k, t.multiplier 0 k * (initial form).cell k.succ j := by
          rw [Finset.sum_comm]
          simp only [← Finset.mul_sum, sum_basics_mul_cell hb hc]
  rw [hsum, hc.objective]
  ring

/-- Cramer's rule for the cells of the objective row. -/
theorem minor_mul_cell_zero (hb : t.Based) (hc : t.Combines (initial form))
    (j : Fin (n + m + 1)) :
    form.minor t.basics * t.cell 0 j = form.border t.basics 0 j := by
  rw [cell_zero_eq hb hc j, mul_sub, Finset.mul_sum]
  unfold StandardForm.border
  congr 1
  refine Finset.sum_congr rfl fun i _ => ?_
  rw [← minor_mul_cell hb hc i j]
  ring

/-- All cells are fractions over one denominator, which is bounded, as are the
    numerators in the constraint rows. -/
structure Fractions (t : Tableau Exact n m) (d bound : ℚ) : Prop where
  ne_zero : d ≠ 0
  whole : d ∈ wholes
  le_bound : |d| ≤ bound
  cell : ∀ i j, d * t.cell i j ∈ wholes
  row_le : ∀ i j, |d * t.cell (Fin.succ i) j| ≤ bound

theorem fractions_of_scaled {scale bound : ℚ} (h : form.Scaled scale bound) (hb : t.Based)
    (hc : t.Combines (initial form)) : t.Fractions (scale * form.minor t.basics) bound where
  ne_zero := mul_ne_zero h.ne_zero (minor_basics_ne_zero hb hc)
  whole := h.minor _
  le_bound := h.le_bound _
  cell i j := by
    rw [mul_assoc]
    cases i using Fin.cases with
    | zero =>
      rw [minor_mul_cell_zero hb hc]
      exact h.border _ _
    | succ i =>
      rw [minor_mul_cell hb hc]
      exact h.minor _
  row_le i j := by
    rw [mul_assoc, minor_mul_cell hb hc]
    exact h.le_bound _

/-! ## Tolerances that confuse nothing -/

/-- The tolerance takes no cell for zero, no entry for one, and no two ratios
    for equal that are not. -/
structure Sharp (τ : ℚ) (t : Tableau Exact n m) : Prop where
  cell : ∀ i j, |t.cell i j| ≤ τ → t.cell i j = 0
  one : ∀ i j, |t.coefficient i j - 1| ≤ τ → t.coefficient i j = 1
  ratio : ∀ i k j, t.coefficient i j ≠ 0 → t.coefficient k j ≠ 0 →
    |t.level i / t.coefficient i j - t.level k / t.coefficient k j| ≤ τ →
      t.level i / t.coefficient i j = t.level k / t.coefficient k j

section sharp

variable {τ d bound : ℚ}

theorem Fractions.one_le_bound (h : t.Fractions d bound) : 1 ≤ bound := by
  by_contra hbound
  exact h.ne_zero (eq_zero_of_mem_wholes h.whole (h.le_bound.trans_lt (not_le.mp hbound)))

theorem Fractions.sharp (h : t.Fractions d bound) (hτ : 0 ≤ τ) (hfine : τ * bound ^ 2 < 1) :
    t.Sharp τ := by
  have hsmall : τ * bound < 1 := by
    have hle : τ * bound ≤ τ * bound ^ 2 :=
      mul_le_mul_of_nonneg_left (le_self_pow₀ h.one_le_bound two_ne_zero) hτ
    exact hle.trans_lt hfine
  refine ⟨?_, ?_, ?_⟩
  · intro i j hx
    exact eq_zero_of_small h.ne_zero (h.cell i j) h.le_bound hx hsmall
  · intro i j hx
    have hwhole : d * (t.coefficient i j - 1) ∈ wholes := by
      rw [mul_sub, mul_one]
      exact Subring.sub_mem _ (h.cell i.succ j.castSucc) h.whole
    exact sub_eq_zero.mp (eq_zero_of_small h.ne_zero hwhole h.le_bound hx hsmall)
  · intro i k j hi hk hx
    -- The denominator of the difference is the product of two numerators.
    have hne : d * t.coefficient i j * (d * t.coefficient k j) ≠ 0 :=
      mul_ne_zero (mul_ne_zero h.ne_zero hi) (mul_ne_zero h.ne_zero hk)
    have hwhole : d * t.coefficient i j * (d * t.coefficient k j) *
        (t.level i / t.coefficient i j - t.level k / t.coefficient k j) ∈ wholes := by
      have hcross : d * t.coefficient i j * (d * t.coefficient k j) *
          (t.level i / t.coefficient i j - t.level k / t.coefficient k j) =
            d * t.level i * (d * t.coefficient k j) - d * t.level k * (d * t.coefficient i j) := by
        field_simp
      rw [hcross]
      exact Subring.sub_mem _ (Subring.mul_mem _ (h.cell _ _) (h.cell _ _))
        (Subring.mul_mem _ (h.cell _ _) (h.cell _ _))
    have hbound : |d * t.coefficient i j * (d * t.coefficient k j)| ≤ bound ^ 2 := by
      rw [abs_mul, pow_two]
      exact mul_le_mul (h.row_le i _) (h.row_le k _) (abs_nonneg _)
        (zero_le_one.trans h.one_le_bound)
    exact sub_eq_zero.mp (eq_zero_of_small hne hwhole hbound hx hfine)

variable {r : Fin m} {c : Fin (n + m)}

theorem snapped_eq {x : ℚ} (h : |x| ≤ τ → x = 0) : snapped τ x = x := by
  unfold snapped
  split
  · rename_i hlt
    exact (h hlt.le).symm
  · rfl

/-- If the tolerance confuses nothing in what a pivot makes, it rounds
    nothing. -/
theorem Sharp.pivot_eq (hsharp : (t.pivot 0 r c).Sharp τ) (h : t.IsRational)
    (ha : t.coefficient r c ≠ 0) : t.pivot (rational τ) r c = t.pivot 0 r c := by
  have hpivoted : ∀ i j, pivoted τ t r c i j = (t.pivot 0 r c).cell i j := by
    intro i j
    have hexact : (t.pivot 0 r c).cell i j = pivoted 0 t r c i j := cell_pivot h ha 0 i j
    have hcell := hsharp.cell i j
    rw [hexact] at hcell ⊢
    unfold pivoted at hcell ⊢
    by_cases hi : i = r.succ
    · rw [if_pos hi, if_pos hi]
    · simp only [if_neg hi] at hcell ⊢
      by_cases hz : t.cell i c.castSucc = 0
      · rw [if_pos hz, if_pos hz]
      · simp only [if_neg hz, snapped_zero_tolerance] at hcell ⊢
        exact snapped_eq hcell
  have hrational : (t.pivot 0 r c).IsRational := h.pivot ha 0
  have hcells : (t.pivot (rational τ) r c).cells = (t.pivot 0 r c).cells := by
    apply Vector.ext
    intro i hi
    apply Vector.ext
    intro j hj
    have hget := pivot_cells h ha τ ⟨i, hi⟩ ⟨j, hj⟩
    rw [hpivoted, ← hrational.cells_eq ⟨i, hi⟩ ⟨j, hj⟩] at hget
    exact hget
  exact congrArg (fun cells => (⟨cells, t.basis.set r c⟩ : Tableau Exact n m)) hcells

/-- No right-hand side is left below zero. -/
theorem Sharp.level_nonneg (hsharp : t.Sharp τ) {i : Fin m} (h : -τ ≤ t.level i) :
    0 ≤ t.level i := by
  refine le_of_nearly_le (fun hx => ?_) (neg_le_iff_add_nonneg.mp h)
  rw [zero_sub, abs_neg] at hx
  exact (hsharp.cell i.succ _ hx).symm

/-- A ratio that is the least one up to the tolerance is the least one. -/
theorem Sharp.ratio_le (hsharp : t.Sharp τ) {i : Fin m} (hr : t.coefficient r c ≠ 0)
    (hi : t.coefficient i c ≠ 0)
    (h : t.level r / t.coefficient r c ≤ t.level i / t.coefficient i c + τ) :
    t.level r / t.coefficient r c ≤ t.level i / t.coefficient i c :=
  le_of_nearly_le (hsharp.ratio r i c hr hi) h

theorem Sharp.unitRow?_eq (hsharp : t.Sharp τ) (h : t.IsRational) (hτ : 0 ≤ τ)
    (j : Fin (n + m)) : t.unitRow? (rational τ) j = t.unitRow? 0 j := by
  have hzero : ∀ i : Fin (m + 1), rational τ < Scalar.abs (rational (t.cell i j.castSucc)) ↔
      (0 : Exact) < Scalar.abs (rational (t.cell i j.castSucc)) := by
    intro i
    rw [zero_eq, abs_rational, rational_lt, rational_lt, ← not_le, ← not_le, not_iff_not]
    constructor
    · intro hle
      rw [hsharp.cell i _ hle, abs_zero]
    · intro hle
      exact hle.trans hτ
  have hone : ∀ i : Fin m, Scalar.abs (t.entry i j - 1) ≤ rational τ ↔
      Scalar.abs (t.entry i j - 1) ≤ (0 : Exact) := by
    intro i
    rw [h.entry_eq, zero_eq, one_eq, rational_sub, abs_rational, rational_le, rational_le]
    constructor
    · intro hle
      rw [hsharp.one i j hle, sub_self, abs_zero]
    · intro hle
      exact hle.trans hτ
  have hclear : ∀ i, t.ClearOutside (rational τ) i j ↔ t.ClearOutside 0 i j := by
    intro i
    unfold ClearOutside
    refine and_congr ?_ (forall₂_congr fun k _ => ?_)
    · rw [not_iff_not, h.reducedCost_eq]
      exact hzero 0
    · rw [not_iff_not, h.entry_eq]
      exact hzero k.succ
  unfold unitRow?
  simp only [hone, hclear]

/-- The values are read as they are. -/
theorem Sharp.values_eq (hsharp : t.Sharp τ) (h : t.IsRational) (hτ : 0 ≤ τ) :
    t.values (rational τ) = t.values 0 := by
  have hunit := hsharp.unitRow?_eq h hτ
  unfold values
  simp only [hunit]

end sharp

end Tableau

/-! ## Runs under a fine tolerance -/

namespace Simplex

section runs

variable {s : Simplex Exact} {form : StandardForm Exact n m} {τ scale bound : ℚ}
  (hscaled : form.Scaled scale bound) (hτ : 0 ≤ τ) (hfine : τ * bound ^ 2 < 1)
  (hs : s.tolerance = rational τ) (hf : form.IsRational)

include hscaled hτ hfine in
theorem sharp_of_scaled {t : Tableau Exact n m} (hb : t.Based)
    (hc : t.Combines (Tableau.initial form)) : t.Sharp τ :=
  (Tableau.fractions_of_scaled hscaled hb hc).sharp hτ hfine

include hscaled hτ hfine in
/-- What an exact pivot makes is sharp, so it is what the rounded pivot makes. -/
theorem Phase.Asks.pivot_eq {t : Tableau Exact n m} (ht : Tableau.Reached form t)
    (hc : t.Combines (Tableau.initial form)) {phase : Phase} {place : Tableau.Place Exact n m}
    (h : phase.Asks (rational τ) t place) :
    t.pivot (rational τ) place.row place.column = t.pivot 0 place.row place.column := by
  have hne := h.coefficient_ne ht.rational hτ
  have hsharp := sharp_of_scaled hscaled hτ hfine (ht.pivot hne).based (hc.pivot ht.rational hne)
  exact hsharp.pivot_eq ht.rational hne

include hscaled hτ hfine hs hf

/-- The tableaux of the run are combinations of the first one, and state its
    equations. -/
theorem combines_of_fine {phase : Phase} {state : State Exact n m}
    (h : Passes s form phase state) :
    Tableau.Reached form state.tableau ∧ state.tableau.Combines (Tableau.initial form) := by
  induction h with
  | start => exact ⟨Tableau.reached_initial hf, Tableau.combines_initial form⟩
  | @pivot phase state place _ hasks ih =>
    obtain ⟨hreached, hcombines⟩ := ih
    rw [hs] at hasks
    have hne := hasks.coefficient_ne hreached.rational hτ
    rw [advance_tableau, hs, hasks.pivot_eq hscaled hτ hfine hreached hcombines]
    exact ⟨hreached.pivot hne, hcombines.pivot hreached.rational hne⟩
  | repaired _ _ ih => exact ih

theorem sharp_of_fine {phase : Phase} {state : State Exact n m} (h : Passes s form phase state) :
    state.tableau.IsRational ∧ state.tableau.Sharp τ := by
  obtain ⟨hreached, hcombines⟩ := combines_of_fine hscaled hτ hfine hs hf h
  exact ⟨hreached.rational, sharp_of_scaled hscaled hτ hfine hreached.based hcombines⟩

/-- A run under a fine tolerance rounds nothing. -/
theorem unrounded_of_fine : Unrounded s form := by
  intro phase state place hpasses hasks
  obtain ⟨hreached, hcombines⟩ := combines_of_fine hscaled hτ hfine hs hf hpasses
  rw [hs] at hasks ⊢
  exact hasks.pivot_eq hscaled hτ hfine hreached hcombines

/-- It leaves nothing below zero and finds the least ratios. -/
theorem thorough_of_fine : Thorough s form where
  repaired state hpasses hdone i := by
    obtain ⟨hrational, hsharp⟩ := sharp_of_fine hscaled hτ hfine hs hf hpasses
    have hrule := Tableau.repair_describes hrational τ
    rw [hs] at hdone
    rw [hdone] at hrule
    exact hsharp.level_nonneg (hrule i)
  least state place hpasses hpivot i hi := by
    obtain ⟨hrational, hsharp⟩ := sharp_of_fine hscaled hτ hfine hs hf hpasses
    have hrule := Tableau.improvement_describes hrational hτ
    rw [hs] at hpivot
    rw [hpivot] at hrule
    obtain ⟨-, hrow, hleast⟩ := hrule
    -- A positive entry is above the tolerance, so the row has been looked at.
    have hseen : τ < state.tableau.coefficient i place.column := by
      by_contra hle
      have habs : |state.tableau.coefficient i place.column| ≤ τ := by
        rw [abs_of_pos hi]
        exact not_lt.mp hle
      exact hi.ne' (hsharp.cell i.succ _ habs)
    exact hsharp.ratio_le (hτ.trans_lt hrow).ne' hi.ne' (hleast i hseen)

/-- It reads every tableau as it is. -/
theorem values_of_fine {phase : Phase} {state : State Exact n m} (h : Passes s form phase state) :
    state.tableau.values s.tolerance = state.tableau.values 0 := by
  obtain ⟨hrational, hsharp⟩ := sharp_of_fine hscaled hτ hfine hs hf h
  rw [hs]
  exact hsharp.values_eq hrational hτ

end runs

end Simplex

end IntegerProgramming
