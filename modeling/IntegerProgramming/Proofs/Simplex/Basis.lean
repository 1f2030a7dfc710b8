import IntegerProgramming.Proofs.Simplex.Equations

/-! # Bases and what a tableau certifies

    The basic column of every row is a unit column: one in its row and zero in
    all others, the objective row included.  Pivots keep it so, at every
    tolerance up to one.

    Giving each row's right-hand side to a unit column of that row solves the
    tableau.  Signs then decide the linear program: nonnegative costs bound the
    objective of every nonnegative solution, a negative row without negative
    entries has none, and a negative cost over a column without positive
    entries raises the objective without end. -/

namespace IntegerProgramming

namespace Tableau

open Exact

variable {n m : Nat} {t : Tableau Exact n m}

/-! ## Unit columns -/

/-- The column has a one in a constraint row and zeros in all other rows. -/
structure IsUnit (t : Tableau Exact n m) (j : Fin (n + m)) (i : Fin m) : Prop where
  one : t.coefficient i j = 1
  zero : ∀ k, k ≠ i.succ → t.cell k j.castSucc = 0

/-- The basic column of every row is a unit column. -/
def Based (t : Tableau Exact n m) : Prop := ∀ i : Fin m, t.IsUnit (t.basis.get i) i

theorem IsUnit.row_unique {j : Fin (n + m)} {i i' : Fin m} (h : t.IsUnit j i)
    (h' : t.IsUnit j i') : i = i' := by
  by_contra hne
  have hzero := h'.zero i.succ fun he => hne (Fin.succ_injective m he)
  have hone := h.one
  unfold coefficient at hone
  rw [hzero] at hone
  exact zero_ne_one hone

@[simp] theorem snapped_zero (τ : ℚ) : snapped τ 0 = 0 := by
  unfold snapped
  split <;> rfl

theorem snapped_one {τ : ℚ} (hτ : τ ≤ 1) : snapped τ 1 = 1 := by
  unfold snapped
  rw [abs_one, if_neg (not_lt.mpr hτ)]

variable {r : Fin m} {c : Fin (n + m)} {τ : ℚ}

theorem isUnit_pivot_entering (h : t.IsRational) (ha : t.coefficient r c ≠ 0) :
    (t.pivot (rational τ) r c).IsUnit c r := by
  constructor
  · unfold coefficient
    rw [cell_pivot h ha, pivoted, if_pos rfl]
    exact div_self ha
  · intro k hk
    rw [cell_pivot h ha, pivoted, if_neg hk]
    by_cases hz : t.cell k c.castSucc = 0
    · rw [if_pos hz, hz]
    · rw [if_neg hz, show t.cell r.succ c.castSucc / t.coefficient r c = 1 from div_self ha,
        mul_one, sub_self, snapped_zero]

/-- A unit column of another row has a zero in the pivot row, so a pivot
    subtracts nothing in it; a cell that is rounded keeps its value. -/
theorem IsUnit.pivot {j : Fin (n + m)} {i : Fin m} (hj : t.IsUnit j i) (hi : i ≠ r)
    (h : t.IsRational) (ha : t.coefficient r c ≠ 0) (hτ : τ ≤ 1) :
    (t.pivot (rational τ) r c).IsUnit j i := by
  have hrow : t.cell r.succ j.castSucc = 0 :=
    hj.zero r.succ fun he => hi (Fin.succ_injective m he).symm
  have hkeep : ∀ k, k ≠ r.succ → (t.pivot (rational τ) r c).cell k j.castSucc =
      if t.cell k c.castSucc = 0 then t.cell k j.castSucc
      else snapped τ (t.cell k j.castSucc) := by
    intro k hk
    rw [cell_pivot h ha, pivoted, if_neg hk, hrow, zero_div, mul_zero, sub_zero]
  constructor
  · have hcell : t.cell i.succ j.castSucc = 1 := hj.one
    unfold coefficient
    rw [hkeep i.succ fun he => hi (Fin.succ_injective m he), hcell, snapped_one hτ, ite_self]
  · intro k hk
    by_cases hkr : k = r.succ
    · rw [hkr, cell_pivot h ha, pivoted, if_pos rfl, hrow, zero_div]
    · rw [hkeep k hkr, hj.zero k hk, snapped_zero, ite_self]

theorem Based.pivot (hb : t.Based) (h : t.IsRational) (ha : t.coefficient r c ≠ 0) (hτ : τ ≤ 1) :
    (t.pivot (rational τ) r c).Based := by
  intro i
  have hbasis : (t.pivot (rational τ) r c).basis.get i = if i = r then c else t.basis.get i := by
    show (t.basis.set r c).get i = _
    by_cases hi : i = r
    · simp [hi]
    · rw [if_neg hi]
      simp [Fin.val_ne_of_ne (Ne.symm hi)]
  rw [hbasis]
  by_cases hi : i = r
  · rw [if_pos hi, hi]
    exact isUnit_pivot_entering h ha
  · -- The basic columns of the other rows stay unit columns.
    rw [if_neg hi]
    exact (hb i).pivot hi h ha hτ

/-! ## Points on unit columns -/

/-- The point that gives every row's value to the column that holds the row. -/
def spread (holder : Fin m → Fin (n + m)) (v : Fin m → ℚ) (j : Fin (n + m)) : ℚ :=
  ∑ i, if holder i = j then v i else 0

theorem spread_nonneg {holder : Fin m → Fin (n + m)} {v : Fin m → ℚ} (hv : ∀ i, 0 ≤ v i)
    (j : Fin (n + m)) : 0 ≤ spread holder v j := by
  refine Finset.sum_nonneg fun i _ => ?_
  split
  · exact hv i
  · exact le_rfl

theorem sum_mul_spread (f : Fin (n + m) → ℚ) (holder : Fin m → Fin (n + m)) (v : Fin m → ℚ) :
    ∑ j, f j * spread holder v j = ∑ i, f (holder i) * v i := by
  unfold spread
  simp only [Finset.mul_sum, mul_ite, mul_zero]
  -- Every row contributes in the one column that holds it.
  rw [Finset.sum_comm]
  exact Finset.sum_congr rfl fun i _ => by rw [Finset.sum_ite_eq]; simp

variable {holder : Fin m → Fin (n + m)}

theorem sum_unit_row (hu : ∀ i, t.IsUnit (holder i) i) (v : Fin m → ℚ) (k : Fin m) :
    ∑ i, t.cell k.succ (holder i).castSucc * v i = v k := by
  rw [Finset.sum_eq_single k]
  · rw [show t.cell k.succ (holder k).castSucc = 1 from (hu k).one, one_mul]
  · intro i _ hik
    rw [(hu i).zero k.succ fun he => hik (Fin.succ_injective m he).symm, zero_mul]
  · intro hk
    exact absurd (Finset.mem_univ k) hk

theorem sum_unit_objective (hu : ∀ i, t.IsUnit (holder i) i) (v : Fin m → ℚ) :
    ∑ i, t.cell 0 (holder i).castSucc * v i = 0 :=
  Finset.sum_eq_zero fun i _ => by rw [(hu i).zero 0 (Fin.succ_ne_zero i).symm, zero_mul]

/-- Right-hand sides on unit columns solve the tableau. -/
theorem solves_spread (hu : ∀ i, t.IsUnit (holder i) i) :
    t.Solves (spread holder t.level) := by
  intro k
  unfold residual
  rw [sum_mul_spread (fun j => t.cell k.succ j.castSucc), sum_unit_row hu]
  exact sub_self _

/-- Their objective is the one that the tableau has reached. -/
theorem residual_spread (hu : ∀ i, t.IsUnit (holder i) i) :
    t.residual 0 (spread holder t.level) = -t.worth := by
  unfold residual
  rw [sum_mul_spread (fun j => t.cell 0 j.castSucc), sum_unit_objective hu, zero_sub]
  rfl

/-! ## Certificates -/

/-- No nonnegative point beats the objective of a tableau without negative
    costs. -/
theorem neg_residual_le_worth (hc : ∀ j, 0 ≤ t.cost j) {w : Fin (n + m) → ℚ}
    (hw : ∀ j, 0 ≤ w j) : -t.residual 0 w ≤ t.worth := by
  have hsum : 0 ≤ ∑ j, t.cell 0 j.castSucc * w j :=
    Finset.sum_nonneg fun j _ => mul_nonneg (hc j) (hw j)
  unfold residual
  show _ ≤ t.cell 0 (Fin.last (n + m))
  linarith

/-- A negative row without negative entries holds at no nonnegative point. -/
theorem not_solves_of_stuck {i : Fin m} (hl : t.level i < 0) (hi : ∀ j, 0 ≤ t.coefficient i j)
    {w : Fin (n + m) → ℚ} (hw : ∀ j, 0 ≤ w j) : ¬ t.Solves w := by
  intro hs
  have hsum : 0 ≤ ∑ j, t.cell i.succ j.castSucc * w j :=
    Finset.sum_nonneg fun j _ => mul_nonneg (hi j) (hw j)
  have hrow : ∑ j, t.cell i.succ j.castSucc * w j - t.level i = 0 := hs i
  linarith

/-- The point in which a nonbasic column takes a value and the basic columns
    make up for it. -/
def ray (t : Tableau Exact n m) (c : Fin (n + m)) (s : ℚ) (j : Fin (n + m)) : ℚ :=
  spread t.basis.get (fun i => t.level i - t.coefficient i c * s) j +
    if j = c then s else 0

theorem sum_mul_ray (f : Fin (n + m) → ℚ) (s : ℚ) :
    ∑ j, f j * t.ray c s j =
      ∑ i : Fin m, f (t.basis.get i) * (t.level i - t.coefficient i c * s) + f c * s := by
  unfold ray
  simp only [mul_add, Finset.sum_add_distrib]
  rw [sum_mul_spread]
  simp only [mul_ite, mul_zero, Finset.sum_ite_eq', Finset.mem_univ, if_true]

theorem solves_ray (hb : t.Based) (s : ℚ) : t.Solves (t.ray c s) := by
  intro k
  unfold residual
  rw [sum_mul_ray (fun j => t.cell k.succ j.castSucc), sum_unit_row hb]
  show t.level k - t.coefficient k c * s + t.coefficient k c * s - t.level k = 0
  ring

theorem residual_ray (hb : t.Based) (s : ℚ) :
    t.residual 0 (t.ray c s) = t.cost c * s - t.worth := by
  unfold residual
  rw [sum_mul_ray (fun j => t.cell 0 j.castSucc), sum_unit_objective hb, zero_add]
  rfl

theorem ray_nonneg (hl : ∀ i, 0 ≤ t.level i) (hc : ∀ i, t.coefficient i c ≤ 0) {s : ℚ}
    (hs : 0 ≤ s) (j : Fin (n + m)) : 0 ≤ t.ray c s j := by
  refine add_nonneg (spread_nonneg (fun i => ?_) j) ?_
  · -- The column takes nothing away from any row.
    have hstep : t.coefficient i c * s ≤ 0 := mul_nonpos_of_nonpos_of_nonneg (hc i) hs
    linarith [hl i]
  · split
    · exact hs
    · exact le_rfl

end Tableau

end IntegerProgramming
