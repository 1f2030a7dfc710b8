import IntegerProgramming.Simplex.Tableau
import IntegerProgramming.Proofs.Number.Rational

/-! # Tableaux as systems of equations

    A tableau of rational numbers states one equation per row.  A point gives
    every column but the right-hand side a value; it solves the tableau if all
    constraint rows hold at it.  What the objective row lacks at a point is the
    objective of the point, with the opposite sign.

    A pivot at a nonzero entry replaces the equations by equivalent ones: it has
    the same solutions, and the objective of each of them stays the same
    (`pivot_equivalent`).  Nothing here depends on how pivots are chosen. -/

namespace IntegerProgramming

attribute [simp] Vector.get_eq_getElem

namespace Tableau

open Exact

variable {n m : Nat} {t : Tableau Exact n m}

/-! ## Cells -/

/-- The value of a cell, the objective row being row zero. -/
def cell (t : Tableau Exact n m) (i : Fin (m + 1)) (j : Fin (n + m + 1)) : ℚ :=
  ((t.cells.get i).get j).toRat

/-- The value of a constraint row in a column. -/
def coefficient (t : Tableau Exact n m) (i : Fin m) (j : Fin (n + m)) : ℚ :=
  t.cell i.succ j.castSucc

/-- The value of a constraint row's right-hand side. -/
def level (t : Tableau Exact n m) (i : Fin m) : ℚ := t.cell i.succ (Fin.last (n + m))

/-- The value of the objective row in a column. -/
def cost (t : Tableau Exact n m) (j : Fin (n + m)) : ℚ := (t.reducedCost j).toRat

/-- The value of the objective row's right-hand side. -/
def worth (t : Tableau Exact n m) : ℚ := t.objective.toRat

/-- All cells are rational numbers. -/
def IsRational (t : Tableau Exact n m) : Prop :=
  ∀ (i : Fin (m + 1)) (j : Fin (n + m + 1)), ((t.cells.get i).get j).IsRational

namespace IsRational

theorem cells_eq (h : t.IsRational) (i : Fin (m + 1)) (j : Fin (n + m + 1)) :
    (t.cells.get i).get j = rational (t.cell i j) := h i j

theorem entry_eq (h : t.IsRational) (i : Fin m) (j : Fin (n + m)) :
    t.entry i j = rational (t.coefficient i j) := h i.succ j.castSucc

theorem rhs_eq (h : t.IsRational) (i : Fin m) : t.rhs i = rational (t.level i) :=
  h i.succ (Fin.last (n + m))

theorem reducedCost_eq (h : t.IsRational) (j : Fin (n + m)) :
    t.reducedCost j = rational (t.cost j) := h 0 j.castSucc

theorem objective_eq (h : t.IsRational) : t.objective = rational t.worth :=
  h 0 (Fin.last (n + m))

end IsRational

/-! ## Pivots on cells -/

/-- Numbers closer to zero than the tolerance become zero. -/
def snapped (τ x : ℚ) : ℚ := if |x| < τ then 0 else x

@[simp] theorem snapped_zero_tolerance (x : ℚ) : snapped 0 x = x :=
  if_neg (not_lt.mpr (abs_nonneg x))

theorem snap_rational (τ x : ℚ) : snap (rational τ) (rational x) = rational (snapped τ x) := by
  unfold snap snapped
  by_cases hx : |x| < τ <;> simp [hx]

/-- What a pivot leaves in a cell. -/
def pivoted (τ : ℚ) (t : Tableau Exact n m) (r : Fin m) (c : Fin (n + m)) (i : Fin (m + 1))
    (j : Fin (n + m + 1)) : ℚ :=
  if i = r.succ then t.cell r.succ j / t.coefficient r c
  else if t.cell i c.castSucc = 0 then t.cell i j
  else snapped τ (t.cell i j - t.cell i c.castSucc * (t.cell r.succ j / t.coefficient r c))

variable {r : Fin m} {c : Fin (n + m)}

theorem eliminate_cells {p row : Vector Exact (n + m + 1)} {j : Fin (n + m + 1)} {f x y : ℚ}
    (hf : row.get c.castSucc = rational f) (hx : row.get j = rational x)
    (hy : p.get j = rational y) (τ : ℚ) :
    (eliminate (rational τ) p c row).get j =
      rational (if f = 0 then x else snapped τ (x - f * y)) := by
  have hf : row[c.castSucc] = rational f := hf
  -- A row with a zero in the column is left alone, not rounded.
  by_cases hz : f = 0
  · have hfactor : (row[c.castSucc] == 0) = true := by rw [hf, zero_eq, rational_beq]; simp [hz]
    simp only [eliminate, hfactor, if_true, if_pos hz, hx]
  · have hfactor : (row[c.castSucc] == 0) = false := by rw [hf, zero_eq, rational_beq]; simp [hz]
    simp only [eliminate, hfactor, Bool.false_eq_true, if_false, if_neg hz]
    have hzip : ∀ g : Exact → Exact → Exact,
        (Vector.zipWith g row p).get j = g (row.get j) (p.get j) := by
      intro g
      simp
    rw [hzip, hf, hx, hy, rational_mul, rational_sub, snap_rational]

theorem pivot_cells (h : t.IsRational) (ha : t.coefficient r c ≠ 0) (τ : ℚ) (i : Fin (m + 1))
    (j : Fin (n + m + 1)) :
    ((t.pivot (rational τ) r c).cells.get i).get j = rational (pivoted τ t r c i j) := by
  have hrow : (t.cells[r.succ].map (· / t.entry r c)).get j =
      rational (t.cell r.succ j / t.coefficient r c) := by
    have hmap : (t.cells[r.succ].map (· / t.entry r c)).get j =
        (t.cells.get r.succ).get j / t.entry r c := by
      simp
    rw [hmap, h.cells_eq, h.entry_eq, rational_div ha]
  have hcells : (t.pivot (rational τ) r c).cells.get i =
      if i = r.succ then t.cells[r.succ].map (· / t.entry r c)
      else eliminate (rational τ) (t.cells[r.succ].map (· / t.entry r c)) c t.cells[i] := by
    simp [pivot]
  unfold pivoted
  by_cases hi : i = r.succ
  · simp only [hcells, if_pos hi, hrow]
  · simp only [hcells, if_neg hi]
    exact eliminate_cells (h.cells_eq i c.castSucc) (h.cells_eq i j) hrow τ

theorem IsRational.pivot (h : t.IsRational) (ha : t.coefficient r c ≠ 0) (τ : ℚ) :
    (t.pivot (rational τ) r c).IsRational := fun i j => isRational_of_eq (pivot_cells h ha τ i j)

theorem cell_pivot (h : t.IsRational) (ha : t.coefficient r c ≠ 0) (τ : ℚ) (i : Fin (m + 1))
    (j : Fin (n + m + 1)) : (t.pivot (rational τ) r c).cell i j = pivoted τ t r c i j := by
  unfold cell
  rw [pivot_cells h ha τ i j, toRat_rational]

theorem cell_pivot_row (h : t.IsRational) (ha : t.coefficient r c ≠ 0) (j : Fin (n + m + 1)) :
    (t.pivot 0 r c).cell r.succ j = t.cell r.succ j / t.coefficient r c := by
  rw [zero_eq, cell_pivot h ha, pivoted, if_pos rfl]

/-- Without tolerance the rows that are left alone are those that nothing is
    subtracted from. -/
theorem cell_pivot_of_ne (h : t.IsRational) (ha : t.coefficient r c ≠ 0) {i : Fin (m + 1)}
    (hi : i ≠ r.succ) (j : Fin (n + m + 1)) :
    (t.pivot 0 r c).cell i j =
      t.cell i j - t.cell i c.castSucc * (t.cell r.succ j / t.coefficient r c) := by
  -- Leaving a row alone is the same as subtracting nothing from it.
  rw [zero_eq, cell_pivot h ha, pivoted, if_neg hi]
  by_cases hz : t.cell i c.castSucc = 0
  · rw [if_pos hz, hz, zero_mul, sub_zero]
  · rw [if_neg hz, snapped_zero_tolerance]

theorem level_pivot_row (h : t.IsRational) (ha : t.coefficient r c ≠ 0) :
    (t.pivot 0 r c).level r = t.level r / t.coefficient r c := cell_pivot_row h ha _

theorem level_pivot_of_ne (h : t.IsRational) (ha : t.coefficient r c ≠ 0) {i : Fin m}
    (hi : i ≠ r) : (t.pivot 0 r c).level i =
      t.level i - t.coefficient i c * (t.level r / t.coefficient r c) :=
  cell_pivot_of_ne h ha (fun he => hi (Fin.succ_injective m he)) _

/-! ## Equations -/

/-- What a row exceeds its right-hand side by at a point. -/
def residual (t : Tableau Exact n m) (i : Fin (m + 1)) (w : Fin (n + m) → ℚ) : ℚ :=
  ∑ j, t.cell i j.castSucc * w j - t.cell i (Fin.last (n + m))

/-- All constraint rows hold at a point. -/
def Solves (t : Tableau Exact n m) (w : Fin (n + m) → ℚ) : Prop :=
  ∀ i : Fin m, t.residual i.succ w = 0

theorem residual_pivot_row (h : t.IsRational) (ha : t.coefficient r c ≠ 0)
    (w : Fin (n + m) → ℚ) :
    (t.pivot 0 r c).residual r.succ w = t.residual r.succ w / t.coefficient r c := by
  unfold residual
  simp only [cell_pivot_row h ha]
  rw [sub_div, Finset.sum_div]
  congr 1
  exact Finset.sum_congr rfl fun j _ => div_mul_eq_mul_div _ _ _

theorem residual_pivot_of_ne (h : t.IsRational) (ha : t.coefficient r c ≠ 0) {i : Fin (m + 1)}
    (hi : i ≠ r.succ) (w : Fin (n + m) → ℚ) :
    (t.pivot 0 r c).residual i w =
      t.residual i w - t.cell i c.castSucc * (t.residual r.succ w / t.coefficient r c) := by
  unfold residual
  simp only [cell_pivot_of_ne h ha hi]
  have hsum : ∑ j : Fin (n + m), (t.cell i j.castSucc -
        t.cell i c.castSucc * (t.cell r.succ j.castSucc / t.coefficient r c)) * w j =
      ∑ j : Fin (n + m), t.cell i j.castSucc * w j -
        t.cell i c.castSucc / t.coefficient r c *
          ∑ j : Fin (n + m), t.cell r.succ j.castSucc * w j := by
    rw [Finset.mul_sum, ← Finset.sum_sub_distrib]
    exact Finset.sum_congr rfl fun j _ => by ring
  rw [hsum]
  ring

/-! ## Equivalent tableaux -/

/-- Two tableaux have the same solutions, and the objective rows agree on all
    of them. -/
structure Equivalent (t u : Tableau Exact n m) : Prop where
  solves : ∀ w, t.Solves w ↔ u.Solves w
  residual : ∀ w, t.Solves w → t.residual 0 w = u.residual 0 w

theorem Equivalent.refl (t : Tableau Exact n m) : Equivalent t t :=
  ⟨fun _ => Iff.rfl, fun _ _ => rfl⟩

theorem Equivalent.trans {t u v : Tableau Exact n m} (h : Equivalent t u) (h' : Equivalent u v) :
    Equivalent t v where
  solves w := (h.solves w).trans (h'.solves w)
  residual w hw := (h.residual w hw).trans (h'.residual w ((h.solves w).mp hw))

theorem pivot_equivalent (h : t.IsRational) (ha : t.coefficient r c ≠ 0) :
    Equivalent (t.pivot 0 r c) t := by
  have hrow := residual_pivot_row h ha
  -- Both systems force the pivot row, and with it the other rows agree.
  have hother : ∀ w, t.residual r.succ w = 0 → ∀ i, i ≠ r.succ →
      (t.pivot 0 r c).residual i w = t.residual i w := by
    intro w hw i hi
    rw [residual_pivot_of_ne h ha hi, hw, zero_div, mul_zero, sub_zero]
  have hforce : ∀ w, (t.pivot 0 r c).Solves w → t.residual r.succ w = 0 := by
    intro w hw
    have hr := hw r
    rw [hrow, div_eq_zero_iff] at hr
    exact hr.resolve_right ha
  constructor
  · -- The two systems have the same solutions, row by row.
    intro w
    constructor
    · intro hw i
      by_cases hi : i = r
      · subst hi
        exact hforce w hw
      · rw [← hother w (hforce w hw) i.succ (fun he => hi (Fin.succ_injective m he))]
        exact hw i
    · intro hw i
      by_cases hi : i = r
      · subst hi
        rw [hrow, hw i, zero_div]
      · rw [hother w (hw r) i.succ (fun he => hi (Fin.succ_injective m he))]
        exact hw i
  · -- The objective row is one of the other rows.
    intro w hw
    exact hother w (hforce w hw) 0 (Fin.succ_ne_zero r).symm

end Tableau

end IntegerProgramming
