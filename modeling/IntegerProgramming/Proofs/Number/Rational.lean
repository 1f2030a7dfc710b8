import IntegerProgramming.Number.Exact
import Mathlib

/-! # Exact arithmetic on rational numbers

    On rational numbers the exact scalars compute as the field of rational
    numbers does.  The lemmas here push `rational` outwards through every
    operation of a scalar, so that a statement about an engine becomes one
    about ℚ.

    A list of exact numbers is read through its coordinates, which are zero
    beyond its end.  Inner products are then sums over any range that is long
    enough (`dot_eq`). -/

namespace IntegerProgramming

namespace Exact

/-! ## Operations -/

@[simp] theorem zero_eq : (0 : Exact) = rational 0 := rfl

@[simp] theorem one_eq : (1 : Exact) = rational 1 := rfl

@[simp] theorem infinity_eq : (Scalar.infinity : Exact) = plusInfinity := rfl

@[simp] theorem rational_add (p q : ℚ) : rational p + rational q = rational (p + q) := rfl

@[simp] theorem rational_sub (p q : ℚ) : rational p - rational q = rational (p - q) := by
  show rational (p + -q) = rational (p - q)
  rw [sub_eq_add_neg]

@[simp] theorem rational_mul (p q : ℚ) : rational p * rational q = rational (p * q) := rfl

@[simp] theorem rational_neg (q : ℚ) : -rational q = rational (-q) := rfl

@[simp] theorem neg_plusInfinity : -plusInfinity = minusInfinity := rfl

@[simp] theorem plusInfinity_sub_rational (q : ℚ) : plusInfinity - rational q = plusInfinity := rfl

@[simp] theorem add_zero_eq (x : Exact) : x + 0 = x := by
  cases x with
  | rational q => rw [zero_eq, rational_add, add_zero]
  | undefined => rfl
  | minusInfinity => rfl
  | plusInfinity => rfl

@[simp] theorem sub_zero_eq (x : Exact) : x - 0 = x := add_zero_eq x

theorem rational_div {p q : ℚ} (hq : q ≠ 0) : rational p / rational q = rational (p / q) := by
  show (if q = 0 then infinityOf p else rational (p / q)) = rational (p / q)
  rw [if_neg hq]

@[simp] theorem floor_rational (q : ℚ) : Scalar.floor (rational q) = rational ⌊q⌋ := rfl

@[simp] theorem ceil_rational (q : ℚ) : Scalar.ceil (rational q) = rational ⌈q⌉ := by
  show rational (Rat.ceil q) = rational ⌈q⌉
  rw [Rat.ceil_eq_neg_floor_neg, Int.ceil]
  rfl

/-! ## Comparisons -/

@[simp] theorem rational_lt (p q : ℚ) : rational p < rational q ↔ p < q := by
  show decide (p < q) = true ↔ p < q
  exact decide_eq_true_iff

@[simp] theorem rational_le (p q : ℚ) : rational p ≤ rational q ↔ p ≤ q := by
  show decide (p ≤ q) = true ↔ p ≤ q
  exact decide_eq_true_iff

@[simp] theorem rational_beq (p q : ℚ) : (rational p == rational q) = decide (p = q) := rfl

@[simp] theorem rational_lt_plusInfinity (q : ℚ) : rational q < plusInfinity := rfl

@[simp] theorem minusInfinity_lt_rational (q : ℚ) : minusInfinity < rational q := rfl

@[simp] theorem rational_le_plusInfinity (q : ℚ) : rational q ≤ plusInfinity := rfl

@[simp] theorem minusInfinity_le_rational (q : ℚ) : minusInfinity ≤ rational q := rfl

@[simp] theorem not_plusInfinity_lt (x : Exact) : ¬ plusInfinity < x := by
  cases x <;> exact Bool.false_ne_true

@[simp] theorem not_lt_minusInfinity (x : Exact) : ¬ x < minusInfinity := by
  cases x <;> exact Bool.false_ne_true

@[simp] theorem abs_rational (q : ℚ) : Scalar.abs (rational q) = rational |q| := by
  unfold Scalar.abs
  by_cases hq : q < 0
  · simp [hq, abs_of_neg hq]
  · simp [hq, abs_of_nonneg (not_lt.mp hq)]

@[simp] theorem larger_rational (p q : ℚ) :
    Scalar.larger (rational p) (rational q) = rational (max p q) := by
  unfold Scalar.larger
  by_cases h : q < p
  · simp [h, max_eq_left h.le]
  · simp [h, max_eq_right (not_lt.mp h)]

@[simp] theorem smaller_rational (p q : ℚ) :
    Scalar.smaller (rational p) (rational q) = rational (min p q) := by
  unfold Scalar.smaller
  by_cases h : p < q
  · simp [h, min_eq_left h.le]
  · simp [h, min_eq_right (not_lt.mp h)]

@[simp] theorem larger_minusInfinity (q : ℚ) :
    Scalar.larger minusInfinity (rational q) = rational q := by
  simp [Scalar.larger]

@[simp] theorem smaller_plusInfinity (q : ℚ) :
    Scalar.smaller plusInfinity (rational q) = rational q := by
  simp [Scalar.smaller]

/-- The larger of two numbers is one of them. -/
theorem larger_ne_undefined {x y : Exact} (hx : x ≠ undefined) (hy : y ≠ undefined) :
    Scalar.larger x y ≠ undefined := by
  unfold Scalar.larger
  split
  · exact hx
  · exact hy

theorem smaller_ne_undefined {x y : Exact} (hx : x ≠ undefined) (hy : y ≠ undefined) :
    Scalar.smaller x y ≠ undefined := by
  unfold Scalar.smaller
  split
  · exact hx
  · exact hy

theorem isFinite_rational (q : ℚ) : Scalar.IsFinite (rational q) := ⟨rfl, rfl⟩

/-! ## Rational values -/

/-- The value of a rational number; zero for the three others. -/
def toRat : Exact → ℚ
  | rational q => q
  | _ => 0

/-- One of the rational numbers. -/
def IsRational (x : Exact) : Prop := x = rational x.toRat

instance (x : Exact) : Decidable x.IsRational := inferInstanceAs (Decidable (_ = _))

@[simp] theorem toRat_rational (q : ℚ) : (rational q).toRat = q := rfl

@[simp] theorem isRational_rational (q : ℚ) : (rational q).IsRational := rfl

@[simp] theorem toRat_neg (x : Exact) : (-x).toRat = -x.toRat := by
  cases x with
  | rational q => rfl
  | undefined => exact neg_zero.symm
  | minusInfinity => exact neg_zero.symm
  | plusInfinity => exact neg_zero.symm

theorem isRational_of_eq {x : Exact} {q : ℚ} (h : x = rational q) : x.IsRational := by
  rw [h]; rfl

theorem isRational_iff_isFinite (x : Exact) : x.IsRational ↔ Scalar.IsFinite x := by
  constructor
  · intro h
    rw [h]
    exact isFinite_rational _
  · rintro ⟨hlow, hhigh⟩
    cases x with
    | rational q => rfl
    | undefined => exact absurd hhigh Bool.false_ne_true
    | minusInfinity => exact absurd hlow Bool.false_ne_true
    | plusInfinity => exact absurd hhigh Bool.false_ne_true

/-- Bounds with a rational number between them are not crossed. -/
theorem not_lt_of_between {l u : Exact} {q : ℚ} (hl : l ≤ rational q) (hu : rational q ≤ u) :
    ¬ u < l := by
  cases l with
  | undefined => exact absurd hl Bool.false_ne_true
  | plusInfinity => exact absurd hl Bool.false_ne_true
  | minusInfinity => cases u <;> exact Bool.false_ne_true
  | rational p =>
    cases u with
    | undefined => exact absurd hu Bool.false_ne_true
    | minusInfinity => exact absurd hu Bool.false_ne_true
    | plusInfinity => exact not_plusInfinity_lt _
    | rational r =>
      rw [rational_lt, not_lt]
      exact ((rational_le p q).mp hl).trans ((rational_le q r).mp hu)

/-! ## Lists of rational numbers -/

/-- All numbers of the list are rational. -/
def AllRational (xs : List Exact) : Prop := ∀ x ∈ xs, x.IsRational

instance (xs : List Exact) : Decidable (AllRational xs) :=
  inferInstanceAs (Decidable (∀ _ ∈ xs, _))

/-- The rational value at a position, zero beyond the end of the list. -/
def coordinate (xs : List Exact) (j : Nat) : ℚ := (xs.getD j 0).toRat

theorem allRational_map_rational (x : List ℚ) : AllRational (x.map rational) := by
  intro a ha
  obtain ⟨q, -, rfl⟩ := List.mem_map.mp ha
  rfl

/-- A list of rational numbers is the image of its rational values. -/
theorem AllRational.eq_map {xs : List Exact} (h : AllRational xs) :
    xs = (xs.map toRat).map rational := by
  rw [List.map_map]
  refine (List.map_id xs).symm.trans (List.map_congr_left fun x hx => ?_)
  exact h x hx

@[simp] theorem coordinate_map_rational (x : List ℚ) (j : Nat) :
    coordinate (x.map rational) j = x.getD j 0 := by
  unfold coordinate
  by_cases hj : j < x.length
  · simp [hj]
  · simp [Nat.not_lt.mp hj]

theorem AllRational.getD_eq {xs : List Exact} (h : AllRational xs) (j : Nat) :
    xs.getD j 0 = rational (coordinate xs j) := by
  -- Beyond the end of the list both sides are zero.
  by_cases hj : j < xs.length
  · have hx : (xs.getD j 0).IsRational := by
      rw [List.getD_eq_getElem _ _ hj]
      exact h _ (List.getElem_mem hj)
    exact hx
  · simp [coordinate, Nat.not_lt.mp hj]

theorem getD_map_rational (x : List ℚ) (j : Nat) :
    (x.map rational).getD j 0 = rational (x.getD j 0) := by
  rw [(allRational_map_rational x).getD_eq, coordinate_map_rational]

theorem coordinate_eq_getD (xs : List Exact) (j : Nat) :
    coordinate xs j = (xs.map toRat).getD j 0 := by
  unfold coordinate
  by_cases hj : j < xs.length
  · simp [hj]
  · simp [Nat.not_lt.mp hj]

theorem coordinate_of_length_le {xs : List Exact} {j : Nat} (h : xs.length ≤ j) :
    coordinate xs j = 0 := by
  simp [coordinate, h]

theorem coordinate_map_neg (xs : List Exact) (j : Nat) :
    coordinate (xs.map (- ·)) j = -coordinate xs j := by
  unfold coordinate
  by_cases hj : j < xs.length
  · simp [hj]
  · simp [Nat.not_lt.mp hj]

/-! ## Sums -/

theorem foldl_add_rational (x : List ℚ) (start : ℚ) :
    (x.map rational).foldl (· + ·) (rational start) = rational (start + x.sum) := by
  induction x generalizing start with
  | nil => simp
  | cons q x ih =>
    simp only [List.map_cons, List.foldl_cons, List.sum_cons, rational_add, ih]
    rw [add_assoc]

theorem sum_map_rational (x : List ℚ) : Scalar.sum (x.map rational) = rational x.sum := by
  -- The sum starts from minus zero, which is zero here.
  have h := foldl_add_rational x (-0)
  simpa [Scalar.sum] using h

theorem sum_zipWith_mul (p q : List ℚ) {n : Nat} (hn : p.length ≤ n) :
    (List.zipWith (· * ·) p q).sum = ∑ j ∈ Finset.range n, p.getD j 0 * q.getD j 0 := by
  induction p generalizing q n with
  | nil => simp
  | cons a p ih =>
    -- The head takes position zero; all others move up by one.
    obtain ⟨k, rfl⟩ : ∃ k, n = k + 1 := ⟨n - 1, by simp at hn; omega⟩
    cases q with
    | nil => simp
    | cons b q =>
      have hk : p.length ≤ k := by simpa using hn
      simp [ih q hk, Finset.sum_range_succ', add_comm]

/-- An inner product of rational lists is the sum of the products of their
    coordinates, over any range that the first list fits in. -/
theorem dot_eq {a x : List Exact} (ha : AllRational a) (hx : AllRational x) {n : Nat}
    (hn : a.length ≤ n) :
    Scalar.dot a x = rational (∑ j ∈ Finset.range n, coordinate a j * coordinate x j) := by
  have hlist : List.zipWith (· * ·) a x =
      (List.zipWith (· * ·) (a.map toRat) (x.map toRat)).map rational := by
    conv_lhs => rw [ha.eq_map, hx.eq_map]
    simp [List.zipWith_map, List.map_zipWith]
  rw [Scalar.dot, hlist, sum_map_rational, sum_zipWith_mul _ _ (by simpa using hn)]
  simp only [coordinate_eq_getD]

/-- The linear form with the given coefficients, at a rational point. -/
def linear (a : List Exact) (x : List ℚ) : ℚ :=
  ∑ j ∈ Finset.range a.length, coordinate a j * x.getD j 0

theorem dot_map_rational {a : List Exact} (ha : AllRational a) (x : List ℚ) :
    Scalar.dot a (x.map rational) = rational (linear a x) := by
  rw [dot_eq ha (allRational_map_rational x) le_rfl]
  simp only [coordinate_map_rational, linear]

theorem coordinate_unitRow {n j : Nat} (hj : j < n) (i : Nat) :
    coordinate (Scalar.unitRow n j) i = if i = j then 1 else 0 := by
  unfold coordinate Scalar.unitRow
  by_cases hij : i = j
  · simp [hij, hj]
  · by_cases hi : i < n
    · simp [hij, hi, Ne.symm hij]
    · simp [hij, Nat.not_lt.mp hi]

/-- A unit row reads one value. -/
theorem sum_unitRow {n : Nat} (j : Fin n) (y : Fin n → ℚ) :
    ∑ i : Fin n, coordinate (Scalar.unitRow n j) i * y i = y j := by
  simp [coordinate_unitRow j.isLt, Fin.val_inj]

theorem allRational_unitRow (n j : Nat) : AllRational (Scalar.unitRow n j) := by
  intro a ha
  rcases List.mem_or_eq_of_mem_set ha with hzero | hone
  · rw [List.eq_of_mem_replicate hzero]; rfl
  · rw [hone]; rfl

theorem linear_eq_sum (a : List Exact) (x : List ℚ) {n : Nat} (hn : a.length = n) :
    linear a x = ∑ j : Fin n, coordinate a j * x.getD j 0 := by
  subst hn
  exact Finset.sum_range fun j => coordinate a j * x.getD j 0

theorem linear_unitRow {n j : Nat} (hj : j < n) (x : List ℚ) :
    linear (Scalar.unitRow n j) x = x.getD j 0 := by
  rw [linear_eq_sum _ _ (n := n) (by simp [Scalar.unitRow])]
  exact sum_unitRow ⟨j, hj⟩ fun i => x.getD i 0

end Exact

end IntegerProgramming
