import IntegerProgramming.Proofs.Simplex.Optimality

/-! # The basis of a run

    At every tolerance up to one the basic columns of a run are unit columns,
    exactly and not only up to the tolerance: one in their row and zero in all
    other rows, the objective row included.  Rounding cannot touch them.  A
    basic column of another row has a zero in the pivot row, so a pivot
    subtracts nothing from it, and of the numbers zero and one the rounding
    changes neither.

    Both rules let a column enter that has a negative number in it, beyond the
    tolerance: a reduced cost for an improvement, an entry for a repair.  A unit
    column has none, so a basic column never enters, and the basis lists as many
    columns as there are rows. -/

namespace IntegerProgramming

open Exact

/-! ## Bases -/

namespace Tableau

/-- The basic columns are distinct, and each is one in its own row and zero in
    all others. -/
structure Canonical {α : Type} [Scalar α] {n m : Nat} (t : Tableau α n m) : Prop where
  distinct : ∀ i k, t.basis.get i = t.basis.get k → i = k
  one : ∀ i, t.entry i (t.basis.get i) = 1
  zero : ∀ i k, k ≠ i → t.entry k (t.basis.get i) = 0
  cost : ∀ i, t.reducedCost (t.basis.get i) = 0

variable {n m : Nat} {t : Tableau Exact n m}

/-- A unit column has no negative entries. -/
theorem IsUnit.coefficient_nonneg {j : Fin (n + m)} {i : Fin m} (hu : t.IsUnit j i) (k : Fin m) :
    0 ≤ t.coefficient k j := by
  by_cases hk : k = i
  · rw [hk, hu.one]
    exact zero_le_one
  · have hcell : t.coefficient k j = 0 := hu.zero k.succ fun he => hk (Fin.succ_injective m he)
    rw [hcell]

theorem IsUnit.cost_eq {j : Fin (n + m)} {i : Fin m} (hu : t.IsUnit j i) : t.cost j = 0 :=
  hu.zero 0 (Fin.succ_ne_zero i).symm

theorem Based.canonical (hb : t.Based) (h : t.IsRational) : t.Canonical where
  distinct i k hik := (hb i).row_unique (hik ▸ hb k)
  one i := by
    rw [h.entry_eq, (hb i).one]
    rfl
  zero i k hk := by
    have hcell : t.coefficient k (t.basis.get i) = 0 :=
      (hb i).zero k.succ fun he => hk (Fin.succ_injective m he)
    rw [h.entry_eq, hcell]
    rfl
  cost i := by
    rw [h.reducedCost_eq, (hb i).cost_eq]
    rfl

end Tableau

/-! ## Runs -/

namespace Simplex

variable {n m : Nat} {form : StandardForm Exact n m} {s : Simplex Exact} {τ : ℚ}

/-- Neither rule lets a basic column enter. -/
theorem Phase.Asks.not_basic {t : Tableau Exact n m} (ht : t.IsRational) (hb : t.Based)
    (hτ : 0 ≤ τ) {phase : Phase} {place : Tableau.Place Exact n m}
    (h : phase.Asks (rational τ) t place) (i : Fin m) : t.basis.get i ≠ place.column := by
  intro hbasic
  have hunit := hb i
  rw [hbasic] at hunit
  cases phase with
  | repairing =>
    obtain ⟨r, hneg⟩ := Tableau.repair_column_neg ht h
    have hnonneg := hunit.coefficient_nonneg r
    linarith
  | improving =>
    have hrule := Tableau.improvement_describes ht hτ
    have hpivot : t.improvement (rational τ) = .pivot place := h
    rw [hpivot] at hrule
    have hneg := hrule.1
    rw [hunit.cost_eq] at hneg
    linarith

/-- Up to the tolerance one, every tableau of a run has unit columns in its
    basis. -/
theorem based_of_passes (h0 : 0 ≤ τ) (h1 : τ ≤ 1) (hs : s.tolerance = rational τ)
    (hf : form.IsRational) {phase : Phase} {state : State Exact n m}
    (h : Passes s form phase state) : state.tableau.IsRational ∧ state.tableau.Based := by
  -- By induction on the run: a pivot is made at a nonzero entry of a rational tableau.
  induction h with
  | start => exact ⟨Tableau.initial_isRational hf, Tableau.initial_based⟩
  | @pivot phase state place hpasses hasks ih =>
    obtain ⟨hrational, hbased⟩ := ih
    rw [hs] at hasks
    have hne := hasks.coefficient_ne hrational h0
    rw [advance_tableau, hs]
    exact ⟨hrational.pivot hne τ, hbased.pivot hrational hne h1⟩
  | repaired _ _ ih => exact ih

/-- At every tolerance between zero and one, in both phases and whatever is
    rounded: the basic columns are distinct unit columns, every pivot is made at
    an entry that is not zero, and the column that enters is not in the basis. -/
theorem basis_canonical (h0 : 0 ≤ τ) (h1 : τ ≤ 1) (hs : s.tolerance = rational τ)
    {m : Model Exact} (hm : m.RationalForms) {p : Prepared Exact m.vars.length}
    (hp : m.standardForm s.tolerance = .ok p) {phase : Phase}
    {state : State Exact m.vars.length p.height} (h : Passes s p.form phase state) :
    state.tableau.Canonical ∧ ∀ place, phase.Asks s.tolerance state.tableau place →
      state.tableau.entry place.row place.column ≠ 0 ∧
        ∀ i, state.tableau.basis.get i ≠ place.column := by
  obtain ⟨hadmitted, rfl⟩ := Model.standardForm_ok hp
  have hf := hm.prepared_isRational hadmitted
  obtain ⟨hrational, hbased⟩ := based_of_passes h0 h1 hs hf h
  refine ⟨hbased.canonical hrational, fun place hasks => ?_⟩
  rw [hs] at hasks
  refine ⟨?_, hasks.not_basic hrational hbased h0⟩
  intro hzero
  have hentry := hrational.entry_eq place.row place.column
  rw [hzero] at hentry
  exact hasks.coefficient_ne hrational h0 (rational.inj hentry).symm

/-- The engine at the tolerance one half. -/
def coarse : Simplex Exact where
  tolerance := rational (1 / 2)

/-- Two cloths on two looms, which take nearly the same time for the second. -/
def weaving : Model Exact where
  sense := .maximize
  vars := [⟨"linen", .continuous, none, none⟩, ⟨"wool", .continuous, none, none⟩]
  objective := [rational 2, rational 1]
  constraints := [⟨"first", [rational 1, rational 1], .atMost, rational 4⟩,
    ⟨"second", [rational 1, rational (5 / 4)], .atMost, rational 8⟩]

/-- The only pivot rounds an entry of the second row from a quarter to zero;
    the basic columns are none the less exact. -/
theorem weaving_canonical :
    (({ tolerance := 0 } : Simplex Exact).run weaving.prepared.form).last.tableau.entry
        ⟨1, by decide⟩ ⟨1, by decide⟩ = rational (1 / 4) ∧
      (coarse.run weaving.prepared.form).last.tableau.entry ⟨1, by decide⟩ ⟨1, by decide⟩ = 0 ∧
        (coarse.run weaving.prepared.form).last.tableau.Canonical := by
  have hform : weaving.standardForm coarse.tolerance = .ok weaving.prepared :=
    Model.standardForm_eq_prepared (by decide +kernel)
  have hending : (coarse.run weaving.prepared.form).ending = .optimal := by decide +kernel
  have hcanonical := basis_canonical (by norm_num) (by norm_num) rfl (by decide +kernel) hform
    (run_optimal_passes hending).1
  exact ⟨by decide +kernel, by decide +kernel, hcanonical.1⟩

end Simplex

end IntegerProgramming
