import IntegerProgramming.Proofs.Simplex.Phases
import IntegerProgramming.Proofs.Simplex.PivotRules
import IntegerProgramming.Proofs.Simplex.LinearProgram

/-! # Exact runs of the simplex method

    As long as a run rounds nothing, every tableau is reached from the first
    one by pivots at nonzero entries (`reached_of_passes`).  If it is thorough,
    its improvement pivots moreover keep the right-hand sides nonnegative
    (`level_nonneg_of_passes`).

    A run without tolerance is both.  The way in which it ends then says which
    signs its last tableau shows (`run_sound`), whatever the budget and whether
    or not tableaux are recorded. -/

namespace IntegerProgramming

open Exact

namespace Simplex

variable {n m : Nat} {form : StandardForm Exact n m}

/-! ## Endings -/

/-- The signs that the last tableau of a run shows. -/
def Ending.Describes (t : Tableau Exact n m) : Ending Exact → Prop
  | .optimal => (∀ i, 0 ≤ t.level i) ∧ ∀ j, 0 ≤ t.cost j
  | .unbounded => (∀ i, 0 ≤ t.level i) ∧ ∃ c, t.cost c < 0 ∧ ∀ i, t.coefficient i c ≤ 0
  | .infeasible _ => ∃ r, t.level r < 0 ∧ ∀ j, 0 ≤ t.coefficient r j
  | .exhausted => True

/-- The last tableau of a run is reached by pivots and shows the signs that
    the ending calls for. -/
structure Run.Sound (form : StandardForm Exact n m) (r : Run Exact n m) : Prop where
  reached : Tableau.Reached form r.last.tableau
  ending : r.ending.Describes r.last.tableau

/-! ## One pivot -/

theorem advance_tableau (s : Simplex Exact) (state : State Exact n m)
    (p : Tableau.Place Exact n m) :
    (advance s form state p).tableau = state.tableau.pivot s.tolerance p.row p.column := rfl

/-- The least ratio is the longest step that keeps the right-hand sides
    nonnegative. -/
theorem level_pivot_nonneg {t : Tableau Exact n m} (h : t.IsRational) {r : Fin m}
    {c : Fin (n + m)} (hl : ∀ i, 0 ≤ t.level i) (ha : 0 < t.coefficient r c)
    (hr : ∀ i, 0 < t.coefficient i c →
      t.level r / t.coefficient r c ≤ t.level i / t.coefficient i c) (i : Fin m) :
    0 ≤ (t.pivot 0 r c).level i := by
  have hratio : 0 ≤ t.level r / t.coefficient r c := div_nonneg (hl r) ha.le
  by_cases hi : i = r
  · rw [hi, Tableau.level_pivot_row h ha.ne']
    exact hratio
  · rw [Tableau.level_pivot_of_ne h ha.ne' hi]
    -- Only a row with a positive entry loses anything.
    rcases le_or_gt (t.coefficient i c) 0 with hneg | hpos
    · have := mul_nonpos_of_nonpos_of_nonneg hneg hratio
      linarith [hl i]
    · have hbound := mul_le_mul_of_nonneg_left (hr i hpos) hpos.le
      rw [mul_div_cancel₀ _ hpos.ne'] at hbound
      linarith

/-! ## Runs that round nothing -/

variable {s : Simplex Exact} {τ : ℚ}

/-- The pivots of the run are the same without tolerance. -/
def Unrounded (s : Simplex Exact) (form : StandardForm Exact n m) : Prop :=
  ∀ phase state place, Passes s form phase state → phase.Asks s.tolerance state.tableau place →
    state.tableau.pivot s.tolerance place.row place.column =
      state.tableau.pivot 0 place.row place.column

/-- The run leaves no right-hand side below zero: none is when the repairs are
    done, and every improvement is made at the least of all ratios. -/
structure Thorough (s : Simplex Exact) (form : StandardForm Exact n m) : Prop where
  repaired : ∀ state, Passes s form .repairing state →
    state.tableau.repair s.tolerance = .done → ∀ i, 0 ≤ state.tableau.level i
  least : ∀ state place, Passes s form .improving state →
    state.tableau.improvement s.tolerance = .pivot place →
      ∀ i, 0 < state.tableau.coefficient i place.column →
        state.tableau.level place.row / state.tableau.coefficient place.row place.column ≤
          state.tableau.level i / state.tableau.coefficient i place.column

/-- Both rules ask for pivots at entries away from zero; the improvement rule
    at positive ones. -/
theorem Phase.Asks.coefficient_ne {t : Tableau Exact n m} (ht : t.IsRational) (hτ : 0 ≤ τ)
    {phase : Phase} {place : Tableau.Place Exact n m}
    (h : phase.Asks (rational τ) t place) : t.coefficient place.row place.column ≠ 0 := by
  cases phase with
  | repairing =>
    have hrule := Tableau.repair_describes ht τ
    have hpivot : t.repair (rational τ) = .pivot place := h
    rw [hpivot] at hrule
    rcases hrule with hneg | hpos
    · have hlt : t.coefficient place.row place.column < 0 := by linarith
      exact hlt.ne
    · exact (hτ.trans_lt hpos).ne'
  | improving =>
    have hrule := Tableau.improvement_describes ht hτ
    have hpivot : t.improvement (rational τ) = .pivot place := h
    rw [hpivot] at hrule
    exact (hτ.trans_lt hrule.2.1).ne'

/-- As long as nothing is rounded, the tableaux of a run state the equations of
    the linear program. -/
theorem reached_of_passes (hτ : 0 ≤ τ) (hs : s.tolerance = rational τ) (hf : form.IsRational)
    (hu : Unrounded s form) {phase : Phase} {state : State Exact n m}
    (h : Passes s form phase state) : Tableau.Reached form state.tableau := by
  induction h with
  | start => exact Tableau.reached_initial hf
  | @pivot phase state place hpasses hasks ih =>
    have hsame := hu phase state place hpasses hasks
    rw [hs] at hasks
    rw [advance_tableau, hsame]
    exact ih.pivot (hasks.coefficient_ne ih.rational hτ)
  | repaired _ _ ih => exact ih

/-- A thorough run has no negative right-hand sides while it improves. -/
theorem level_nonneg_of_passes (hτ : 0 ≤ τ) (hs : s.tolerance = rational τ)
    (hf : form.IsRational) (hu : Unrounded s form) (ht : Thorough s form) {phase : Phase}
    {state : State Exact n m} (h : Passes s form phase state) :
    phase = .improving → ∀ i, 0 ≤ state.tableau.level i := by
  induction h with
  | start =>
    intro hphase
    cases hphase
  | @pivot phase state place hpasses hasks ih =>
    intro hphase
    subst hphase
    have hreached := reached_of_passes hτ hs hf hu hpasses
    have hpivot : state.tableau.improvement (rational τ) = .pivot place := hs ▸ hasks
    have hrule := Tableau.improvement_describes hreached.rational hτ
    rw [hpivot] at hrule
    rw [advance_tableau, hu .improving state place hpasses hasks]
    exact level_pivot_nonneg hreached.rational (ih rfl) (hτ.trans_lt hrule.2.1)
      (ht.least state place hpasses hasks)
  | @repaired state hpasses hdone ih =>
    intro _
    exact ht.repaired state hpasses hdone

/-! ## Runs without tolerance -/

/-- Without tolerance nothing is rounded. -/
theorem unrounded_of_exact (hs : s.tolerance = 0) : Unrounded s form := by
  intro phase state place _ _
  rw [hs]

/-- Without tolerance the rules leave nothing below zero and find the least
    ratio. -/
theorem thorough_of_exact (hs : s.tolerance = 0) (hf : form.IsRational) : Thorough s form where
  repaired state hpasses hdone i := by
    have hreached := reached_of_passes le_rfl hs hf (unrounded_of_exact hs) hpasses
    have hrule := Tableau.repair_describes hreached.rational 0
    rw [hs] at hdone
    rw [← zero_eq, hdone] at hrule
    have hlevel := hrule i
    rwa [neg_zero] at hlevel
  least state place hpasses hpivot i hi := by
    have hreached := reached_of_passes le_rfl hs hf (unrounded_of_exact hs) hpasses
    have hrule := Tableau.improvement_describes hreached.rational le_rfl
    rw [hs] at hpivot
    rw [← zero_eq, hpivot] at hrule
    have hleast := hrule.2.2 i hi
    rwa [add_zero] at hleast

/-- Without tolerance the reason for the ending is a matter of signs. -/
theorem Ending.Explains.describes {t : Tableau Exact n m} (ht : t.IsRational) {phase : Phase}
    (hl : phase = .improving → ∀ i, 0 ≤ t.level i) {ending : Ending Exact}
    (h : ending.Explains 0 t phase) : ending.Describes t := by
  cases phase with
  | improving =>
    have hlevel := hl rfl
    have hrule := Tableau.improvement_describes ht (le_refl (0 : ℚ))
    cases ending with
    | optimal =>
      have hi : t.improvement 0 = .optimal := h
      rw [← zero_eq, hi] at hrule
      exact ⟨hlevel, fun j => by simpa using hrule j⟩
    | unbounded =>
      have hi : t.improvement 0 = .unbounded := h
      rw [← zero_eq, hi] at hrule
      obtain ⟨c, hc, hcolumn⟩ := hrule
      exact ⟨hlevel, c, by simpa using hc, hcolumn⟩
    | infeasible reason => exact h.elim
    | exhausted => exact trivial
  | repairing =>
    have hrule := Tableau.repair_describes ht 0
    cases ending with
    | optimal => exact h.elim
    | unbounded => exact h.elim
    | infeasible reason =>
      obtain ⟨r, hr⟩ : ∃ row, t.repair 0 = .stuck row := h
      rw [← zero_eq, hr] at hrule
      obtain ⟨hlevel, hrow⟩ := hrule
      exact ⟨r, by simpa using hlevel, fun j => by simpa using hrow j⟩
    | exhausted => exact trivial

theorem run_sound (hs : s.tolerance = 0) (hf : form.IsRational) : (s.run form).Sound form := by
  obtain ⟨phase, hpasses, hexplains⟩ := run_passes s form
  have hu : Unrounded s form := unrounded_of_exact hs
  have hreached := reached_of_passes le_rfl hs hf hu hpasses
  have hlevel := level_nonneg_of_passes le_rfl hs hf hu (thorough_of_exact hs hf) hpasses
  rw [hs] at hexplains
  exact ⟨hreached, hexplains.describes hreached.rational hlevel⟩

end Simplex

end IntegerProgramming
