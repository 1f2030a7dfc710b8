import IntegerProgramming.Simplex.Solve

/-! # The phases of a run

    A run of the simplex method repairs first and improves afterwards.  The
    states that it passes through are those that the rule of the phase leads to
    (`Passes`), and it ends in one of them because that rule has no pivot to
    offer or because the budget is spent (`run_passes`).

    Nothing here depends on the numbers, on the tolerance or on the budget. -/

namespace IntegerProgramming

namespace Simplex

variable {α : Type} [Scalar α] {n m : Nat} {s : Simplex α} {form : StandardForm α n m}

inductive Phase where
  /-- Negative right-hand sides are brought back. -/
  | repairing
  /-- The objective is raised. -/
  | improving
  deriving DecidableEq

/-! ## Steps -/

/-- The pivot that the rule of a phase asks for. -/
def Phase.Asks (τ : α) (t : Tableau α n m) (place : Tableau.Place α n m) : Phase → Prop
  | .repairing => t.repair τ = .pivot place
  | .improving => t.improvement τ = .pivot place

/-- The states that a run passes through, each with its phase. -/
inductive Passes (s : Simplex α) (form : StandardForm α n m) : Phase → State α n m → Prop where
  | start : Passes s form .repairing (start s form)
  | pivot {phase : Phase} {state : State α n m} {place : Tableau.Place α n m}
      (h : Passes s form phase state) (hasks : phase.Asks s.tolerance state.tableau place) :
      Passes s form phase (advance s form state place)
  | repaired {state : State α n m} (h : Passes s form .repairing state)
      (hdone : state.tableau.repair s.tolerance = .done) : Passes s form .improving state

/-- Why a run ends in a tableau. -/
def Ending.Explains (τ : α) (t : Tableau α n m) : Phase → Ending α → Prop
  | .improving, .optimal => t.improvement τ = .optimal
  | .improving, .unbounded => t.improvement τ = .unbounded
  | .repairing, .infeasible _ => ∃ row, t.repair τ = .stuck row
  | phase, .exhausted => ∃ place, phase.Asks τ t place
  | _, _ => False

/-! ## What the rules make a run do -/

section rules

variable {repairs budget : Nat} {state : State α n m} {place : Tableau.Place α n m}

theorem improve_optimal (h : state.tableau.improvement s.tolerance = .optimal) :
    improve s form repairs budget state = ⟨state, repairs, .optimal⟩ := by
  unfold improve
  rw [h]

theorem improve_unbounded (h : state.tableau.improvement s.tolerance = .unbounded) :
    improve s form repairs budget state = ⟨state, repairs, .unbounded⟩ := by
  unfold improve
  rw [h]

theorem improve_exhausted (h : state.tableau.improvement s.tolerance = .pivot place) :
    improve s form repairs 0 state = ⟨state, repairs, .exhausted⟩ := by
  unfold improve
  rw [h]

theorem improve_pivot (h : state.tableau.improvement s.tolerance = .pivot place) :
    improve s form repairs (budget + 1) state =
      improve s form repairs budget (advance s form state place) := by
  conv => lhs; unfold improve
  rw [h]

theorem repair_done (h : state.tableau.repair s.tolerance = .done) :
    repair s form budget state = improve s form state.trace.pivots.size budget state := by
  unfold repair
  rw [h]

theorem repair_stuck {row : Fin m} (h : state.tableau.repair s.tolerance = .stuck row) :
    repair s form budget state = ⟨state, state.trace.pivots.size,
      .infeasible (.stuckRow (form.label (state.tableau.basis.get row))
        (state.tableau.rhs row))⟩ := by
  unfold repair
  rw [h]

theorem repair_exhausted (h : state.tableau.repair s.tolerance = .pivot place) :
    repair s form 0 state = ⟨state, state.trace.pivots.size, .exhausted⟩ := by
  unfold repair
  rw [h]

theorem repair_pivot (h : state.tableau.repair s.tolerance = .pivot place) :
    repair s form (budget + 1) state = repair s form budget (advance s form state place) := by
  conv => lhs; unfold repair
  rw [h]

end rules

/-! ## Runs -/

/-- The last state of a run is one that it passes through, and its tableau
    explains the ending. -/
def Run.Ends (s : Simplex α) (form : StandardForm α n m) (r : Run α n m) : Prop :=
  ∃ phase, Passes s form phase r.last ∧ r.ending.Explains s.tolerance r.last.tableau phase

theorem improve_passes (repairs budget : Nat) (state : State α n m)
    (h : Passes s form .improving state) : (improve s form repairs budget state).Ends s form := by
  -- By induction on the budget: a pivot leads to the next state of the phase.
  fun_induction improve s form repairs budget state with
  | case1 budget state hrule => exact ⟨.improving, h, hrule⟩
  | case2 budget state hrule => exact ⟨.improving, h, hrule⟩
  | case3 state place hrule => exact ⟨.improving, h, place, hrule⟩
  | case4 state place hrule budget ih => exact ih (h.pivot hrule)

theorem repair_passes (budget : Nat) (state : State α n m)
    (h : Passes s form .repairing state) : (repair s form budget state).Ends s form := by
  fun_induction repair s form budget state with
  | case1 budget state hrule => exact improve_passes _ _ _ (h.repaired hrule)
  | case2 budget state row hrule => exact ⟨.repairing, h, row, hrule⟩
  | case3 state place hrule => exact ⟨.repairing, h, place, hrule⟩
  | case4 state place hrule budget ih => exact ih (h.pivot hrule)

theorem run_passes (s : Simplex α) (form : StandardForm α n m) : (s.run form).Ends s form :=
  repair_passes _ _ .start

/-- A run is optimal in a state that it improves no further. -/
theorem run_optimal_passes (h : (s.run form).ending = .optimal) :
    Passes s form .improving (s.run form).last ∧
      (s.run form).last.tableau.improvement s.tolerance = .optimal := by
  obtain ⟨phase, hpasses, hexplains⟩ := run_passes s form
  rw [h] at hexplains
  cases phase with
  | repairing => exact hexplains.elim
  | improving => exact ⟨hpasses, hexplains⟩

end Simplex

end IntegerProgramming
