import IntegerProgramming.Proofs.Model.Relaxation

/-! # Infinite bounds in the relaxation

    Bounds may be given as infinite.  Most of them mean the same in the
    relaxation: an upper bound at infinity is no bound, and so is a lower bound
    at minus infinity of an unrestricted variable, or of any variable that a
    constraint bounds from below.

    The others change the points in a known way (`relax_points`).  Without
    tolerance the relaxation loses the points below the floors, and it has
    points that the model lacks only if a range is inverted.  A whole number
    without lower bound is floored: at minus one the model has a point and the
    relaxation has none (`debt_floored`). -/

namespace IntegerProgramming

open Exact

/-! ## Bounds that are given as infinite -/

/-- Given bounds are rational or infinite. -/
structure Variable.DefinedBounds (v : Variable Exact) : Prop where
  lower : v.lower ≠ some undefined
  upper : v.upper ≠ some undefined

instance (v : Variable Exact) : Decidable v.DefinedBounds :=
  decidable_of_iff (v.lower ≠ some undefined ∧ v.upper ≠ some undefined)
    ⟨fun h => ⟨h.1, h.2⟩, fun h => ⟨h.lower, h.upper⟩⟩

theorem Variable.DefinedBounds.range {v : Variable Exact} (h : v.DefinedBounds) :
    v.range.Defined := by
  constructor
  · show v.lowerBound ≠ undefined
    unfold lowerBound
    cases hl : v.lower with
    | none => cases v.kind <;> exact nofun
    | some l =>
      have hdefined : l ≠ undefined := fun he => h.lower (he ▸ hl)
      cases v.kind with
      | binary => exact larger_ne_undefined hdefined nofun
      | _ => exact hdefined
  · show v.upperBound ≠ undefined
    unfold upperBound
    cases hu : v.upper with
    | none => cases v.kind <;> exact nofun
    | some u =>
      have hdefined : u ≠ undefined := fun he => h.upper (he ▸ hu)
      cases v.kind with
      | binary => exact smaller_ne_undefined hdefined nofun
      | _ => exact hdefined

/-! ## Points -/

namespace Model

variable {m : Model Exact}

theorem names_relaxation {α : Type} [Scalar α] (m : Model α) (tolerance : α) :
    (m.relaxation tolerance).names = m.names := by
  have hfirst : (m.vars.zip (m.foldedRanges tolerance)).map Prod.fst = m.vars :=
    List.map_fst_zip (m.length_foldedRanges tolerance).ge
  unfold names relaxation
  conv_rhs => rw [← hfirst]
  rw [List.map_map, List.map_map]
  rfl

/-- Without tolerance and whatever bounds are given, infinite ones included: a
    model without relaxation has no points.  The relaxation keeps the sense, the
    objective and the names; it keeps the points as well if it keeps the ranges.
    In general it loses the points below a floor and no others, and it gains
    points only if a range is inverted and the model has none. -/
theorem relax_points (hm : m.RationalForms) (hd : ∀ v ∈ m.vars, v.DefinedBounds)
    (hal : m.Aligned) :
    (∀ reason, m.relax 0 = .error reason →
      ∀ x : List ℚ, ¬ m.IsFeasible (x.map rational) 0) ∧
    ∀ relaxed, m.relax 0 = .ok relaxed →
      (relaxed.sense = m.sense ∧ relaxed.objective = m.objective ∧ relaxed.names = m.names) ∧
      (m.KeepsRanges 0 → ∀ x : List ℚ,
        relaxed.IsFeasible (x.map rational) 0 ↔ m.IsFeasible (x.map rational) 0) ∧
      ∀ x : List ℚ,
        (m.IsFeasible (x.map rational) 0 →
          (relaxed.IsFeasible (x.map rational) 0 ↔ m.FloorsAt 0 x)) ∧
        (relaxed.IsFeasible (x.map rational) 0 →
          (m.IsFeasible (x.map rational) 0 ↔ m.NoneInverted 0)) := by
  have hranges : ∀ v ∈ m.vars, v.range.Defined := fun v hv => (hd v hv).range
  refine ⟨fun reason h => hm.relax_error hal hranges h, fun relaxed h => ?_⟩
  obtain rfl := relax_eq_relaxation h
  have hfloors := hm.relaxation_floors hal hranges
  have hnone : ∀ x : List ℚ, m.IsFeasible (x.map rational) 0 → m.NoneInverted 0 :=
    fun x hx => noneInverted_of_within (hm.within_of_isFeasible hal hranges hx)
  refine ⟨⟨rfl, rfl, m.names_relaxation 0⟩, hm.relaxation_feasible hal hranges,
    fun x => ⟨fun hx => ?_, fun hx => ?_⟩⟩
  · constructor
    · intro hrelaxed
      exact ((hfloors x).mp ⟨hrelaxed, hnone x hx⟩).2
    · intro hfloor
      exact ((hfloors x).mpr ⟨hx, hfloor⟩).1
  · constructor
    · exact hnone x
    · intro hinverted
      exact ((hfloors x).mp ⟨hx, hinverted⟩).1

/-- A tide that may be at any level, and a whole number that a constraint keeps
    from falling without end. -/
def tide : Model Exact where
  sense := .minimize
  vars := [⟨"level", .unrestricted, some minusInfinity, some plusInfinity⟩,
    ⟨"step", .integer, some minusInfinity, none⟩]
  objective := [rational 1, rational 1]
  constraints := [⟨"bottom", [rational 0, rational 2], .atLeast, rational (-6)⟩,
    ⟨"flood", [rational 1, rational 1], .atMost, rational 4⟩]

/-- Its infinite bounds are kept. -/
theorem tide_kept : ∃ relaxed, tide.relax 0 = .ok relaxed ∧ ∀ x : List ℚ,
    relaxed.IsFeasible (x.map rational) 0 ↔ tide.IsFeasible (x.map rational) 0 := by
  have hok : (tide.relax 0).toOption.isSome = true := by decide +kernel
  cases h : tide.relax 0 with
  | error reason => rw [h] at hok; cases hok
  | ok relaxed =>
    have hpoints := relax_points (m := tide) (by decide +kernel) (by decide +kernel)
      (by decide +kernel)
    exact ⟨relaxed, rfl, (hpoints.2 relaxed h).2.1 (by decide +kernel)⟩

/-- A whole number without lower bound that has to be negative. -/
def debt : Model Exact where
  sense := .maximize
  vars := [⟨"balance", .integer, some minusInfinity, none⟩]
  objective := [rational 1]
  constraints := [⟨"owed", [rational 1], .atMost, rational (-1)⟩]

/-- The relaxation starts the balance at zero and loses the point minus one. -/
theorem debt_floored : debt.IsFeasible ([-1].map rational) 0 ∧
    ∃ relaxed, debt.relax 0 = .ok relaxed ∧ ¬ relaxed.IsFeasible ([-1].map rational) 0 := by
  constructor
  · decide +kernel
  · apply relax_loses
    decide +kernel

end Model

end IntegerProgramming
