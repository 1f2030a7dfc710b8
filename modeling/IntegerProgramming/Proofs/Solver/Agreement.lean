import IntegerProgramming.Solver
import IntegerProgramming.Proofs.BranchAndBound.Optimality
import IntegerProgramming.Proofs.Knapsack.Optimality

/-! # The engines agree on knapsacks

    A model that states a knapsack problem can be given to two engines: to the
    search over decisions on items, and to branch and bound over relaxations.
    The two searches have nothing in common but their answers.  Both schemes
    are sound, and if the bounds of every variable are admissible, their roots
    have the same completions: the whole points of such a model are the
    selections within its capacity that follow its bounds.

    Two sound searches for the best of the same completions find the same
    status and the same value (`Search.answers_agree`).  So a solver that is
    left the choice answers as if it always took branch and bound. -/

namespace IntegerProgramming

open Exact

/-! ## Searches for the same completions -/

namespace Search

variable {ν₁ ν₂ : Type} {scheme₁ : Scheme Exact ν₁} {scheme₂ : Scheme Exact ν₂} {root₁ : ν₁}
  {root₂ : ν₂} {Completion₁ : ν₁ → List Exact → ℚ → Prop}
  {Completion₂ : ν₂ → List Exact → ℚ → Prop} {settings₁ settings₂ : Settings Exact}
  {steps₁ steps₂ : Nat} {result₁ result₂ : SearchResult Exact}

/-- A sound search that has the completions of an optimal one is optimal too,
    and its value is not worse. -/
theorem merit_le_of_completions (h₁ : scheme₁.Sound root₁ Completion₁)
    (h₂ : scheme₂.Sound root₂ Completion₂)
    (hsame : ∀ xs q, Completion₁ root₁ xs q → Completion₂ root₂ xs q)
    (ht₁ : settings₁.tolerance = 0) (ht₂ : settings₂.tolerance = 0)
    (hbounded : scheme₂.evaluate root₂ ≠ .ok .unbounded)
    (hrun₁ : run steps₁ scheme₁ root₁ settings₁ = some (.ok result₁))
    (hrun₂ : run steps₂ scheme₂ root₂ settings₂ = some (.ok result₂))
    (hstatus : result₁.status = .optimal) :
    result₂.status = .optimal ∧ ∃ p q, result₁.bestObjective = some (rational p) ∧
      result₂.bestObjective = some (rational q) ∧
      scheme₂.sense.merit p ≤ scheme₂.sense.merit q := by
  obtain ⟨p, hp, hcompletes, -⟩ := run_optimal h₁ le_rfl ht₁ hrun₁ hstatus
  have hother := hsame _ _ hcompletes
  have hoptimal : result₂.status = .optimal := by
    rcases run_status hrun₂ with ⟨hoptimal, -⟩ | ⟨hinfeasible | hunbounded, -⟩
    · exact hoptimal
    · exact absurd hother (run_infeasible h₂ le_rfl ht₂ hrun₂ hinfeasible _ _)
    · exact absurd (run_unbounded h₂ le_rfl ht₂ hrun₂ hunbounded) hbounded
  obtain ⟨q, hq, -, hmost⟩ := run_optimal h₂ le_rfl ht₂ hrun₂ hoptimal
  have hle := hmost _ _ hother
  rw [add_zero] at hle
  exact ⟨hoptimal, p, q, hp, hq, hle⟩

/-- Two sound searches for the best of the same completions agree. -/
theorem answers_agree (h₁ : scheme₁.Sound root₁ Completion₁)
    (h₂ : scheme₂.Sound root₂ Completion₂) (hsense : scheme₁.sense = scheme₂.sense)
    (hsame : ∀ xs q, Completion₁ root₁ xs q ↔ Completion₂ root₂ xs q)
    (ht₁ : settings₁.tolerance = 0) (ht₂ : settings₂.tolerance = 0)
    (hbounded₁ : scheme₁.evaluate root₁ ≠ .ok .unbounded)
    (hbounded₂ : scheme₂.evaluate root₂ ≠ .ok .unbounded)
    (hrun₁ : run steps₁ scheme₁ root₁ settings₁ = some (.ok result₁))
    (hrun₂ : run steps₂ scheme₂ root₂ settings₂ = some (.ok result₂)) :
    result₁.status = result₂.status ∧ result₁.bestObjective = result₂.bestObjective := by
  have hforth := merit_le_of_completions h₁ h₂ (fun xs q => (hsame xs q).mp) ht₁ ht₂ hbounded₂
    hrun₁ hrun₂
  have hback := merit_le_of_completions h₂ h₁ (fun xs q => (hsame xs q).mpr) ht₂ ht₁ hbounded₁
    hrun₂ hrun₁
  rcases run_status hrun₁ with ⟨hoptimal, -⟩ | ⟨hstatus₁, hnone₁⟩
  · obtain ⟨hoptimal₂, p, q, hp, hq, hle⟩ := hforth hoptimal
    obtain ⟨-, q', p', hq', hp', hge⟩ := hback hoptimal₂
    rw [hp, Option.some.injEq, rational.injEq] at hp'
    rw [hq, Option.some.injEq, rational.injEq] at hq'
    rw [← hp', ← hq', hsense] at hge
    -- Neither value is better than the other one.
    have hpq : p = q := by
      have hmerit := le_antisymm hle hge
      cases hsense' : scheme₂.sense with
      | maximize => rwa [hsense'] at hmerit
      | minimize =>
        rw [hsense'] at hmerit
        exact neg_injective hmerit
    rw [hoptimal, hoptimal₂, hp, hq, hpq]
    exact ⟨rfl, rfl⟩
  · -- Neither search is optimal, and neither is unbounded.
    rcases run_status hrun₂ with ⟨hoptimal, -⟩ | ⟨hstatus₂, hnone₂⟩
    · have hoptimal₁ := (hback hoptimal).1
      rw [hoptimal₁] at hstatus₁
      rcases hstatus₁ with h | h <;> cases h
    · have hinfeasible₁ : result₁.status = .infeasible :=
        hstatus₁.resolve_right fun h => hbounded₁ (run_unbounded h₁ le_rfl ht₁ hrun₁ h)
      have hinfeasible₂ : result₂.status = .infeasible :=
        hstatus₂.resolve_right fun h => hbounded₂ (run_unbounded h₂ le_rfl ht₂ hrun₂ h)
      rw [hinfeasible₁, hinfeasible₂, hnone₁, hnone₂]
      exact ⟨rfl, rfl⟩

end Search

/-! ## The whole points of a knapsack -/

namespace Knapsack

section points

variable {m : Model Exact} {c : Constraint Exact}

/-- Explicit bounds of a binary variable are admissible if they are within
    reach of both values. -/
theorem admissible_of_bounds {v : Variable Exact} (hv : v.IsRational) (hbinary : v.kind = .binary)
    (hlower : ∀ l ∈ v.lower, l ≤ 1) (hupper : ∀ u ∈ v.upper, 0 ≤ u) : Admissible v := by
  unfold Admissible Variable.lowerBound Variable.upperBound
  rw [hbinary]
  constructor
  · cases hl : v.lower with
    | none => decide
    | some l =>
      have hrational : l = rational l.toRat := hv.lower l hl
      have hle := hlower l hl
      rw [hrational, one_eq, rational_le] at hle
      dsimp only
      rw [hrational, zero_eq, one_eq, larger_rational, rational_le]
      exact max_le hle zero_le_one
  · cases hu : v.upper with
    | none => decide
    | some u =>
      have hrational : u = rational u.toRat := hv.upper u hu
      have hle := hupper u hu
      rw [hrational, zero_eq, rational_le] at hle
      dsimp only
      rw [hrational, zero_eq, one_eq, smaller_rational, rational_le]
      exact le_min hle zero_le_one

/-- A binary variable never leaves the unit interval. -/
theorem unit_of_allows {v : Variable Exact} (hv : v.IsRational) (hbinary : v.kind = .binary)
    {q : ℚ} (h : v.Allows q) : 0 ≤ q ∧ q ≤ 1 := by
  obtain ⟨hlow, hhigh⟩ := h
  unfold Variable.lowerBound at hlow
  unfold Variable.upperBound at hhigh
  rw [hbinary] at hlow hhigh
  constructor
  · cases hl : v.lower with
    | none =>
      rw [hl] at hlow
      exact (rational_le 0 q).mp hlow
    | some l =>
      have hrational : l = rational l.toRat := hv.lower l hl
      rw [hl] at hlow
      dsimp only at hlow
      rw [hrational, zero_eq, larger_rational, rational_le] at hlow
      exact (le_max_right _ _).trans hlow
  · cases hu : v.upper with
    | none =>
      rw [hu] at hhigh
      exact (rational_le q 1).mp hhigh
    | some u =>
      have hrational : u = rational u.toRat := hv.upper u hu
      rw [hu] at hhigh
      dsimp only at hhigh
      rw [hrational, one_eq, smaller_rational, rational_le] at hhigh
      exact hhigh.trans (min_le_right _ _)

theorem unit_of_feasible (hm : m.IsRational) (ha : Accepts m c) {x : List ℚ}
    (hx : m.IsFeasible (x.map rational) 0) (j : Nat) : 0 ≤ x.getD j 0 ∧ x.getD j 0 ≤ 1 := by
  obtain ⟨hlength, hallows, -⟩ := (hm.isFeasible_iff x).mp hx
  by_cases hj : j < m.vars.length
  · have hmem := List.getElem_mem hj
    exact unit_of_allows (hm.vars _ hmem) (ha.binary _ hmem) (hallows j hj)
  · rw [List.getD_eq_default _ _ (by omega)]
    exact ⟨le_rfl, zero_le_one⟩

/-- The points of a knapsack are not worth more than all values together. -/
theorem linear_le_sum_abs (hm : m.IsRational) (ha : Accepts m c) {x : List ℚ}
    (hx : m.IsFeasible (x.map rational) 0) :
    linear m.objective x ≤ ∑ j ∈ Finset.range m.objective.length, |coordinate m.objective j| := by
  unfold linear
  apply Finset.sum_le_sum
  intro j _
  obtain ⟨hlow, hhigh⟩ := unit_of_feasible hm ha hx j
  calc coordinate m.objective j * x.getD j 0
      ≤ |coordinate m.objective j| * x.getD j 0 :=
        mul_le_mul_of_nonneg_right (le_abs_self _) hlow
    _ ≤ |coordinate m.objective j| * 1 := mul_le_mul_of_nonneg_left hhigh (abs_nonneg _)
    _ = |coordinate m.objective j| := mul_one _

/-- A whole point of a knapsack takes or leaves each item. -/
theorem zeroOne_of_whole (hm : m.IsRational) (ha : Accepts m c) {x : List ℚ}
    (hx : m.IsFeasible (x.map rational) 0) (hwhole : m.Whole x) : m.ZeroOne x := by
  have hlength : x.length = m.vars.length := ((hm.isFeasible_iff x).mp hx).1
  refine ⟨hlength, fun q hq => ?_⟩
  obtain ⟨j, hj, rfl⟩ := List.mem_iff_getElem.mp hq
  have hjm : j < m.vars.length := by omega
  have hintegral : j ∈ m.integralIndices := by
    apply Model.mem_integralIndices.mpr
    refine ⟨m.vars[j], List.getElem?_eq_getElem hjm, ?_⟩
    rw [ha.binary _ (List.getElem_mem hjm)]
    rfl
  obtain ⟨k, hk⟩ := hwhole j hintegral
  have hunit := unit_of_feasible hm ha hx j
  rw [hk] at hunit
  -- The only whole numbers of the unit interval are its ends.
  have hlow : 0 ≤ k := by exact_mod_cast hunit.1
  have hhigh : k ≤ 1 := by exact_mod_cast hunit.2
  have hvalue : x[j] = k := by rw [← hk, List.getD_eq_getElem _ _ hj]
  rcases (by omega : k = 0 ∨ k = 1) with hzero | hone
  · left
    rw [hvalue, hzero, Int.cast_zero]
  · right
    rw [hvalue, hone, Int.cast_one]

theorem whole_of_zeroOne {x : List ℚ} (hx : m.ZeroOne x) : m.Whole x := by
  intro j _
  rcases hx.getD j with hzero | hone
  · exact ⟨0, by rw [hzero, Int.cast_zero]⟩
  · exact ⟨1, by rw [hone, Int.cast_one]⟩

/-- The whole points of a knapsack with admissible bounds are the selections
    that its search decides between. -/
theorem completes_iff_whole (hm : m.IsRational) (ha : Accepts m c)
    (hadmissible : ∀ v ∈ m.vars, Admissible v) (xs : List Exact) (q : ℚ) :
    Completes m c (problem 0 m c).root xs q ↔ BranchAndBound.Completes m m xs q := by
  constructor
  · rintro h
    obtain ⟨-, x, rfl, hx, -, -, rfl⟩ := id h
    have hfeasible := (feasible_iff_admissible hm ha h).mpr hadmissible
    exact ⟨x, rfl, hfeasible, whole_of_zeroOne hx, rfl⟩
  · rintro ⟨x, rfl, hfeasible, hwhole, rfl⟩
    exact completes_root hm ha (zeroOne_of_whole hm ha hfeasible hwhole) hfeasible

/-- The relaxation of a knapsack is never unbounded. -/
theorem relaxation_bounded (hm : m.IsRational) (ha : Accepts m c) {e : BranchAndBound Exact}
    (hsearch : e.search.tolerance = 0) (hsimplex : e.simplex.tolerance = 0) :
    (e.scheme m).evaluate m ≠ .ok .unbounded := by
  intro hunbounded
  obtain ⟨x, hx, hmore⟩ := BranchAndBound.inspect_describes hsearch hsimplex hm ha.aligned
    hunbounded (∑ j ∈ Finset.range m.objective.length, |coordinate m.objective j|)
  rw [ha.sense] at hmore
  exact absurd (linear_le_sum_abs hm ha hx) (not_le.mpr hmore)

end points

end Knapsack

/-! ## Engines -/

namespace Solver

section answers

variable {α : Type} [Scalar α] {m : Model α} {s : Solver α}

theorem solve_eq_simplex (steps : Nat) (hengine : s.engineFor m = .simplex) :
    s.solve steps m = some (((s.simplex s.snapshots).solve m).map .linear) := by
  unfold solve report
  rw [hengine]
  rfl

theorem solve_eq_branchAndBound (steps : Nat) (hengine : s.engineFor m = .branchAndBound) :
    s.solve steps m =
      (BranchAndBound.solve steps ⟨s.simplex false, s.settings⟩ m).map (Except.map .search) := by
  unfold solve report BranchAndBound.solve
  rw [hengine]
  unfold runEngine
  simp only [Option.map_map]
  rfl

theorem solve_eq_knapsack (steps : Nat) (hengine : s.engineFor m = .knapsack) :
    s.solve steps m = (Knapsack.solve steps s.settings m).map (Except.map .search) := by
  unfold solve report Knapsack.solve
  rw [hengine]
  unfold runEngine
  simp only [Option.map_map]
  rfl

omit [Scalar α] in
/-- A search that gives an outcome gives its result. -/
theorem result_of_outcome {answer : Option (Except (Failure α) (SearchResult α))}
    {outcome : Outcome α} (h : answer.map (Except.map .search) = some (.ok outcome)) :
    ∃ result, outcome = .search result ∧ answer = some (.ok result) := by
  cases answer with
  | none => cases h
  | some answer =>
    cases answer with
    | error failure => cases h
    | ok result =>
      cases h
      exact ⟨result, rfl, rfl⟩

end answers

section engines

variable {m : Model Exact} {s : Solver Exact}

/-- On a knapsack the search over items and branch and bound find the same. -/
theorem searches_agree (hm : m.IsRational)
    (hbounds : ∀ v ∈ m.vars, (∀ l ∈ v.lower, l ≤ 1) ∧ ∀ u ∈ v.upper, 0 ≤ u)
    {settings : Search.Settings Exact} {e : BranchAndBound Exact} (ht : settings.tolerance = 0)
    (hsearch : e.search.tolerance = 0) (hsimplex : e.simplex.tolerance = 0)
    {steps steps' : Nat} {result result' : SearchResult Exact}
    (h : Knapsack.solve steps settings m = some (.ok result))
    (h' : e.solve steps' m = some (.ok result')) :
    result.status = result'.status ∧ result.bestObjective = result'.bestObjective := by
  obtain ⟨c, ha, hrun⟩ := Knapsack.solve_ok ht h
  obtain ⟨hal, hrun'⟩ := BranchAndBound.solve_ok h'
  have hadmissible : ∀ v ∈ m.vars, Knapsack.Admissible v := fun v hv =>
    Knapsack.admissible_of_bounds (hm.vars v hv) (ha.binary v hv) (hbounds v hv).1
      (hbounds v hv).2
  have hsense : (Knapsack.problem 0 m c).scheme.sense = (e.scheme m).sense := ha.sense.symm
  exact Search.answers_agree (Knapsack.scheme_sound hm ha)
    (BranchAndBound.scheme_sound hsearch hsimplex hm hal) hsense
    (Knapsack.completes_iff_whole hm ha hadmissible) ht hsearch Knapsack.evaluate_ne_unbounded
    (Knapsack.relaxation_bounded hm ha hsearch hsimplex) hrun hrun'

/-- Left to itself the solver takes the knapsack search wherever it can. -/
theorem engineFor_eq_knapsack (hauto : s.engine = none) (hvars : m.vars ≠ [])
    (haccepts : (Knapsack.ofModel s.tolerance m).isOk) : s.engineFor m = .knapsack := by
  have hintegral : m.hasIntegral = true := by
    cases hmodel : Knapsack.ofModel s.tolerance m with
    | error failure => rw [hmodel] at haccepts; cases haccepts
    | ok p =>
      obtain ⟨c, ha, -⟩ := Knapsack.ofModel_ok hmodel
      obtain ⟨v, hv⟩ := List.exists_mem_of_ne_nil _ hvars
      apply List.any_eq_true.mpr
      refine ⟨v, hv, ?_⟩
      rw [ha.binary v hv]
      rfl
  unfold engineFor
  rw [hauto]
  dsimp only
  rw [hintegral, haccepts]
  rfl

/-- On every knapsack whose explicit bounds are within reach of zero and one,
    the two engines agree, in either order of the search.  So the choice of the
    engine changes neither the status nor the optimum. -/
theorem engines_agree (hm : m.IsRational)
    (hbounds : ∀ v ∈ m.vars, (∀ l ∈ v.lower, l ≤ 1) ∧ ∀ u ∈ v.upper, 0 ≤ u) :
    (∀ (settings : Search.Settings Exact) (e : BranchAndBound Exact) (steps steps' : Nat)
      (result result' : SearchResult Exact), settings.tolerance = 0 → e.search.tolerance = 0 →
        e.simplex.tolerance = 0 → Knapsack.solve steps settings m = some (.ok result) →
          e.solve steps' m = some (.ok result') →
            result.status = result'.status ∧ result.bestObjective = result'.bestObjective) ∧
      ∀ s : Solver Exact, s.engine = none → s.tolerance = 0 → m.vars ≠ [] →
        (Knapsack.ofModel 0 m).isOk → s.engineFor m = .knapsack ∧
          ∀ (steps steps' : Nat) (outcome outcome' : Outcome Exact),
            s.solve steps m = some (.ok outcome) →
              { s with engine := some .branchAndBound }.solve steps' m = some (.ok outcome') →
                outcome.status = outcome'.status ∧ outcome.objective = outcome'.objective := by
  constructor
  · intro settings e steps steps' result result' ht hsearch hsimplex h h'
    exact searches_agree hm hbounds ht hsearch hsimplex h h'
  · intro s hauto ht hvars haccepts
    rw [← ht] at haccepts
    have hengine := engineFor_eq_knapsack hauto hvars haccepts
    refine ⟨hengine, fun steps steps' outcome outcome' h h' => ?_⟩
    rw [solve_eq_knapsack steps hengine] at h
    rw [solve_eq_branchAndBound steps' rfl] at h'
    obtain ⟨result, rfl, hresult⟩ := result_of_outcome h
    obtain ⟨result', rfl, hresult'⟩ := result_of_outcome h'
    exact searches_agree hm hbounds ht ht ht hresult hresult'

/-- A solver without tolerance that is left the choice of the engine. -/
def exactSolver : Solver Exact where
  tolerance := 0
  traversal := .depthFirst

open Knapsack in
theorem rucksack_agreed : ∃ outcome outcome' : Outcome Exact,
    exactSolver.solve 40 rucksack = some (.ok outcome) ∧
      { exactSolver with engine := some .branchAndBound }.solve 40 rucksack =
        some (.ok outcome') ∧
      outcome.status = outcome'.status ∧ outcome.objective = some (rational 110) ∧
      outcome'.objective = some (rational 110) := by
  have hrun : (exactSolver.solve 40 rucksack).map
      (fun answer => answer.toOption.map (·.objective)) = some (some (some (rational 110))) := by
    decide +kernel
  have hrun' : ({ exactSolver with engine := some .branchAndBound }.solve 40 rucksack).map
      Except.isOk = some true := by
    decide +kernel
  obtain ⟨-, hagree⟩ := (engines_agree (m := rucksack) (by decide) (by decide)).2 exactSolver
    rfl rfl (by decide) (by decide)
  cases h : exactSolver.solve 40 rucksack with
  | none => rw [h] at hrun; cases hrun
  | some answer =>
    rw [h] at hrun
    cases answer with
    | error failure => cases hrun
    | ok outcome =>
      have hobjective : outcome.objective = some (rational 110) :=
        Option.some.inj (Option.some.inj hrun)
      cases h' : { exactSolver with engine := some .branchAndBound }.solve 40 rucksack with
      | none => rw [h'] at hrun'; cases hrun'
      | some answer' =>
        rw [h'] at hrun'
        cases answer' with
        | error failure => cases hrun'
        | ok outcome' =>
          obtain ⟨hstatus, hsame⟩ := hagree 40 40 outcome outcome' h h'
          exact ⟨outcome, outcome', rfl, rfl, hstatus, hobjective, hsame.symm.trans hobjective⟩

end engines

end Solver

end IntegerProgramming
