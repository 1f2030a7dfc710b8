import IntegerProgramming.Proofs.Knapsack.Selections

/-! # What the knapsack search selects

    Without tolerance the scheme of a knapsack problem is sound: the
    completions of a node are the selections within the capacity that agree
    with its decisions.  The search therefore finds a most valuable selection
    among those that follow the decisions made by bounds.

    Such a selection is a point of the model exactly if the bounds of every
    variable admit one from below and zero from above (`selection_correct`).
    Bounds that lie on one side of both values do not count as a conflict:
    the variable is taken or left out, and the selection found then violates
    its bounds (`demanded_selected`). -/

namespace IntegerProgramming

open Exact

namespace Knapsack

/-! ## The scheme -/

section soundness

variable {m : Model Exact} {c : Constraint Exact}

/-- The completions of a node: selections within the capacity that follow its
    decisions, with their values.  A conflict leaves none. -/
def Completes (m : Model Exact) (c : Constraint Exact) (node : Node Exact) (xs : List Exact)
    (q : ℚ) : Prop :=
  (problem 0 m c).conflict = none ∧ ∃ x : List ℚ, xs = x.map rational ∧ m.ZeroOne x ∧
    Agrees node x ∧ linear c.coefficients x ≤ c.rhs.toRat ∧ q = linear m.objective x

/-- The scheme of a knapsack problem is sound. -/
theorem scheme_sound (hm : m.IsRational) (ha : Accepts m c) :
    (problem 0 m c).scheme.Sound (problem 0 m c).root (Completes m c) where
  infeasible hn hevaluate xs q :=
    not_selects_of_infeasible 0 hm.rows ha hn hevaluate (add_zero _).ge xs q
  bound hn hevaluate _ _ hx := le_bound_of_selects hm.rows ha hn hevaluate hx
  complete hn hevaluate hcomplete := by
    obtain ⟨q, hobjective, hown, hbest⟩ :=
      selects_of_complete 0 hm.rows ha hn hevaluate hcomplete
    rw [add_zero] at hown
    exact ⟨q, hobjective, hown, hbest _⟩
  split hn hevaluate _ hbranch xs q := by
    obtain ⟨hconflict, -, -⟩ := evaluate_bounded hevaluate
    obtain ⟨item, hitem, hlower, hupper, -⟩ := branch_ok hbranch
    rw [hlower, hupper]
    exact (consistent_of_reachable hm.rows ha hconflict hn).selects_split hitem _ xs q
  unbounded _ _ := evaluate_ne_unbounded

end soundness

/-! ## Bounds -/

section bounds

variable {m : Model Exact} {c : Constraint Exact}

/-- The bounds of the variable reach one from below and zero from above. -/
def Admissible (v : Variable Exact) : Prop := v.lowerBound ≤ 1 ∧ 0 ≤ v.upperBound

instance (v : Variable Exact) : Decidable (Admissible v) := inferInstanceAs (Decidable (_ ∧ _))

/-- What the bounds of a variable decide. -/
theorem choice_eq {v : Variable Exact} {l u : ℚ} (hl : v.lowerBound = rational l)
    (hu : v.upperBound = rational u) : choice 0 v =
      if 0 < l then (if u < 1 then .impossible else .taken)
      else if u < 1 then .leftOut else .free := by
  unfold choice
  rw [hl, hu]
  simp only [zero_eq, one_eq, rational_sub, sub_zero, rational_lt]
  by_cases hlow : 0 < l <;> by_cases hhigh : u < 1 <;> simp [hlow, hhigh]

/-- Of zero and one a binary variable may take what the choice leaves to it,
    if its bounds are admissible, and neither otherwise. -/
theorem allows_iff {v : Variable Exact} (hv : v.IsRational) (hbinary : v.kind = .binary) {q : ℚ}
    (hq : q = 0 ∨ q = 1) : v.Allows q ↔ Admissible v ∧ (choice 0 v).Leaves q := by
  obtain ⟨l, hl⟩ : ∃ l : ℚ, v.lowerBound = rational l := by
    rcases hv.lowerBound_cases with hrational | ⟨-, hkind⟩
    · exact ⟨_, hrational⟩
    · rw [hbinary] at hkind
      cases hkind
  obtain ⟨u, hu⟩ : ∃ u : ℚ, v.upperBound = rational u :=
    ⟨_, hv.upperBound_cases.resolve_right fun h => h.2 hbinary⟩
  unfold Variable.Allows Admissible
  rw [choice_eq hl hu, hl, hu, one_eq, zero_eq]
  simp only [rational_le]
  -- The choice compares the bounds with the far sides only: `0 < l`, `u < 1`.
  by_cases hlow : 0 < l
  · by_cases hhigh : u < 1
    · rw [if_pos hlow, if_pos hhigh]
      rcases hq with rfl | rfl
      · exact iff_of_false (fun h => hlow.not_ge h.1) And.right
      · exact iff_of_false (fun h => hhigh.not_ge h.2) And.right
    · rw [if_pos hlow, if_neg hhigh]
      rcases hq with rfl | rfl
      · exact iff_of_false (fun h => hlow.not_ge h.1) fun h => zero_ne_one h.2
      · have hzero : 0 ≤ u := zero_le_one.trans (not_lt.mp hhigh)
        exact ⟨fun h => ⟨⟨h.1, hzero⟩, rfl⟩, fun h => ⟨h.1.1, not_lt.mp hhigh⟩⟩
  · by_cases hhigh : u < 1
    · rw [if_neg hlow, if_pos hhigh]
      rcases hq with rfl | rfl
      · have hone : l ≤ 1 := (not_lt.mp hlow).trans zero_le_one
        exact ⟨fun h => ⟨⟨hone, h.2⟩, rfl⟩, fun h => ⟨not_lt.mp hlow, h.1.2⟩⟩
      · exact iff_of_false (fun h => hhigh.not_ge h.2) fun h => one_ne_zero h.2
    · rw [if_neg hlow, if_neg hhigh]
      rcases hq with rfl | rfl
      · have hone : l ≤ 1 := (not_lt.mp hlow).trans zero_le_one
        exact ⟨fun h => ⟨⟨hone, h.2⟩, trivial⟩, fun h => ⟨not_lt.mp hlow, h.1.2⟩⟩
      · have hzero : 0 ≤ u := zero_le_one.trans (not_lt.mp hhigh)
        exact ⟨fun h => ⟨⟨h.1, hzero⟩, trivial⟩, fun h => ⟨h.1.1, not_lt.mp hhigh⟩⟩

/-- The capacity is the only constraint. -/
theorem holdsAt_iff (ha : Accepts m c) (x : List ℚ) :
    (∀ d ∈ m.constraints, d.HoldsAt x) ↔ linear c.coefficients x ≤ c.rhs.toRat := by
  rw [ha.constraints, List.forall_mem_singleton]
  unfold Constraint.HoldsAt
  rw [ha.relation]
  exact Iff.rfl

/-- A feasible point of zeros and ones completes the root. -/
theorem completes_root (hm : m.IsRational) (ha : Accepts m c) {x : List ℚ} (hx : m.ZeroOne x)
    (hfeasible : m.IsFeasible (x.map rational) 0) :
    Completes m c (problem 0 m c).root (x.map rational) (linear m.objective x) := by
  obtain ⟨-, hallows, hholds⟩ := (hm.isFeasible_iff x).mp hfeasible
  have hleaves : ∀ j (hj : j < m.vars.length), (choice 0 m.vars[j]).Leaves (x.getD j 0) := by
    intro j hj
    have hmem := List.getElem_mem hj
    exact ((allows_iff (hm.vars _ hmem) (ha.binary _ hmem) (hx.getD j)).mp (hallows j hj)).2
  obtain ⟨hconflict, hagrees⟩ := (agrees_root_iff ha x).mpr hleaves
  exact ⟨hconflict, x, rfl, hx, hagrees, (holdsAt_iff ha x).mp hholds, rfl⟩

/-- A completion of the root is a point of the model exactly if all bounds are
    admissible. -/
theorem feasible_iff_admissible (hm : m.IsRational) (ha : Accepts m c) {x : List ℚ} {q : ℚ}
    (hx : Completes m c (problem 0 m c).root (x.map rational) q) :
    m.IsFeasible (x.map rational) 0 ↔ ∀ v ∈ m.vars, Admissible v := by
  obtain ⟨hconflict, y, hyx, hy, hagrees, hcapacity, -⟩ := hx
  obtain rfl := List.map_injective_iff.mpr (fun _ _ h => rational.inj h) hyx
  have hleaves := (agrees_root_iff ha x).mp ⟨hconflict, hagrees⟩
  have hallows : ∀ j (hj : j < m.vars.length),
      m.vars[j].Allows (x.getD j 0) ↔ Admissible m.vars[j] := by
    intro j hj
    have hmem := List.getElem_mem hj
    rw [allows_iff (hm.vars _ hmem) (ha.binary _ hmem) (hy.getD j)]
    exact and_iff_left (hleaves j hj)
  rw [hm.isFeasible_iff]
  constructor
  · rintro ⟨-, hbounds, -⟩ v hv
    obtain ⟨j, hj, rfl⟩ := List.mem_iff_getElem.mp hv
    exact (hallows j hj).mp (hbounds j hj)
  · intro hadmissible
    refine ⟨hy.1, fun j hj => ?_, (holdsAt_iff ha x).mpr hcapacity⟩
    exact (hallows j hj).mpr (hadmissible _ (List.getElem_mem hj))

end bounds

/-! ## Answers -/

section answers

variable {m : Model Exact} {settings : Search.Settings Exact} {steps : Nat}
  {result : SearchResult Exact}

theorem solve_ok {τ : Exact} (hs : settings.tolerance = τ)
    (h : solve steps settings m = some (.ok result)) :
    ∃ c, Accepts m c ∧ Search.run steps (problem τ m c).scheme (problem τ m c).root settings =
      some (.ok result) := by
  unfold solve report at h
  rw [hs] at h
  cases hmodel : ofModel τ m with
  | error failure => rw [hmodel] at h; cases h
  | ok p =>
    obtain ⟨c, ha, rfl⟩ := ofModel_ok hmodel
    rw [hmodel] at h
    exact ⟨c, ha, h⟩

/-- Whatever the order of the search and its limit: the selection found is as
    valuable as any point of zeros and ones, and it is a point of the model
    itself exactly if all bounds are admissible. -/
theorem selection_correct (hs : settings.tolerance = 0) (hm : m.IsRational)
    (h : solve steps settings m = some (.ok result)) :
    (result.status = .optimal → ∃ x : List ℚ, result.bestValues = x.map rational ∧
        m.ZeroOne x ∧ (∀ c ∈ m.constraints, c.HoldsAt x) ∧
        (m.IsFeasible (x.map rational) 0 ↔ ∀ v ∈ m.vars, Admissible v) ∧
        result.bestObjective = some (m.evaluate (x.map rational)) ∧
        ∀ y : List ℚ, m.ZeroOne y → m.IsFeasible (y.map rational) 0 →
          ¬ m.evaluate (x.map rational) < m.evaluate (y.map rational)) ∧
      (result.status = .infeasible →
        ∀ y : List ℚ, m.ZeroOne y → ¬ m.IsFeasible (y.map rational) 0) ∧
      result.status ≠ .unbounded := by
  obtain ⟨c, ha, hrun⟩ := solve_ok hs h
  have hsound := scheme_sound hm ha
  refine ⟨fun hstatus => ?_, fun hstatus y hy hfeasible => ?_, fun hstatus => ?_⟩
  · obtain ⟨best, hbest, hcompletes, hmost⟩ :=
      Search.run_optimal hsound le_rfl hs hrun hstatus
    obtain ⟨-, x, hvalues, hx, -, hcapacity, hq⟩ := id hcompletes
    rw [hvalues] at hcompletes
    refine ⟨x, hvalues, hx, (holdsAt_iff ha x).mpr hcapacity,
      feasible_iff_admissible hm ha hcompletes, ?_, fun y hy hfeasible => ?_⟩
    · rw [hbest, hm.evaluate_eq, hq]
    · have hle := hmost _ _ (completes_root hm ha hy hfeasible)
      rw [add_zero, hq] at hle
      rw [hm.evaluate_eq, hm.evaluate_eq, rational_lt, not_lt]
      exact hle
  · exact Search.run_infeasible hsound le_rfl hs hrun hstatus _ _
      (completes_root hm ha hy hfeasible)
  · exact evaluate_ne_unbounded (Search.run_unbounded hsound le_rfl hs hrun hstatus)

/-- Three things to carry: one has to be taken, one has to stay, and the search
    decides on the third. -/
def rucksack : Model Exact where
  sense := .maximize
  vars := [⟨"tent", .binary, some (rational 1), none⟩, ⟨"stove", .binary, none, none⟩,
    ⟨"rope", .binary, none, some (rational 0)⟩]
  objective := [rational 10, rational 100, rational 120]
  constraints := [⟨"weight", [rational 10, rational 20, rational 30], .atMost, rational 50⟩]

theorem rucksack_selected : ∃ (result : SearchResult Exact) (x : List ℚ),
    solve 40 { tolerance := (0 : Exact) } rucksack = some (.ok result) ∧
      result.bestValues = x.map rational ∧ rucksack.IsFeasible (x.map rational) 0 ∧
      rucksack.evaluate (x.map rational) = rational 110 ∧
      ∀ y : List ℚ, rucksack.ZeroOne y → rucksack.IsFeasible (y.map rational) 0 →
        ¬ rational 110 < rucksack.evaluate (y.map rational) := by
  have hrun : (solve 40 { tolerance := (0 : Exact) } rucksack).map
      (fun answer => answer.toOption.map fun r => (r.status, r.bestObjective)) =
        some (some (.optimal, some (rational 110))) := by
    decide +kernel
  have hadmissible : ∀ v ∈ rucksack.vars, Admissible v := by decide
  cases h : solve 40 { tolerance := (0 : Exact) } rucksack with
  | none => rw [h] at hrun; cases hrun
  | some answer =>
    cases answer with
    | error failure => rw [h] at hrun; cases hrun
    | ok result =>
      rw [h, Option.map_some, Option.some.injEq] at hrun
      obtain ⟨hstatus, hobjective⟩ := Prod.mk.inj (Option.some.inj hrun)
      obtain ⟨x, hvalues, -, -, hfeasible, hbest, hmost⟩ :=
        (selection_correct rfl (by decide) h).1 hstatus
      have hvalue : rucksack.evaluate (x.map rational) = rational 110 :=
        Option.some.inj (hbest.symm.trans hobjective)
      rw [hvalue] at hmost
      exact ⟨result, x, rfl, hvalues, hfeasible.mpr hadmissible, hvalue, hmost⟩

/-- A variable that would have to be two. -/
def demanded : Model Exact where
  sense := .maximize
  vars := [⟨"x", .binary, some (rational 2), none⟩]
  objective := [rational 1]
  constraints := [⟨"capacity", [rational 1], .atMost, rational 5⟩]

/-- Inadmissible bounds go unnoticed: the answer is optimal, with a selection
    that violates them. -/
theorem demanded_selected : ∃ result : SearchResult Exact,
    solve 10 { tolerance := (0 : Exact) } demanded = some (.ok result) ∧
      result.status = .optimal ∧ ¬ demanded.IsFeasible result.bestValues 0 := by
  have hrun : (solve 10 { tolerance := (0 : Exact) } demanded).map
      (fun answer => answer.toOption.map fun r => (r.status, r.bestValues)) =
        some (some (.optimal, [rational 1])) := by
    decide +kernel
  cases h : solve 10 { tolerance := (0 : Exact) } demanded with
  | none => rw [h] at hrun; cases hrun
  | some answer =>
    cases answer with
    | error failure => rw [h] at hrun; cases hrun
    | ok result =>
      rw [h, Option.map_some, Option.some.injEq] at hrun
      obtain ⟨hstatus, hvalues⟩ := Prod.mk.inj (Option.some.inj hrun)
      refine ⟨result, rfl, hstatus, ?_⟩
      rw [hvalues]
      decide +kernel

end answers

end Knapsack

end IntegerProgramming
