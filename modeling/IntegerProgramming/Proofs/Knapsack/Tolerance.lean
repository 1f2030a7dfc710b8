import IntegerProgramming.Proofs.Knapsack.Optimality

/-! # Knapsacks with tolerance

    With a tolerance the search has two notions of what fits.  A node is
    examined as long as it exceeds the capacity by no more than the tolerance,
    but the greedy bound fills the capacity itself.  So a selection that is too
    heavy by less than the tolerance may be found, or its node may be pruned
    against a bound that does not hold for it; which of the two happens depends
    on the order of the search.

    Whether anything is found does not depend on the order: that is decided at
    the root (`status_of_root`).  The values found in two orders differ by no
    more than the tolerance and by what the selections that are slightly too
    heavy are worth more than the others (`orders_agree`).  They do differ if
    there is such a selection of more worth (`treasure_ordered`). -/

namespace IntegerProgramming

open Exact

namespace Knapsack

/-! ## The status -/

section status

variable {α : Type} [Scalar α] {p : Problem α} {settings : Search.Settings α} {steps : Nat}
  {result : SearchResult α}

/-- Leaving an item out does not add weight. -/
theorem obstacle_exclude (node : Node α) (item : Item α) :
    p.obstacle (node.exclude item) = p.obstacle node := rfl

/-- There is a solution if the decisions at the root are possible, because
    leaving out all items is. -/
theorem status_of_root (h : Search.run steps p.scheme p.root settings = some (.ok result)) :
    result.status = if (p.obstacle p.root).isNone then .optimal else .infeasible := by
  cases hroot : p.obstacle p.root with
  | some reason =>
    have hevaluate : p.scheme.evaluate p.root = .ok (.infeasible reason) := by
      show Except.ok (p.evaluate p.root) = _
      unfold Problem.evaluate
      rw [hroot]
    exact Search.infeasible_of_root hevaluate h
  | none =>
    -- Below a possible node, the one that leaves the next item out is possible.
    have hleads : ∀ node, p.obstacle node = none → ∃ b,
        p.scheme.evaluate node = .ok (.bounded b) ∧ (p.scheme.isComplete node b = false →
          ∀ lower upper, p.scheme.branch node b = .ok (lower, upper) →
            p.obstacle lower.2 = none ∨ p.obstacle upper.2 = none) := by
      intro node hnode
      refine ⟨⟨p.upperBound node, node.value, p.indicator node⟩, ?_, ?_⟩
      · show Except.ok (p.evaluate node) = _
        unfold Problem.evaluate
        rw [hnode]
      · intro _ lower upper hbranch
        obtain ⟨item, -, hlower, -⟩ := branch_ok hbranch
        left
        rw [hlower, obstacle_exclude]
        exact hnode
    exact Search.optimal_of_leads hleads hroot h

end status

/-! ## The scheme -/

section serving

variable {m : Model Exact} {c : Constraint Exact} {tol : ℚ}

/-- With a tolerance the scheme serves to find the selections within the
    capacity, up to those that exceed it by no more than the tolerance. -/
theorem scheme_serves (hm : m.IsRational) (ha : Accepts m c) (ht : 0 ≤ tol) :
    (problem (rational tol) m c).scheme.Serves (problem (rational tol) m c).root
      (Selects (rational tol) m c c.rhs.toRat)
      (Selects (rational tol) m c (c.rhs.toRat + tol) (problem (rational tol) m c).root) where
  infeasible hn hevaluate xs q :=
    not_selects_of_infeasible tol hm.rows ha hn hevaluate (le_add_of_nonneg_right ht) xs q
  bound hn hevaluate _ _ hx := le_bound_of_selects hm.rows ha hn hevaluate hx
  complete hn hevaluate hcomplete := by
    obtain ⟨q, hobjective, hown, hbest⟩ :=
      selects_of_complete tol hm.rows ha hn hevaluate hcomplete
    exact ⟨q, hobjective, selects_root_of_reachable hm.rows ha hn hown, hbest _⟩
  split hn hevaluate _ hbranch _ _ hx := by
    obtain ⟨item, hitem, hlower, hupper, -⟩ := branch_ok hbranch
    rw [hlower, hupper]
    exact ((consistent_of_reachable hm.rows ha hx.1 hn).selects_split hitem _ _ _).mp hx
  unbounded _ _ := evaluate_ne_unbounded

end serving

/-! ## Two orders -/

section orders

variable {m : Model Exact} {tol : ℚ}

/-- A selection that follows the decisions made by bounds, and exceeds the
    capacity by no more than the slack. -/
def Fits (m : Model Exact) (tol slack : ℚ) (x : List ℚ) : Prop :=
  m.ZeroOne x ∧
    (∀ j (hj : j < m.vars.length), (choice (rational tol) m.vars[j]).Leaves (x.getD j 0)) ∧
    ∀ c ∈ m.constraints, linear c.coefficients x ≤ c.rhs.toRat + slack

/-- The selections below the root are those that fit. -/
theorem selects_root_iff {c : Constraint Exact} (ha : Accepts m c)
    (slack : ℚ) (xs : List Exact) (q : ℚ) :
    Selects (rational tol) m c (c.rhs.toRat + slack) (problem (rational tol) m c).root xs q ↔
      ∃ x : List ℚ, xs = x.map rational ∧ Fits m tol slack x ∧ q = linear m.objective x := by
  have hcapacity : ∀ x : List ℚ,
      (∀ d ∈ m.constraints, linear d.coefficients x ≤ d.rhs.toRat + slack) ↔
        linear c.coefficients x ≤ c.rhs.toRat + slack := by
    intro x
    rw [ha.constraints, List.forall_mem_singleton]
  constructor
  · rintro ⟨hconflict, x, hxs, hx, hagrees, hweight, hq⟩
    have hleaves := (agrees_root_iff ha x).mp ⟨hconflict, hagrees⟩
    exact ⟨x, hxs, ⟨hx, hleaves, (hcapacity x).mpr hweight⟩, hq⟩
  · rintro ⟨x, hxs, ⟨hx, hleaves, hweight⟩, hq⟩
    obtain ⟨hconflict, hagrees⟩ := (agrees_root_iff ha x).mpr hleaves
    exact ⟨hconflict, x, hxs, hx, hagrees, (hcapacity x).mp hweight, hq⟩

variable {settings settings' : Search.Settings Exact} {steps steps' : Nat}
  {result result' : SearchResult Exact}

/-- An optimal answer fits up to the tolerance, and no selection within the
    capacity is worth more than it by more than the tolerance. -/
theorem optimal_fits (ht : 0 ≤ tol) (hs : settings.tolerance = rational tol) (hm : m.IsRational)
    (h : solve steps settings m = some (.ok result)) (hstatus : result.status = .optimal) :
    ∃ x : List ℚ, result.bestObjective = some (rational (linear m.objective x)) ∧
      Fits m tol tol x ∧
        ∀ y, Fits m tol 0 y → linear m.objective y ≤ linear m.objective x + tol := by
  obtain ⟨c, ha, hrun⟩ := solve_ok hs h
  obtain ⟨best, hbest, hadmitted, hmost⟩ :=
    Search.optimal_of_serves (scheme_serves hm ha ht) ht hs hrun hstatus
  obtain ⟨x, -, hfits, rfl⟩ := (selects_root_iff ha tol _ _).mp hadmitted
  refine ⟨x, hbest, hfits, fun y hy => ?_⟩
  have hselects := (selects_root_iff ha 0 (y.map rational) _).mpr ⟨y, rfl, hy, rfl⟩
  rw [add_zero] at hselects
  exact hmost _ _ hselects

/-- One direction of `orders_agree`. -/
theorem value_le (ht : 0 ≤ tol) (hs : settings.tolerance = rational tol)
    (hs' : settings'.tolerance = rational tol) (hm : m.IsRational)
    (h : solve steps settings m = some (.ok result))
    (h' : solve steps' settings' m = some (.ok result')) (hstatus : result.status = .optimal)
    (hstatus' : result'.status = .optimal) {gap : ℚ}
    (hgap : ∀ x, Fits m tol tol x →
      ∃ y, Fits m tol 0 y ∧ linear m.objective x ≤ linear m.objective y + gap) :
    ∃ z z' : ℚ, result.bestObjective = some (rational z) ∧
      result'.bestObjective = some (rational z') ∧ z ≤ z' + (tol + gap) := by
  obtain ⟨x, hx, hfits, -⟩ := optimal_fits ht hs hm h hstatus
  obtain ⟨x', hx', -, hmost⟩ := optimal_fits ht hs' hm h' hstatus'
  obtain ⟨y, hy, hle⟩ := hgap x hfits
  have hother := hmost y hy
  refine ⟨_, _, hx, hx', ?_⟩
  linarith

/-- Two searches with the same tolerance give the same status, whatever their
    orders and limits.  If they are optimal, their values differ by no more
    than the tolerance, and by what a selection that exceeds the capacity by
    no more than the tolerance is worth more than those within it. -/
theorem orders_agree (ht : 0 ≤ tol) (hs : settings.tolerance = rational tol)
    (hs' : settings'.tolerance = rational tol) (hm : m.IsRational)
    (h : solve steps settings m = some (.ok result))
    (h' : solve steps' settings' m = some (.ok result')) :
    result.status = result'.status ∧
      ∀ gap : ℚ, (∀ x, Fits m tol tol x →
          ∃ y, Fits m tol 0 y ∧ linear m.objective x ≤ linear m.objective y + gap) →
        result.status = .optimal →
          ∃ z z' : ℚ, result.bestObjective = some (rational z) ∧
            result'.bestObjective = some (rational z') ∧ |z - z'| ≤ tol + gap := by
  obtain ⟨c, ha, hrun⟩ := solve_ok hs h
  obtain ⟨c', ha', hrun'⟩ := solve_ok hs' h'
  -- Both searches are for the one constraint of the model.
  have hsame : c = c' := by
    have hconstraints := ha.constraints.symm.trans ha'.constraints
    exact List.head_eq_of_cons_eq hconstraints
  subst hsame
  have hstatus : result.status = result'.status := by
    rw [status_of_root hrun, status_of_root hrun']
  refine ⟨hstatus, fun gap hgap hoptimal => ?_⟩
  have hoptimal' : result'.status = .optimal := hstatus ▸ hoptimal
  obtain ⟨z, z', hz, hz', hle⟩ := value_le ht hs hs' hm h h' hoptimal hoptimal' hgap
  obtain ⟨y', y, hy', hy, hge⟩ := value_le ht hs' hs hm h' h hoptimal' hoptimal hgap
  rw [hz, Option.some.injEq, rational.injEq] at hy
  rw [hz', Option.some.injEq, rational.injEq] at hy'
  refine ⟨z, z', hz, hz', abs_sub_le_iff.mpr ⟨?_, ?_⟩⟩
  · linarith
  · rw [← hy, ← hy'] at hge
    linarith

/-- Room for one of two crates. -/
def room : Constraint Exact := ⟨"room", [rational 2, rational 2], .atMost, rational 3⟩

def crates : Model Exact where
  sense := .maximize
  vars := [⟨"large", .binary, none, none⟩, ⟨"small", .binary, none, none⟩]
  objective := [rational 3, rational 2]
  constraints := [room]

theorem crates_accepts : Accepts crates room :=
  ⟨by decide, rfl, by decide, rfl, rfl, by decide, by decide⟩

/-- No selection of crates is slightly too heavy. -/
theorem crates_fit {x : List ℚ} (h : Fits crates (1 / 2) (1 / 2) x) : Fits crates (1 / 2) 0 x := by
  obtain ⟨hx, hleaves, hweight⟩ := h
  refine ⟨hx, hleaves, fun c hc => ?_⟩
  have hle := hweight c hc
  obtain rfl : c = room := List.mem_singleton.mp hc
  unfold linear room at hle ⊢
  simp only [List.length_cons, List.length_nil, Finset.sum_range_succ, Finset.sum_range_zero,
    coordinate, List.getD_cons_zero, List.getD_cons_succ, toRat_rational] at hle ⊢
  -- Each crate weighs two, so that one fits, and both exceed the room by one.
  rcases hx.getD 0 with hlarge | hlarge <;> rcases hx.getD 1 with hsmall | hsmall <;> linarith

theorem crates_agree : ∃ (result result' : SearchResult Exact) (z z' : ℚ),
    solve 20 { tolerance := rational (1 / 2) } crates = some (.ok result) ∧
      solve 20 { tolerance := rational (1 / 2), traversal := .depthFirst } crates =
        some (.ok result') ∧
      result.status = .optimal ∧ result'.status = .optimal ∧
      result.bestObjective = some (rational z) ∧ result'.bestObjective = some (rational z') ∧
      |z - z'| ≤ 1 / 2 := by
  -- The items stand in the order of decision, which spares evaluating the sort.
  have hproblem : problem (rational (1 / 2)) crates room = _ :=
    ofCandidates_of_sorted rfl (by decide +kernel)
  have hrun : (solve 20 { tolerance := rational (1 / 2) } crates).map
      (fun answer => answer.toOption.map (·.status)) = some (some .optimal) := by
    rw [solve_of_accepts crates_accepts, hproblem]
    decide +kernel
  have hrun' : (solve 20 { tolerance := rational (1 / 2), traversal := .depthFirst } crates).map
      (fun answer => answer.toOption.map (·.status)) = some (some .optimal) := by
    rw [solve_of_accepts crates_accepts, hproblem]
    decide +kernel
  cases h : solve 20 { tolerance := rational (1 / 2) } crates with
  | none => rw [h] at hrun; cases hrun
  | some answer =>
    rw [h] at hrun
    cases answer with
    | error failure => cases hrun
    | ok result =>
      cases h' : solve 20 { tolerance := rational (1 / 2), traversal := .depthFirst } crates with
      | none => rw [h'] at hrun'; cases hrun'
      | some answer' =>
        rw [h'] at hrun'
        cases answer' with
        | error failure => cases hrun'
        | ok result' =>
          have hoptimal : result.status = .optimal := Option.some.inj (Option.some.inj hrun)
          obtain ⟨hstatus, hvalues⟩ := orders_agree (by norm_num) rfl rfl (by decide) h h'
          obtain ⟨z, z', hz, hz', hle⟩ := hvalues 0
            (fun x hx => ⟨x, crates_fit hx, (add_zero _).ge⟩) hoptimal
          rw [add_zero] at hle
          exact ⟨result, result', z, z', rfl, rfl, hoptimal, hstatus ▸ hoptimal, hz, hz', hle⟩

/-- A sack that an ingot fills. -/
def sack : Constraint Exact :=
  ⟨"weight", [rational 10, rational 1, rational 10], .atMost, rational 10⟩

/-- An ingot, a ring that goes on top of it within the tolerance, and a statue
    of nearly the same worth. -/
def treasure : Model Exact where
  sense := .maximize
  vars := [⟨"ingot", .binary, none, none⟩, ⟨"ring", .binary, none, none⟩,
    ⟨"statue", .binary, none, none⟩]
  objective := [rational 1000, rational 95, rational 904]
  constraints := [sack]

theorem treasure_accepts : Accepts treasure sack :=
  ⟨by decide, rfl, by decide, rfl, rfl, by decide, by decide⟩

/-- Breadth first the ingot and the ring are found.  Depth first the statue and
    the ring are found before the ingot is examined, and prune it, although
    the ring could still be added. -/
theorem treasure_ordered :
    (solve 40 { tolerance := rational 1 } treasure).map
        (fun answer => answer.toOption.map fun r => (r.status, r.bestObjective)) =
      some (some (.optimal, some (rational 1095))) ∧
    (solve 40 { tolerance := rational 1, traversal := .depthFirst } treasure).map
        (fun answer => answer.toOption.map fun r => (r.status, r.bestObjective)) =
      some (some (.optimal, some (rational 999))) ∧
    ¬ |(1095 : ℚ) - 999| ≤ 1 := by
  have hproblem : problem (rational 1) treasure sack = _ :=
    ofCandidates_of_sorted rfl (by decide +kernel)
  refine ⟨?_, ?_, by norm_num⟩
  · rw [solve_of_accepts treasure_accepts, hproblem]
    decide +kernel
  · rw [solve_of_accepts treasure_accepts, hproblem]
    decide +kernel

end orders

end Knapsack

end IntegerProgramming
