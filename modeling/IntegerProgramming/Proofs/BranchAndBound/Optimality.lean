import IntegerProgramming.Proofs.Model.Relaxation
import IntegerProgramming.Proofs.Simplex.Optimality
import IntegerProgramming.Proofs.Search.Soundness
import IntegerProgramming.Proofs.BranchAndBound.Splitting

/-! # Branch and bound solves integer programs

    Without tolerance the scheme over relaxations is sound: the completions of
    a node are the whole points of its model, the relaxation is solved exactly,
    and a split loses no whole point.  The search then finds a best whole point
    if there is one (`result_correct`).

    Only the root can be unbounded, because a node that is split has a best
    point and its children have fewer points than it. -/

namespace IntegerProgramming

open Exact

/-! ## What examining a node shows -/

/-- What an evaluation says about the points of a model. -/
def Evaluation.Describes (node : Model Exact) : Evaluation Exact → Prop
  | .infeasible _ => ∀ x : List ℚ, ¬ node.IsFeasible (x.map rational) 0
  | .unbounded => ∀ M : ℚ, ∃ x : List ℚ, node.IsFeasible (x.map rational) 0 ∧
      M < node.sense.merit (linear node.objective x)
  | .bounded b => ∃ x : List ℚ, b.values = x.map rational ∧
      b.bound = rational (linear node.objective x) ∧
      b.objective = rational (linear node.objective x) ∧
      node.IsFeasible (x.map rational) 0 ∧
      ∀ y : List ℚ, node.IsFeasible (y.map rational) 0 →
        node.sense.merit (linear node.objective y) ≤ node.sense.merit (linear node.objective x)

namespace BranchAndBound

variable {e : BranchAndBound Exact} {m node : Model Exact}

/-- A relaxation that is solved exactly describes the points of its node. -/
theorem inspect_describes (hsearch : e.search.tolerance = 0) (hsimplex : e.simplex.tolerance = 0)
    (hn : node.IsRational) (hal : node.Aligned) {evaluation : Evaluation Exact}
    (h : (e.inspect node).answer = .ok evaluation) : evaluation.Describes node := by
  unfold inspect at h
  rw [hsearch] at h
  cases hrelax : node.relax 0 with
  | error reason =>
    rw [hrelax] at h
    cases h
    exact Model.relax_error hn hal hrelax
  | ok relaxed =>
    -- The relaxation has the points of the node, so its solution carries over.
    obtain rfl := Model.relax_eq_relaxation hrelax
    have hrational : (node.relaxation 0).IsRational := hn.forms.relaxation
    have hfeasible := hn.relaxation_feasible hal
    rw [hrelax] at h
    cases hsolve : e.simplex.solve (node.relaxation 0) with
    | error failure =>
      have hanswer : (e.simplex.report (node.relaxation 0)).answer = .error failure := hsolve
      simp only [hanswer] at h
      cases h
    | ok sol =>
      have hanswer : (e.simplex.report (node.relaxation 0)).answer = .ok sol := hsolve
      simp only [hanswer, Except.map] at h
      have hdefinite := Simplex.solve_status hsolve
      cases hstatus : sol.status with
      | error => exact absurd hstatus hdefinite
      | optimal =>
        obtain ⟨x, hvalues, hx, hobjective, hbest⟩ :=
          Simplex.solve_optimal hsimplex hrational hsolve hstatus
        rw [hstatus, hobjective] at h
        cases h
        rw [hrational.evaluate_eq]
        exact ⟨x, hvalues, rfl, rfl, (hfeasible x).mp hx,
          fun y hy => hbest y ((hfeasible y).mpr hy)⟩
      | infeasible =>
        rw [hstatus] at h
        cases h
        intro x hx
        exact Simplex.solve_infeasible hsimplex hrational hsolve hstatus x ((hfeasible x).mpr hx)
      | unbounded =>
        rw [hstatus] at h
        cases h
        intro M
        obtain ⟨x, hx, hmerit⟩ := Simplex.solve_unbounded hsimplex hrational hsolve hstatus M
        exact ⟨x, (hfeasible x).mp hx, hmerit⟩

/-! ## Nodes -/

/-- What the models at the nodes of a search share with the given one. -/
structure Below (m node : Model Exact) : Prop where
  isRational : node.IsRational
  aligned : node.Aligned
  vars : node.vars = m.vars
  objective : node.objective = m.objective
  sense : node.sense = m.sense

/-- The completions of a node: its whole points, with the objective of the
    given model. -/
def Completes (m node : Model Exact) (xs : List Exact) (q : ℚ) : Prop :=
  ∃ x : List ℚ, xs = x.map rational ∧ node.IsFeasible (x.map rational) 0 ∧ m.Whole x ∧
    q = linear m.objective x

theorem Below.withDecision (h : Below m node) {j : Nat} {b : Branching Exact}
    (hb : b.value.IsRational) : Below m (node.withDecision j b) where
  isRational := h.isRational.withDecision hb j
  aligned := h.aligned.withDecision j b
  vars := h.vars
  objective := h.objective
  sense := h.sense

section soundness

variable (hsearch : e.search.tolerance = 0) (hsimplex : e.simplex.tolerance = 0)

include hsearch hsimplex

theorem Below.describes (h : Below m node) {evaluation : Evaluation Exact}
    (hevaluate : (e.scheme m).evaluate node = .ok evaluation) : evaluation.Describes node :=
  inspect_describes hsearch hsimplex h.isRational h.aligned hevaluate

/-- A split at a rational value gives two decisions on one variable, with
    whole numbers on both sides. -/
theorem Below.branch (h : Below m node) {b : Bounded Exact}
    {lower upper : Branching Exact × Model Exact}
    (hevaluate : (e.scheme m).evaluate node = .ok (.bounded b))
    (hbranch : (e.scheme m).branch node b = .ok (lower, upper)) :
    ∃ j ∈ m.integralIndices, ∃ (q : ℚ) (down up : Branching Exact),
      down.direction = .down ∧ down.value = rational ⌊q⌋ ∧
      up.direction = .up ∧ up.value = rational ⌈q⌉ ∧
      lower.2 = node.withDecision j down ∧ upper.2 = node.withDecision j up := by
  obtain ⟨j, v, hv, hintegral, -, rfl, rfl⟩ := branch_ok hbranch
  obtain ⟨x, hvalues, -⟩ := h.describes hsearch hsimplex hevaluate
  have hvalue : b.values.getD j 0 = rational (x.getD j 0) := by
    rw [hvalues, getD_map_rational]
  rw [hvalue, floor_rational, ceil_rational]
  exact ⟨j, Model.mem_integralIndices.mpr ⟨v, hv, hintegral⟩, x.getD j 0, _, _, rfl, rfl, rfl,
    rfl, rfl, rfl⟩

theorem Below.child (h : Below m node) {child : Model Exact}
    (hchild : (e.scheme m).IsChild node child) : Below m child := by
  obtain ⟨b, lower, upper, hevaluate, -, hbranch, hside⟩ := hchild
  obtain ⟨j, -, q, down, up, -, hdown, -, hup, hlower, hupper⟩ :=
    h.branch hsearch hsimplex hevaluate hbranch
  rcases hside with rfl | rfl
  · rw [hlower]
    exact h.withDecision (isRational_of_eq hdown)
  · rw [hupper]
    exact h.withDecision (isRational_of_eq hup)

theorem below_of_reachable (hm : m.IsRational) (hal : m.Aligned)
    (h : (e.scheme m).Reachable m node) : Below m node := by
  induction h with
  | refl => exact ⟨hm, hal, rfl, rfl, rfl⟩
  | tail _ hchild ih => exact ih.child hsearch hsimplex hchild

/-- Splitting a node loses no whole point and adds none. -/
theorem Below.completes_split (h : Below m node) {b : Bounded Exact}
    {lower upper : Branching Exact × Model Exact}
    (hevaluate : (e.scheme m).evaluate node = .ok (.bounded b))
    (hbranch : (e.scheme m).branch node b = .ok (lower, upper)) (xs : List Exact) (q : ℚ) :
    Completes m node xs q ↔ Completes m lower.2 xs q ∨ Completes m upper.2 xs q := by
  obtain ⟨j, hj, v, down, up, hdirdown, hdown, hdirup, hup, hlower, hupper⟩ :=
    h.branch hsearch hsimplex hevaluate hbranch
  have hjn : j < node.vars.length := h.vars ▸ Model.lt_of_mem_integralIndices hj
  have hpermitsdown (x : List ℚ) : down.Permits (x.getD j 0) ↔ x.getD j 0 ≤ ⌊v⌋ := by
    unfold Branching.Permits
    rw [hdirdown, hdown]
    rfl
  have hpermitsup (x : List ℚ) : up.Permits (x.getD j 0) ↔ ⌈v⌉ ≤ x.getD j 0 := by
    unfold Branching.Permits
    rw [hdirup, hup]
    rfl
  rw [hlower, hupper]
  unfold Completes
  simp only [h.isRational.feasible_withDecision (isRational_of_eq hdown) hjn,
    h.isRational.feasible_withDecision (isRational_of_eq hup) hjn, hpermitsdown, hpermitsup]
  constructor
  · rintro ⟨x, hxs, hx, hwhole, hq⟩
    -- The value at `j` is whole, so it is on one side of the split.
    obtain ⟨k, hk⟩ := hwhole j hj
    rw [← exists_or]
    refine ⟨x, ?_⟩
    rw [hk]
    rcases whole_le_floor_or_ceil_le k v with hle | hle
    · exact .inl ⟨hxs, ⟨hx, hle⟩, hwhole, hq⟩
    · exact .inr ⟨hxs, ⟨hx, hle⟩, hwhole, hq⟩
  · rintro (⟨x, hxs, ⟨hx, -⟩, hrest⟩ | ⟨x, hxs, ⟨hx, -⟩, hrest⟩)
    · exact ⟨x, hxs, hx, hrest⟩
    · exact ⟨x, hxs, hx, hrest⟩

/-- A child has no points that its parent does not have. -/
theorem Below.child_feasible (h : Below m node) {child : Model Exact}
    (hchild : (e.scheme m).IsChild node child) {x : List ℚ}
    (hx : child.IsFeasible (x.map rational) 0) : node.IsFeasible (x.map rational) 0 := by
  obtain ⟨b, lower, upper, hevaluate, -, hbranch, hside⟩ := hchild
  obtain ⟨j, hj, v, down, up, -, hdown, -, hup, hlower, hupper⟩ :=
    h.branch hsearch hsimplex hevaluate hbranch
  have hjn : j < node.vars.length := h.vars ▸ Model.lt_of_mem_integralIndices hj
  rcases hside with rfl | rfl
  · rw [hlower, h.isRational.feasible_withDecision (isRational_of_eq hdown) hjn] at hx
    exact hx.1
  · rw [hupper, h.isRational.feasible_withDecision (isRational_of_eq hup) hjn] at hx
    exact hx.1

/-- The scheme over relaxations is sound. -/
theorem scheme_sound (hm : m.IsRational) (hal : m.Aligned) :
    (e.scheme m).Sound m (Completes m) where
  infeasible hn hevaluate xs q := by
    rintro ⟨x, -, hx, -⟩
    have h := below_of_reachable hsearch hsimplex hm hal hn
    exact h.describes hsearch hsimplex hevaluate x hx
  bound {node b} hn hevaluate xs q := by
    rintro ⟨y, -, hy, -, rfl⟩
    have h := below_of_reachable hsearch hsimplex hm hal hn
    obtain ⟨x, -, hbound, -, -, hbest⟩ := h.describes hsearch hsimplex hevaluate
    rw [hbound, Sense.atLeastAsGood_iff_merit, ← h.objective]
    rw [h.sense] at hbest
    exact hbest y hy
  complete {node b} hn hevaluate hcomplete := by
    have h := below_of_reachable hsearch hsimplex hm hal hn
    obtain ⟨x, hvalues, -, hobjective, hx, hbest⟩ := h.describes hsearch hsimplex hevaluate
    have hwhole : m.Whole x := by
      intro j hj
      have hjwhole := of_decide_eq_true (List.all_eq_true.mp hcomplete j hj)
      rw [hvalues, getD_map_rational, hsearch] at hjwhole
      exact exists_int_of_isWhole hjwhole
    rw [h.objective] at hobjective
    rw [h.objective, h.sense] at hbest
    refine ⟨_, hobjective, ⟨x, hvalues, hx, hwhole, rfl⟩, ?_⟩
    rintro ys p ⟨y, -, hy, -, rfl⟩
    exact hbest y hy
  split hn hevaluate _ hbranch xs q :=
    (below_of_reachable hsearch hsimplex hm hal hn).completes_split hsearch hsimplex hevaluate
      hbranch xs q
  unbounded {node child} hn hchild hevaluate := by
    -- The parent has a best point, and the child would have better ones.
    have h := below_of_reachable hsearch hsimplex hm hal hn
    have hbelow := h.child hsearch hsimplex hchild
    obtain ⟨b, -, -, hparent, -⟩ := id hchild
    obtain ⟨x, -, -, -, -, hbest⟩ := h.describes hsearch hsimplex hparent
    obtain ⟨y, hy, hbetter⟩ := hbelow.describes hsearch hsimplex hevaluate
      (node.sense.merit (linear node.objective x))
    have hle := hbest y (h.child_feasible hsearch hsimplex hchild hy)
    rw [hbelow.sense, hbelow.objective, ← h.sense, ← h.objective] at hbetter
    exact absurd hbetter (not_lt.mpr hle)

end soundness

/-! ## Answers -/

theorem solve_ok {steps : Nat} {result : SearchResult Exact}
    (h : e.solve steps m = some (.ok result)) :
    m.Aligned ∧ Search.run steps (e.scheme m) m e.search = some (.ok result) := by
  unfold solve report at h
  cases hal : m.misalignment with
  | some cause => rw [hal] at h; cases h
  | none =>
    rw [hal] at h
    refine ⟨hal, ?_⟩
    dsimp only at h
    split at h
    · exact h
    · cases h

/-- Whatever the order of the search and its limits, an answer of branch and
    bound is right. -/
theorem result_correct (hsearch : e.search.tolerance = 0) (hsimplex : e.simplex.tolerance = 0)
    (hm : m.IsRational) {steps : Nat} {result : SearchResult Exact}
    (h : e.solve steps m = some (.ok result)) :
    (result.status = .optimal → ∃ x : List ℚ, result.bestValues = x.map rational ∧
        m.IsFeasible (x.map rational) 0 ∧ m.Whole x ∧
        result.bestObjective = some (m.evaluate (x.map rational)) ∧
        ∀ y : List ℚ, m.IsFeasible (y.map rational) 0 → m.Whole y →
          ¬ m.sense.Better (m.evaluate (y.map rational)) (m.evaluate (x.map rational))) ∧
      (result.status = .infeasible →
        ∀ y : List ℚ, m.IsFeasible (y.map rational) 0 → ¬ m.Whole y) ∧
      (result.status = .unbounded → ∀ M : ℚ, ∃ y : List ℚ, m.IsFeasible (y.map rational) 0 ∧
        m.sense.Better (m.evaluate (y.map rational)) (rational M)) := by
  obtain ⟨hal, hrun⟩ := solve_ok h
  have hsound := scheme_sound hsearch hsimplex hm hal
  refine ⟨fun hstatus => ?_, fun hstatus y hy hwhole => ?_, fun hstatus M => ?_⟩
  · obtain ⟨best, hbest, ⟨x, hvalues, hx, hwhole, rfl⟩, hmost⟩ :=
      Search.run_optimal hsound le_rfl hsearch hrun hstatus
    refine ⟨x, hvalues, hx, hwhole, by rw [hbest, hm.evaluate_eq], fun y hy hywhole => ?_⟩
    rw [hm.evaluate_eq, hm.evaluate_eq, Sense.better_iff_merit, not_lt]
    have hle := hmost _ _ ⟨y, rfl, hy, hywhole, rfl⟩
    rwa [add_zero] at hle
  · exact Search.run_infeasible hsound le_rfl hsearch hrun hstatus _ _ ⟨y, rfl, hy, hwhole, rfl⟩
  · have hunbounded := Search.run_unbounded hsound le_rfl hsearch hrun hstatus
    obtain ⟨y, hy, hmerit⟩ :=
      inspect_describes hsearch hsimplex hm hal hunbounded (m.sense.merit M)
    refine ⟨y, hy, ?_⟩
    rw [hm.evaluate_eq, Sense.better_iff_merit]
    exact hmerit

/-- A program whose relaxation has a fractional optimum. -/
def paints : Model Exact where
  sense := .maximize
  vars := [⟨"exterior", .integer, none, none⟩, ⟨"interior", .integer, none, none⟩]
  objective := [rational 5, rational 4]
  constraints := [⟨"material", [rational 6, rational 4], .atMost, rational 24⟩,
    ⟨"labour", [rational 1, rational 2], .atMost, rational 6⟩]

/-- Branch and bound without tolerance, breadth first. -/
def exactSearch : BranchAndBound Exact :=
  ⟨{ tolerance := 0, snapshots := false }, { tolerance := 0 }⟩

theorem paints_solved : ∃ (result : SearchResult Exact) (x : List ℚ),
    exactSearch.solve 40 paints = some (.ok result) ∧ result.bestValues = x.map rational ∧
      paints.Whole x ∧ paints.evaluate (x.map rational) = rational 20 ∧
      ∀ y : List ℚ, paints.IsFeasible (y.map rational) 0 → paints.Whole y →
        ¬ rational 20 < paints.evaluate (y.map rational) := by
  have hrun : (exactSearch.solve 40 paints).map
      (fun answer => answer.toOption.map fun r => (r.status, r.bestObjective)) =
        some (some (.optimal, some (rational 20))) := by
    decide +kernel
  cases h : exactSearch.solve 40 paints with
  | none => rw [h] at hrun; cases hrun
  | some answer =>
    cases answer with
    | error failure => rw [h] at hrun; cases hrun
    | ok result =>
      rw [h, Option.map_some, Option.some.injEq] at hrun
      obtain ⟨hstatus, hobjective⟩ := Prod.mk.inj (Option.some.inj hrun)
      obtain ⟨x, hvalues, -, hwhole, hbest, hmost⟩ :=
        (result_correct rfl rfl (by decide) h).1 hstatus
      have htwenty : paints.evaluate (x.map rational) = rational 20 :=
        Option.some.inj (hbest.symm.trans hobjective)
      rw [htwenty] at hmost
      exact ⟨result, x, rfl, hvalues, hwhole, htwenty, hmost⟩

end BranchAndBound

end IntegerProgramming
