import IntegerProgramming.Proofs.BranchAndBound.Replay
import IntegerProgramming.Proofs.Number.Compared

/-! # A model is refused at the root or never

    The simplex method takes continuous variables from zero up and upper bounds
    on linear forms, and it would refuse the lower bounds that branching adds
    as constraints.  It never sees them: the constraint of a decision is about
    one variable, so the relaxation folds it into the range of that variable.
    Folding moves the lower end of a range upwards, and what was zero or more
    stays so; all other constraints reach the simplex method as they are.

    So if the root has children, its relaxation was taken, and the relaxations
    of all nodes below are taken as well (`Takeable.withDecision`).  Only
    comparisons are used, and the values at which nodes are split may be
    anything: nothing depends on how the arithmetic rounds. -/

namespace IntegerProgramming

open Scalar

variable {α : Type} [Scalar α]

/-! ## What is refused -/

/-- A variable that the simplex method does not refuse. -/
structure Variable.Accepted (v : Variable α) : Prop where
  kind : v.kind = .continuous
  finite : IsFinite v.lowerBound
  nonneg : ¬ v.lowerBound < 0

/-- A constraint that the simplex method does not refuse. -/
def Constraint.Accepted (c : Constraint α) : Prop := c.relation = .atMost ∧ ¬ c.rhs < 0

theorem Variable.Accepted.origin {v : Variable α} (h : v.Accepted) (τ : α)
    (cause : Unsupported α) : v.origin τ ≠ .error (.unsupported cause) := by
  unfold Variable.origin
  rw [if_neg (not_not.mpr h.kind), if_neg (not_or.mpr ⟨not_not.mpr h.finite, h.nonneg⟩)]
  split
  · exact nofun
  · exact nofun

theorem Constraint.Accepted.admit {c : Constraint α} (h : c.Accepted) :
    Constraint.admit c = .ok () := by
  unfold Constraint.admit
  rw [if_neg (not_not.mpr h.1), if_neg h.2]

theorem origins_accepted {τ : α} {vs : List (Variable α)} (h : ∀ v ∈ vs, v.Accepted)
    (cause : Unsupported α) : vs.mapM (Variable.origin τ) ≠ .error (.unsupported cause) := by
  induction vs with
  | nil => exact nofun
  | cons v vs ih =>
    obtain ⟨hv, hvs⟩ := List.forall_mem_cons.mp h
    rw [List.mapM_cons]
    cases horigin : v.origin τ with
    | error refusal =>
      intro herror
      have hrefusal : refusal = .unsupported cause := Except.error.inj herror
      exact hv.origin τ cause (hrefusal ▸ horigin)
    | ok l =>
      cases hrest : vs.mapM (Variable.origin τ) with
      | error refusal =>
        intro herror
        have hrefusal : refusal = .unsupported cause := Except.error.inj herror
        exact ih hvs (hrefusal ▸ hrest)
      | ok ls => exact nofun

theorem admits_accepted {cs : List (Constraint α)} (h : ∀ c ∈ cs, c.Accepted) :
    cs.forM Constraint.admit = .ok () := by
  induction cs with
  | nil => rfl
  | cons c cs ih =>
    obtain ⟨hc, hcs⟩ := List.forall_mem_cons.mp h
    rw [admits_cons, hc.admit]
    exact ih hcs

/-- The simplex method refuses no model whose variables and constraints it
    accepts. -/
theorem Model.standardForm_accepted {m : Model α} (τ : α) (hvars : ∀ v ∈ m.vars, v.Accepted)
    (hconstraints : ∀ c ∈ m.constraints, c.Accepted) (cause : Unsupported α) :
    m.standardForm τ ≠ .error (.unsupported cause) := by
  unfold Model.standardForm
  cases horigins : m.vars.mapM (Variable.origin τ) with
  | error refusal =>
    intro herror
    have hrefusal : refusal = .unsupported cause := Except.error.inj herror
    exact origins_accepted hvars cause (hrefusal ▸ horigins)
  | ok lower =>
    rw [admits_accepted hconstraints]
    exact nofun

/-! ## Ranges -/

/-- The lower bound of a continuous variable that was relaxed is the lower end
    of its range, or zero in place of an infinite one. -/
theorem Variable.lowerBound_relaxed {v : Variable α} {r : Range α}
    (h : (v.relaxed r).kind = .continuous) :
    (v.relaxed r).lowerBound = if IsFinite r.lower then r.lower else 0 := by
  have hlower : (v.relaxed r).lower = finiteBound r.lower := rfl
  unfold lowerBound
  rw [h, hlower]
  unfold finiteBound
  split_ifs
  · rfl
  · rfl

/-- A whole variable is relaxed to a continuous one. -/
theorem Variable.kind_relaxed {v : Variable α} (h : v.kind.isIntegral = true) (r : Range α) :
    (v.relaxed r).kind = .continuous := by
  refine if_neg fun hfree => ?_
  rw [hfree.1] at h
  cases h

/-- What a relaxation is made of. -/
theorem Model.relax_ok {m relaxed : Model α} {τ : α} (h : m.relax τ = .ok relaxed) :
    relaxed.vars = (m.vars.zip (m.foldedRanges τ)).map (fun vr => vr.1.relaxed vr.2) ∧
      relaxed.constraints = m.constraints.filter fun c => (c.single? τ).isNone := by
  rw [relax_eq_relaxation h]
  exact ⟨rfl, rfl⟩

section compared

variable [Compared α] {v : Variable α} {r : Range α}

/-- Cutting a range from below moves its lower end upwards. -/
theorem Variable.Accepted.capBelow (hv : v.kind.isIntegral = true) (hlow : -infinity < r.lower)
    (h : (v.relaxed r).Accepted) (limit : α) : (v.relaxed (r.capBelow limit)).Accepted := by
  have hkind := kind_relaxed hv (r.capBelow limit)
  have hlower := lowerBound_relaxed hkind
  by_cases hfinite : IsFinite (r.capBelow limit).lower
  · rw [if_pos hfinite] at hlower
    refine ⟨hkind, hlower ▸ hfinite, ?_⟩
    rw [hlower]
    have hold := lowerBound_relaxed h.kind
    have hdefined := (Compared.defined_of_lt hlow).2
    rcases Compared.larger_cases hdefined limit with hfirst | ⟨hsecond, -, hle⟩
    · -- The range is not cut.
      have hsame : (r.capBelow limit).lower = r.lower := hfirst
      rw [hsame] at hfinite ⊢
      rw [if_pos hfinite] at hold
      exact hold ▸ h.nonneg
    · have hcut : (r.capBelow limit).lower = limit := hsecond
      rw [hcut]
      intro hneg
      have hlowneg : r.lower < 0 := Compared.lt_of_le_of_lt hdefined hle hneg
      have hbelow : r.lower < infinity := Compared.lt_of_lt_of_le
        (Compared.defined_of_lt Compared.finite_zero.2).2 hlowneg
        (Compared.le_of_lt Compared.finite_zero.2)
      rw [if_pos ⟨hlow, hbelow⟩] at hold
      exact h.nonneg (hold ▸ hlowneg)
  · rw [if_neg hfinite] at hlower
    refine ⟨hkind, ?_, ?_⟩
    · rw [hlower]
      exact Compared.finite_zero
    · rw [hlower]
      exact Compared.lt_irrefl 0

/-- A range that starts somewhere is not opened downwards by a restriction. -/
theorem Range.lower_restrict (h : -infinity < r.lower) (relation : Relation) (a rhs : α) :
    -infinity < (r.restrict relation a rhs).lower := by
  rcases r.restrict_eq relation a rhs with heq | heq | heq
  · rw [heq]
    exact h
  · rw [heq]
    exact Compared.lt_larger h _
  · rw [heq]
    exact Compared.lt_larger h _

/-- A restriction leaves a whole variable accepted; only its lower end counts. -/
theorem Variable.Accepted.restrict (hv : v.kind.isIntegral = true) (hlow : -infinity < r.lower)
    (h : (v.relaxed r).Accepted) (relation : Relation) (a rhs : α) :
    (v.relaxed (r.restrict relation a rhs)).Accepted := by
  have habove : ∀ {r : Range α} (limit : α), (v.relaxed r).Accepted →
      (v.relaxed (r.capAbove limit)).Accepted :=
    fun _ hr => ⟨hr.kind, hr.finite, hr.nonneg⟩
  rcases r.restrict_eq relation a rhs with heq | heq | heq
  · rw [heq]
    exact habove _ h
  · rw [heq]
    exact h.capBelow hv hlow _
  · rw [heq]
    exact habove _ (h.capBelow hv hlow _)

/-! ## Given bounds -/

/-- A given lower bound is finite, and so is a given upper bound. -/
def Variable.FiniteBounds (v : Variable α) : Prop :=
  (∀ l ∈ v.lower, IsFinite l) ∧ ∀ u ∈ v.upper, IsFinite u

instance (v : Variable α) : Decidable v.FiniteBounds := inferInstanceAs (Decidable (_ ∧ _))

/-- A whole variable with finite bounds starts somewhere. -/
theorem Variable.FiniteBounds.lower_range (h : v.FiniteBounds) (hv : v.kind.isIntegral = true) :
    -infinity < v.range.lower := by
  have hzero : -infinity < (0 : α) := Compared.finite_zero.1
  show -infinity < v.lowerBound
  unfold lowerBound
  cases hlower : v.lower with
  | none =>
    cases hkind : v.kind with
    | unrestricted =>
      rw [hkind] at hv
      cases hv
    | _ => exact hzero
  | some l =>
    have hl : -infinity < l := (h.1 l hlower).1
    cases hkind : v.kind with
    | binary => exact Compared.lt_larger hl 0
    | _ => exact hl

/-- Every whole variable of the list has a range that starts somewhere. -/
def Grounded (vars : List (Variable α)) (ranges : List (Range α)) : Prop :=
  ∀ (j : Nat) (v : Variable α) (r : Range α), vars[j]? = some v → ranges[j]? = some r →
    v.kind.isIntegral = true → -infinity < r.lower

theorem Grounded.modify {vars : List (Variable α)} {ranges : List (Range α)}
    (h : Grounded vars ranges) (j : Nat) (relation : Relation) (a rhs : α) :
    Grounded vars (ranges.modify j (·.restrict relation a rhs)) := by
  intro i v r hv hr hintegral
  rw [List.getElem?_modify, Option.map_eq_map, Option.map_eq_some_iff] at hr
  obtain ⟨r', hr', rfl⟩ := hr
  have hlow := h i v r' hv hr' hintegral
  split
  · exact Range.lower_restrict hlow relation a rhs
  · exact hlow

theorem Grounded.foldl {vars : List (Variable α)} {ranges : List (Range α)}
    (h : Grounded vars ranges) (τ : α) (cs : List (Constraint α)) :
    Grounded vars (cs.foldl (Constraint.fold τ) ranges) := by
  induction cs generalizing ranges with
  | nil => exact h
  | cons c cs ih =>
    apply ih
    unfold Constraint.fold
    split
    · exact h.modify _ _ _ _
    · exact h

theorem Model.grounded {m : Model α} (h : ∀ v ∈ m.vars, v.FiniteBounds) (τ : α) :
    Grounded m.vars (m.foldedRanges τ) := by
  refine Grounded.foldl (fun j v r hv hr hintegral => ?_) τ m.constraints
  rw [List.getElem?_map, hv] at hr
  cases hr
  exact (h v (List.mem_of_getElem? hv)).lower_range hintegral

/-! ## Nodes -/

/-- A model whose relaxation the simplex method accepts, and those of all nodes
    below it. -/
structure Model.Takeable (τ : α) (m : Model α) : Prop where
  grounded : Grounded m.vars (m.foldedRanges τ)
  vars : ∀ (j : Nat) (v : Variable α) (r : Range α), m.vars[j]? = some v →
    (m.foldedRanges τ)[j]? = some r → (v.relaxed r).Accepted
  constraints : ∀ c ∈ m.constraints, c.single? τ = none → c.Accepted

omit [Compared α] in
/-- The relaxation of a takeable model is not refused. -/
theorem Model.Takeable.relax {m relaxed : Model α} {τ : α} (h : m.Takeable τ)
    (hrelax : m.relax τ = .ok relaxed) (σ : α) (cause : Unsupported α) :
    relaxed.standardForm σ ≠ .error (.unsupported cause) := by
  obtain ⟨hvars, hconstraints⟩ := Model.relax_ok hrelax
  apply Model.standardForm_accepted
  · intro v hv
    rw [hvars, List.mem_map] at hv
    obtain ⟨⟨u, r⟩, hmem, rfl⟩ := hv
    obtain ⟨j, hj⟩ := List.mem_iff_getElem?.mp hmem
    rw [List.getElem?_zip_eq_some] at hj
    exact h.vars j u r hj.1 hj.2
  · intro c hc
    rw [hconstraints, List.mem_filter, Option.isNone_iff_eq_none] at hc
    exact h.constraints c hc.1 hc.2

/-- A model whose relaxation has a standard form is takeable. -/
theorem Model.takeable_of_standardForm {m relaxed : Model α} {τ σ : α}
    (hfinite : ∀ v ∈ m.vars, v.FiniteBounds) (hrelax : m.relax τ = .ok relaxed)
    {p : Prepared α relaxed.vars.length} (h : relaxed.standardForm σ = .ok p) : m.Takeable τ := by
  obtain ⟨hadmitted, -⟩ := Model.standardForm_ok h
  obtain ⟨hvars, hconstraints⟩ := Model.relax_ok hrelax
  refine ⟨Model.grounded hfinite τ, fun j v r hv hr => ?_, fun c hc hsingle => ?_⟩
  · have hmem : v.relaxed r ∈ relaxed.vars := by
      rw [hvars, List.mem_map]
      exact ⟨(v, r), List.mem_of_getElem? (List.getElem?_zip_eq_some.mpr ⟨hv, hr⟩), rfl⟩
    obtain ⟨hkind, hlow, hnonneg, -⟩ := hadmitted.vars _ hmem
    exact ⟨hkind, hlow, hnonneg⟩
  · apply hadmitted.constraints
    rw [hconstraints, List.mem_filter, hsingle]
    exact ⟨hc, rfl⟩

/-- A decision on a whole variable is folded into its range. -/
theorem Model.Takeable.withDecision {m : Model α} {τ : α} (h : m.Takeable τ) (hzero : 0 ≤ τ)
    (hone : τ < 1) {j : Nat} {v : Variable α} (hv : m.vars[j]? = some v)
    (hintegral : v.kind.isIntegral = true) (b : Branching α) :
    (m.withDecision j b).Takeable τ := by
  have hdistinct := Compared.lt_abs_one hzero hone
  have hnegligible := Compared.not_lt_abs_zero hzero hone
  have hj : j < m.vars.length := (List.getElem?_eq_some_iff.mp hv).1
  have hranges := Model.foldedRanges_withDecision hdistinct hnegligible hj b
  refine ⟨?_, fun i u r hu hr => ?_, fun c hc hsingle => ?_⟩
  · rw [hranges]
    exact h.grounded.modify _ _ _ _
  · rw [hranges, List.getElem?_modify, Option.map_eq_map, Option.map_eq_some_iff] at hr
    obtain ⟨r', hr', rfl⟩ := hr
    have haccepted := h.vars i u r' hu hr'
    split
    · rename_i hij
      subst hij
      obtain rfl : u = v := Option.some.inj (hu.symm.trans hv)
      exact haccepted.restrict hintegral (h.grounded j u r' hu hr' hintegral) _ _ _
    · exact haccepted
  · -- The new constraint is about one variable, and the others were there before.
    rcases List.mem_append.mp hc with hold | hnew
    · exact h.constraints c hold hsingle
    · obtain rfl := List.mem_singleton.mp hnew
      rw [Constraint.single?_of_unitRow hdistinct hnegligible
        (b.coefficients_constraint _ _) hj] at hsingle
      cases hsingle

end compared

/-! ## Searches -/

namespace BranchAndBound

variable {e : BranchAndBound α} {m node : Model α}

/-- Only a model whose relaxation has a standard form is bounded. -/
theorem standardForm_of_bounded {b : Bounded α}
    (h : (e.scheme m).evaluate node = .ok (.bounded b)) :
    ∃ relaxed p, node.relax e.search.tolerance = .ok relaxed ∧
      relaxed.standardForm e.simplex.tolerance = .ok p := by
  have hinspect : (e.inspect node).answer = .ok (.bounded b) := h
  unfold inspect at hinspect
  cases hrelax : node.relax e.search.tolerance with
  | error reason => rw [hrelax] at hinspect; cases hinspect
  | ok relaxed =>
    rw [hrelax] at hinspect
    cases hform : relaxed.standardForm e.simplex.tolerance with
    | ok p => exact ⟨relaxed, p, rfl, hform⟩
    | error refusal =>
      -- A refused relaxation has no answer, and an empty range makes it infeasible.
      exfalso
      unfold Simplex.report at hinspect
      cases hal : relaxed.misalignment with
      | some cause =>
        simp only [hal] at hinspect
        cases hinspect
      | none =>
        simp only [hal, hform] at hinspect
        cases refusal with
        | unsupported cause => cases hinspect
        | infeasible reason => cases hinspect

/-- A refused node has a relaxation that the simplex method refuses. -/
theorem standardForm_of_unsupported {cause : Unsupported α} (hal : node.Aligned)
    (h : (e.scheme m).evaluate node = .error (.unsupported cause)) :
    ∃ relaxed, node.relax e.search.tolerance = .ok relaxed ∧
      relaxed.standardForm e.simplex.tolerance = .error (.unsupported cause) := by
  have hinspect : (e.inspect node).answer = .error (.unsupported cause) := h
  unfold inspect at hinspect
  cases hrelax : node.relax e.search.tolerance with
  | error reason => rw [hrelax] at hinspect; cases hinspect
  | ok relaxed =>
    refine ⟨relaxed, rfl, ?_⟩
    have haligned : relaxed.misalignment = none := hal.relax hrelax
    rw [hrelax] at hinspect
    unfold Simplex.report at hinspect
    cases hform : relaxed.standardForm e.simplex.tolerance with
    | error refusal =>
      simp only [haligned, hform] at hinspect
      cases refusal with
      | unsupported cause' => cases hinspect; rfl
      | infeasible reason => cases hinspect
    | ok p =>
      exfalso
      simp only [haligned, hform] at hinspect
      unfold Simplex.Run.answer at hinspect
      cases hending : (e.simplex.run p.form).ending <;> rw [hending] at hinspect <;> cases hinspect

section search

variable [Compared α] (hfinite : ∀ v ∈ m.vars, v.FiniteBounds) (hal : m.Aligned)
  (hzero : 0 ≤ e.search.tolerance) (hone : e.search.tolerance < 1)

include hfinite hal hzero hone

/-- Below the root all nodes are takeable. -/
theorem takeable_of_reachable (h : (e.scheme m).Reachable m node) :
    node = m ∨ node.Takeable e.search.tolerance := by
  induction h with
  | refl => exact .inl rfl
  | @tail parent child hreach hchild ih =>
    obtain ⟨b, lower, upper, hevaluate, -, hbranch, hside⟩ := hchild
    obtain ⟨j, v, hv, hintegral, -, rfl, rfl⟩ := branch_ok hbranch
    have htakeable : parent.Takeable e.search.tolerance := by
      rcases ih with rfl | hbelow
      · obtain ⟨relaxed, p, hrelax, hform⟩ := standardForm_of_bounded hevaluate
        exact Model.takeable_of_standardForm hfinite hrelax hform
      · exact hbelow
    rw [← (aligned_of_reachable hal hreach).1] at hv
    rcases hside with rfl | rfl
    · exact .inr (htakeable.withDecision hzero hone hv hintegral _)
    · exact .inr (htakeable.withDecision hzero hone hv hintegral _)

/-- A search breaks at a node for want of pivots, or because its root is
    refused. -/
theorem breaks_at_root_or_pivots (h : (e.scheme m).Reachable m node) {failure : Failure α}
    (hbreaks : (e.scheme m).BreaksAt node failure) :
    (∃ cause, failure = .unsupported cause ∧
        (e.scheme m).evaluate m = .error (.unsupported cause)) ∨
      ∃ trace, failure = .pivotLimit e.simplex.maxPivots trace := by
  obtain ⟨-, haligned⟩ := aligned_of_reachable hal h
  rcases failure_of_breaksAt haligned hbreaks with ⟨cause, rfl⟩ | hpivots
  · left
    have hevaluate : (e.scheme m).evaluate node = .error (.unsupported cause) := by
      rcases hbreaks with hevaluate | ⟨b, -, -, hbranch⟩
      · exact hevaluate
      · cases branch_failed hbranch
    rcases takeable_of_reachable hfinite hal hzero hone h with rfl | htakeable
    · exact ⟨cause, rfl, hevaluate⟩
    · obtain ⟨relaxed, hrelax, hrefused⟩ := standardForm_of_unsupported haligned hevaluate
      exact absurd hrefused (htakeable.relax hrelax _ cause)
  · exact .inr hpivots

/-- An answer that refuses a model is the answer of the root.  Once the root
    has been evaluated, a node fails only for want of pivots, and the search
    only for want of pivots or because of its node limit. -/
theorem refused_at_root (hintegral : m.hasIntegral = true) :
    (∀ steps cause, e.solve steps m = some (.error (.unsupported cause)) →
        (e.scheme m).evaluate m = .error (.unsupported cause)) ∧
      ∀ evaluation, (e.scheme m).evaluate m = .ok evaluation →
        (∀ node failure, (e.scheme m).Reachable m node → (e.scheme m).BreaksAt node failure →
          ∃ trace, failure = .pivotLimit e.simplex.maxPivots trace) ∧
        ∀ steps failure, e.solve steps m = some (.error failure) →
          (∃ trace, failure = .pivotLimit e.simplex.maxPivots trace) ∨
            ∃ limit explored tree, failure = .nodeLimit limit explored tree := by
  -- What an answer without a solution comes from.
  have horigin : ∀ steps failure, e.solve steps m = some (.error failure) →
      (∃ limit explored tree, failure = .nodeLimit limit explored tree) ∨
        ∃ node, (e.scheme m).Reachable m node ∧ (e.scheme m).BreaksAt node failure := by
    intro steps failure hsolve
    rw [solve_eq_run hal hintegral] at hsolve
    obtain ⟨s, r, hs, -, hstep, hr⟩ := Search.visited_of_run hsolve
    rcases Search.step_failed hstep hr with ⟨limit, -, rfl⟩ | ⟨p, hp, hbreaks⟩
    · exact .inl ⟨limit, _, _, rfl⟩
    · exact .inr ⟨p.2, Search.reachable_of_open hs hp, hbreaks⟩
  constructor
  · intro steps cause hsolve
    rcases horigin steps _ hsolve with ⟨limit, explored, tree, hlimit⟩ | ⟨node, hreach, hbreaks⟩
    · cases hlimit
    · rcases breaks_at_root_or_pivots hfinite hal hzero hone hreach hbreaks with
        ⟨cause', hcause, hroot⟩ | ⟨trace, htrace⟩
      · cases hcause
        exact hroot
      · cases htrace
  · intro evaluation hevaluate
    have hpivots : ∀ node failure, (e.scheme m).Reachable m node →
        (e.scheme m).BreaksAt node failure →
          ∃ trace, failure = .pivotLimit e.simplex.maxPivots trace := by
      intro node failure hreach hbreaks
      rcases breaks_at_root_or_pivots hfinite hal hzero hone hreach hbreaks with
        ⟨cause, -, hroot⟩ | hpivots
      · rw [hevaluate] at hroot
        cases hroot
      · exact hpivots
    refine ⟨hpivots, fun steps failure hsolve => ?_⟩
    rcases horigin steps failure hsolve with hlimit | ⟨node, hreach, hbreaks⟩
    · exact .inr hlimit
    · exact .inl (hpivots node failure hreach hbreaks)

end search

/-- Branch and bound on doubles. -/
def doubleSearch : BranchAndBound Float where
  simplex := { tolerance := 1e-9 }
  search := { tolerance := 1e-9 }

/-- Boxes in two sizes, of which whole numbers are to be loaded. -/
def boxes : Model Float where
  sense := .maximize
  vars := [⟨"large", .integer, none, some 4⟩, ⟨"small", .integer, none, none⟩]
  objective := [3, 2]
  constraints := [⟨"weight", [2, 1.5], .atMost, 6.25⟩]

/-- The boxes, with a minimal load. -/
def loadedBoxes : Model Float :=
  boxes.addConstraint ⟨"load", [1, 1], .atLeast, 2⟩

theorem boxes_refused_at_root :
    ((∃ b, (doubleSearch.scheme boxes).evaluate boxes = .ok (.bounded b)) ∧
      ∀ steps failure, doubleSearch.solve steps boxes = some (.error failure) →
        (∃ trace, failure = .pivotLimit 10000 trace) ∨
          ∃ limit explored tree, failure = .nodeLimit limit explored tree) ∧
    doubleSearch.solve 1 loadedBoxes =
        some (.error (.unsupported (.constraintRelation "load" .atLeast))) ∧
      (doubleSearch.scheme loadedBoxes).evaluate loadedBoxes =
        .error (.unsupported (.constraintRelation "load" .atLeast)) := by
  have hzero : (0 : Float) ≤ doubleSearch.search.tolerance := by decide +kernel
  have hone : doubleSearch.search.tolerance < 1 := by decide +kernel
  constructor
  · have hroot : (match (doubleSearch.scheme boxes).evaluate boxes with
        | .ok (.bounded _) => true
        | _ => false) = true := by
      decide +kernel
    cases hevaluate : (doubleSearch.scheme boxes).evaluate boxes with
    | error failure => rw [hevaluate] at hroot; cases hroot
    | ok evaluation =>
      rw [hevaluate] at hroot
      have hlater := (refused_at_root (by decide +kernel) (by decide) hzero hone rfl).2 _ hevaluate
      cases evaluation with
      | bounded b => exact ⟨⟨b, rfl⟩, hlater.2⟩
      | unbounded => cases hroot
      | infeasible reason => cases hroot
  · have hanswer : doubleSearch.solve 1 loadedBoxes =
        some (.error (.unsupported (.constraintRelation "load" .atLeast))) := by
      decide +kernel
    exact ⟨hanswer, (refused_at_root (by decide +kernel) (by decide) hzero hone rfl).1 1 _ hanswer⟩

end BranchAndBound

end IntegerProgramming
