import IntegerProgramming.Proofs.BranchAndBound.Optimality
import IntegerProgramming.Proofs.BranchAndBound.Replay
import IntegerProgramming.Proofs.Search.Levels

/-! # Branch and bound over bounded integers ends

    Between two neighbouring whole numbers there is a gap.  A node is split at
    a value inside a gap, and neither child has that gap in the range of its
    variable any more: the bounds of a node are folded into the ranges of its
    relaxation, so the value lies in the range, and each decision cuts the
    range at one end of the gap (`gaps_withDecision_lt`).

    A node is therefore no deeper than the root has gaps.  The argument needs
    finite ranges for the variables that have to be whole, and nothing of the
    others; ranges may start below zero, and they may be empty. -/

namespace IntegerProgramming

open Exact

/-! ## Gaps -/

/-- The number of gaps between whole numbers that a range reaches into. -/
def Range.gaps (r : Range Exact) : ℕ := (⌈r.upper.toRat⌉ - ⌊r.lower.toRat⌋).toNat

namespace Range

variable {l u q : ℚ}

/-- Cut below a value that is not whole, a range loses a gap at least. -/
theorem gaps_floor_lt (hl : l ≤ q) (hu : q ≤ u) (hq : ∀ k : ℤ, q ≠ k) :
    gaps ⟨rational l, rational ⌊q⌋⟩ < gaps ⟨rational l, rational u⟩ := by
  have hbelow : (⌊q⌋ : ℚ) < q := lt_of_le_of_ne (Int.floor_le q) fun h => hq _ h.symm
  have hupper : ⌊q⌋ < ⌈u⌉ := by
    rw [Int.lt_ceil]
    exact hbelow.trans_le hu
  have hlower : ⌊l⌋ ≤ ⌊q⌋ := Int.floor_le_floor hl
  show (⌈(⌊q⌋ : ℚ)⌉ - ⌊l⌋).toNat < (⌈u⌉ - ⌊l⌋).toNat
  rw [Int.ceil_intCast]
  omega

/-- Cut above a value that is not whole, a range loses a gap at least. -/
theorem gaps_ceil_lt (hl : l ≤ q) (hu : q ≤ u) (hq : ∀ k : ℤ, q ≠ k) :
    gaps ⟨rational ⌈q⌉, rational u⟩ < gaps ⟨rational l, rational u⟩ := by
  have habove : q < (⌈q⌉ : ℚ) := lt_of_le_of_ne (Int.le_ceil q) (hq _)
  have hlower : ⌊l⌋ < ⌈q⌉ := by
    rw [Int.floor_lt]
    exact hl.trans_lt habove
  have hupper : ⌈q⌉ ≤ ⌈u⌉ := Int.ceil_le_ceil hu
  show (⌈u⌉ - ⌊(⌈q⌉ : ℚ)⌋).toNat < (⌈u⌉ - ⌊l⌋).toNat
  rw [Int.floor_intCast]
  omega

end Range

namespace Model

/-- The gaps in the range of a variable. -/
def gapsAt (m : Model Exact) (j : Nat) : ℕ := ((m.foldedRanges 0)[j]?.map Range.gaps).getD 0

/-- The gaps in the ranges of all variables that have to be whole. -/
def gaps (m : Model Exact) : ℕ := (m.integralIndices.map m.gapsAt).sum

/-- With the constraints on single variables folded in, the variables that have
    to be whole have finite ranges. -/
def Boxed (m : Model Exact) : Prop :=
  ∀ j ∈ m.integralIndices, ∃ l u : ℚ, (m.foldedRanges 0)[j]? = some ⟨rational l, rational u⟩

end Model

/-! ## Folding a decision -/

/-- What a decision leaves of the range of its variable. -/
def Branching.cut (b : Branching Exact) (r : Range Exact) : Range Exact :=
  match b.direction with
  | .down => r.capAbove b.value
  | .up => r.capBelow b.value

/-- The decision bounds its variable by the next whole number. -/
def Branching.Rounds (b : Branching Exact) (q : ℚ) : Prop :=
  match b.direction with
  | .down => b.value = rational ⌊q⌋
  | .up => b.value = rational ⌈q⌉

theorem Branching.Rounds.isRational {b : Branching Exact} {q : ℚ} (h : b.Rounds q) :
    b.value.IsRational := by
  unfold Rounds at h
  cases hdirection : b.direction with
  | down => rw [hdirection] at h; exact isRational_of_eq h
  | up => rw [hdirection] at h; exact isRational_of_eq h

/-- The coefficient of a decision is one, so nothing is turned around or scaled. -/
theorem Branching.restrict_eq_cut {b : Branching Exact} (hb : b.value.IsRational) (n j : Nat)
    (r : Range Exact) : r.restrict (b.constraint n j).relation 1 b.value = b.cut r := by
  have hpositive : decide ((0 : Exact) < 1) = true := by decide
  have hquotient : b.value / 1 = b.value := by
    have hvalue : b.value = rational _ := hb
    rw [hvalue, one_eq, rational_div one_ne_zero, div_one]
  unfold Range.restrict
  rw [hpositive, hquotient]
  unfold Branching.constraint Branching.cut
  cases b.direction <;> rfl

/-- Folding a decision cuts the range of its variable and no other one. -/
theorem Model.foldedRanges_cut {m : Model Exact} {b : Branching Exact} {j : Nat}
    (hb : b.value.IsRational) (hj : j < m.vars.length) :
    (m.withDecision j b).foldedRanges 0 = (m.foldedRanges 0).modify j b.cut := by
  rw [foldedRanges_withDecision (by decide) (by decide) hj]
  simp only [Branching.restrict_eq_cut hb]

/-- A decision at a value inside a gap takes that gap out of the range. -/
theorem Range.gaps_cut_lt {b : Branching Exact} {l u q : ℚ} (hl : l ≤ q) (hu : q ≤ u)
    (hq : ∀ k : ℤ, q ≠ k) (hb : b.Rounds q) :
    ∃ l' u', b.cut ⟨rational l, rational u⟩ = ⟨rational l', rational u'⟩ ∧
      gaps (b.cut ⟨rational l, rational u⟩) < gaps ⟨rational l, rational u⟩ := by
  unfold Branching.Rounds at hb
  unfold Branching.cut
  cases hdirection : b.direction with
  | down =>
    rw [hdirection] at hb
    have hcut : (⟨rational l, rational u⟩ : Range Exact).capAbove b.value =
        ⟨rational l, rational ⌊q⌋⟩ := by
      unfold capAbove
      rw [hb, smaller_rational, min_eq_right ((Int.floor_le q).trans hu)]
    dsimp only
    rw [hcut]
    exact ⟨l, ⌊q⌋, rfl, gaps_floor_lt hl hu hq⟩
  | up =>
    rw [hdirection] at hb
    have hcut : (⟨rational l, rational u⟩ : Range Exact).capBelow b.value =
        ⟨rational ⌈q⌉, rational u⟩ := by
      unfold capBelow
      rw [hb, larger_rational, max_eq_right (hl.trans (Int.le_ceil q))]
    dsimp only
    rw [hcut]
    exact ⟨⌈q⌉, u, rfl, gaps_ceil_lt hl hu hq⟩

/-- A decision at a value inside a gap takes that gap out of the model. -/
theorem Model.gaps_withDecision_lt {m : Model Exact} {b : Branching Exact} {j : Nat} {q : ℚ}
    (hboxed : m.Boxed) (hj : j ∈ m.integralIndices)
    (hwithin : ∀ r, (m.foldedRanges 0)[j]? = some r → r.Contains q) (hq : ∀ k : ℤ, q ≠ k)
    (hb : b.Rounds q) :
    (m.withDecision j b).Boxed ∧ (m.withDecision j b).gaps < m.gaps := by
  have hranges := foldedRanges_cut hb.isRational (lt_of_mem_integralIndices hj)
  -- Only the range at `j` changes, and it keeps rational ends.
  have hother : ∀ i, i ≠ j →
      ((m.withDecision j b).foldedRanges 0)[i]? = (m.foldedRanges 0)[i]? := by
    intro i hi
    rw [hranges, List.getElem?_modify_ne _ _ (Ne.symm hi)]
  obtain ⟨l, u, hrange⟩ := hboxed j hj
  obtain ⟨hl, hu⟩ := hwithin _ hrange
  rw [rational_le] at hl hu
  obtain ⟨l', u', hcut, hlt⟩ := Range.gaps_cut_lt hl hu hq hb
  have hown : ((m.withDecision j b).foldedRanges 0)[j]? =
      some (b.cut ⟨rational l, rational u⟩) := by
    rw [hranges, List.getElem?_modify_eq, hrange]
    rfl
  have hless : (m.withDecision j b).gapsAt j < m.gapsAt j := by
    unfold gapsAt
    rw [hown, hrange]
    exact hlt
  constructor
  · intro i hi
    by_cases hij : i = j
    · subst hij
      exact ⟨l', u', hown.trans (congrArg some hcut)⟩
    · rw [hother i hij]
      exact hboxed i hi
  · show (m.integralIndices.map (m.withDecision j b).gapsAt).sum <
      (m.integralIndices.map m.gapsAt).sum
    refine List.sum_lt_sum _ _ (fun i _ => ?_) ⟨j, hj, hless⟩
    by_cases hij : i = j
    · subst hij
      exact hless.le
    · unfold gapsAt
      rw [hother i hij]

namespace BranchAndBound

variable {e : BranchAndBound Exact} {m node : Model Exact}

/-! ## Depths -/

section depths

variable (hsearch : e.search.tolerance = 0) (hsimplex : e.simplex.tolerance = 0)

include hsearch hsimplex

/-- The value at which a node is split lies in the range of its variable and
    inside a gap, which its children do not have any more. -/
theorem Below.gaps_child_lt (h : Below m node) (hboxed : node.Boxed) {child : Model Exact}
    (hchild : (e.scheme m).IsChild node child) : child.Boxed ∧ child.gaps < node.gaps := by
  obtain ⟨b, lower, upper, hevaluate, -, hbranch, hside⟩ := hchild
  obtain ⟨j, v, hv, hintegral, hfractional, rfl, rfl⟩ := branch_ok hbranch
  obtain ⟨x, hvalues, -, -, hx, -⟩ := h.describes hsearch hsimplex hevaluate
  have hvalue : b.values.getD j 0 = rational (x.getD j 0) := by
    rw [hvalues, getD_map_rational]
  -- The decisions above the node are folded into the ranges that the value lies in.
  have hj : j ∈ node.integralIndices :=
    Model.mem_integralIndices.mpr ⟨v, h.vars ▸ hv, hintegral⟩
  have hwithin := h.isRational.within_of_isFeasible h.aligned hx j
  have hgap : ∀ k : ℤ, x.getD j 0 ≠ k := by
    intro k hk
    rw [hvalue, hk, hsearch] at hfractional
    exact hfractional (isWhole_intCast k)
  rw [hvalue, floor_rational, ceil_rational] at hside
  rcases hside with rfl | rfl
  · exact Model.gaps_withDecision_lt hboxed hj hwithin hgap rfl
  · exact Model.gaps_withDecision_lt hboxed hj hwithin hgap rfl

variable (hm : m.IsRational) (hal : m.Aligned) (hboxed : m.Boxed)

include hm hal hboxed

/-- Every label on the way to a node has taken a gap out of the model. -/
theorem gaps_of_descends {labels : List (Branching Exact)}
    (h : (e.scheme m).Descends m labels node) :
    node.Boxed ∧ labels.length + node.gaps ≤ m.gaps := by
  induction h with
  | root => exact ⟨hboxed, (Nat.zero_add _).le⟩
  | @child labels parent b lower upper child hparent hevaluate hcomplete hbranch hside ih =>
    obtain ⟨hboxedParent, hle⟩ := ih
    have hbelow := below_of_reachable hsearch hsimplex hm hal hparent.reachable
    have hchild : (e.scheme m).IsChild parent child.2 :=
      ⟨b, lower, upper, hevaluate, hcomplete, hbranch,
        hside.imp (congrArg Prod.snd) (congrArg Prod.snd)⟩
    obtain ⟨hboxedChild, hlt⟩ := hbelow.gaps_child_lt hsearch hsimplex hboxedParent hchild
    refine ⟨hboxedChild, ?_⟩
    rw [List.length_append, List.length_singleton]
    omega

/-- No node is deeper than the model has gaps. -/
theorem depth_le_gaps {s : Search.State Exact (Model Exact)}
    (hs : Search.Visited (e.scheme m) e.search m s) : ∀ n ∈ s.nodes, n.depth ≤ m.gaps := by
  intro n hn
  obtain ⟨i, hi⟩ := Array.mem_iff_getElem?.mp hn
  obtain ⟨labels, node, hlineage, hdescends⟩ := Search.descends_of_mem hs hi
  obtain ⟨-, hle⟩ := gaps_of_descends hsearch hsimplex hm hal hboxed hdescends
  have hlength := hlineage.length_eq (Search.tree_of_visited hs) hi
  omega

end depths

/-! ## The end of a run -/

/-- Branch and bound over bounded integers ends: no node is deeper than there
    are gaps between whole numbers in the folded ranges, so the tree is small
    and the search runs out of nodes, unless the simplex method gives up. -/
theorem bounded_terminates (hsearch : e.search.tolerance = 0) (hsimplex : e.simplex.tolerance = 0)
    (hlimit : e.search.nodeLimit = none) (hm : m.IsRational) (hal : m.Aligned)
    (hintegral : m.hasIntegral = true) (hboxed : m.Boxed) :
    (∀ s, Search.Visited (e.scheme m) e.search m s →
        (∀ n ∈ s.nodes, n.depth ≤ m.gaps) ∧ s.nodes.size ≤ 2 ^ (m.gaps + 1) - 1) ∧
      ∀ steps, 2 ^ (m.gaps + 1) ≤ steps → ∃ answer, e.solve steps m = some answer ∧
        ((∃ result, answer = .ok result ∧ (∀ n ∈ result.nodes, n.depth ≤ m.gaps) ∧
            result.nodes.size ≤ 2 ^ (m.gaps + 1) - 1) ∨
          (∃ cause, answer = .error (.unsupported cause)) ∨
          ∃ trace, answer = .error (.pivotLimit e.simplex.maxPivots trace)) := by
  have hdepth : ∀ s, Search.Visited (e.scheme m) e.search m s → ∀ n ∈ s.nodes, n.depth ≤ m.gaps :=
    fun s hs => depth_le_gaps hsearch hsimplex hm hal hboxed hs
  obtain ⟨hsize, hends⟩ := Search.ends_of_depth_le hdepth
  refine ⟨fun s hs => ⟨hdepth s hs, hsize s hs⟩, fun steps hsteps => ?_⟩
  obtain ⟨answer, hrun⟩ := hends steps hsteps
  refine ⟨answer, (solve_eq_run hal hintegral).trans hrun, ?_⟩
  -- The last step has found no node any more, or the scheme has failed.
  obtain ⟨s, r, hs, -, hstep, rfl⟩ := Search.visited_of_run hrun
  cases hanswer : r.answer with
  | ok result =>
    obtain ⟨-, rfl⟩ := Search.step_ended hstep hanswer
    exact .inl ⟨_, rfl, hdepth s hs, hsize s hs⟩
  | error failure =>
    right
    rcases Search.step_failed hstep hanswer with ⟨limit, hreached, -⟩ | ⟨p, hp, hbreaks⟩
    · unfold Search.Settings.reachedLimit? at hreached
      rw [hlimit] at hreached
      cases hreached
    · have hbelow := below_of_reachable hsearch hsimplex hm hal (Search.reachable_of_open hs hp)
      rcases failure_of_breaksAt hbelow.aligned hbreaks with ⟨cause, rfl⟩ | ⟨trace, rfl⟩
      · exact .inl ⟨cause, rfl⟩
      · exact .inr ⟨trace, rfl⟩

/-- The paints with room for little more than two batches of each, which is
    said by a bound of one variable and by a constraint on the other. -/
def shelvedPaints : Model Exact where
  sense := .maximize
  vars := [⟨"exterior", .integer, none, some (rational (5 / 2))⟩,
    ⟨"interior", .integer, none, none⟩]
  objective := paints.objective
  constraints := paints.constraints ++
    [⟨"shelf", [rational 0, rational 2], .atMost, rational 5⟩]

theorem shelvedPaints_terminates : shelvedPaints.gaps = 6 ∧
    ∃ result, exactSearch.solve 128 shelvedPaints = some (.ok result) ∧
      (∀ n ∈ result.nodes, n.depth ≤ 6) ∧ result.nodes.size ≤ 127 := by
  have hgaps : shelvedPaints.gaps = 6 := by decide +kernel
  have hboxed : shelvedPaints.Boxed := by
    intro j hj
    have hindices : shelvedPaints.integralIndices = [0, 1] := rfl
    rw [hindices, List.mem_pair] at hj
    rcases hj with rfl | rfl
    · exact ⟨0, 5 / 2, by decide +kernel⟩
    · exact ⟨0, 5 / 2, by decide +kernel⟩
  have hsolved : (exactSearch.solve 128 shelvedPaints).map (·.toOption.isSome) = some true := by
    decide +kernel
  obtain ⟨-, hends⟩ := bounded_terminates (e := exactSearch) (m := shelvedPaints) rfl rfl rfl
    (by decide +kernel) (by decide) rfl hboxed
  rw [hgaps] at hends
  obtain ⟨answer, hanswer, hcases⟩ := hends 128 (le_refl _)
  rw [hanswer] at hsolved
  refine ⟨hgaps, ?_⟩
  rcases hcases with ⟨result, rfl, hdepths, hsize⟩ | ⟨cause, rfl⟩ | ⟨trace, rfl⟩
  · exact ⟨result, hanswer, hdepths, hsize⟩
  · cases hsolved
  · cases hsolved

end BranchAndBound

end IntegerProgramming
