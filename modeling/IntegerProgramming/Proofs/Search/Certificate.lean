import IntegerProgramming.Proofs.Search.Lineage
import IntegerProgramming.Proofs.Number.Double

/-! # A closed tree is a certificate

    What a search leaves behind tells why nothing better than its best solution
    has been overlooked.  The solutions are listed in the order of their
    discovery, each strictly better than the one before.  A node that was
    pruned names the solution that it was compared with, the best one of that
    moment, and its bound beats neither that one nor the last one by more than
    the tolerance.

    The reason at a leaf speaks of a past moment.  Every closed node is therefore
    followed back to the step that closed it (`examining_of_examined`), and
    from there the incumbents only improve.

    The numbers need not be exact: it is enough that they are defined and that
    adding the tolerance is monotone (`Scalar.Ordered`). -/

namespace IntegerProgramming

open Scalar

variable {α ν : Type} [Scalar α]

/-! ## Better and worse numbers -/

/-- The bound does not beat the incumbent by more than the tolerance. -/
def Sense.Within (s : Sense) (bound incumbent tolerance : α) : Prop :=
  match s with
  | .maximize => bound ≤ incumbent + tolerance
  | .minimize => incumbent - tolerance ≤ bound

namespace Sense

variable [Ordered α] {s : Sense} {x y z bound tolerance : α}

theorem not_better_iff (hx : IsDefined x) (hy : IsDefined y) :
    ¬ s.Better x y ↔ s.AtLeastAsGood y x := by
  cases s with
  | maximize => exact Ordered.not_lt_iff_le hy hx
  | minimize => exact Ordered.not_lt_iff_le hx hy

theorem Better.atLeastAsGood (hx : IsDefined x) (hy : IsDefined y) (h : s.Better x y) :
    s.AtLeastAsGood x y := by
  cases s with
  | maximize => exact Ordered.le_of_lt hy hx h
  | minimize => exact Ordered.le_of_lt hx hy h

theorem Better.trans_atLeastAsGood (hx : IsDefined x) (hy : IsDefined y) (hz : IsDefined z)
    (hxy : s.Better x y) (hyz : s.AtLeastAsGood y z) : s.Better x z := by
  cases s with
  | maximize => exact Ordered.lt_of_le_of_lt hz hy hx hyz hxy
  | minimize => exact Ordered.lt_of_lt_of_le hx hy hz hxy hyz

theorem atLeastAsGood_refl (hx : IsDefined x) : s.AtLeastAsGood x x := by
  cases s with
  | maximize => exact Ordered.le_rfl hx
  | minimize => exact Ordered.le_rfl hx

theorem AtLeastAsGood.trans (hxy : s.AtLeastAsGood x y) (hyz : s.AtLeastAsGood y z) :
    s.AtLeastAsGood x z := by
  cases s with
  | maximize => exact Ordered.le_trans hyz hxy
  | minimize => exact Ordered.le_trans hxy hyz

/-- What does not beat one solution by more than the tolerance does not beat a
    better one either. -/
theorem Within.mono (htol : IsFinite tolerance) (h : s.Within bound x tolerance)
    (hyx : s.AtLeastAsGood y x) : s.Within bound y tolerance := by
  cases s with
  | maximize => exact Ordered.le_trans h (Ordered.add_le_add htol hyx)
  | minimize => exact Ordered.le_trans (Ordered.sub_le_sub htol hyx) h

end Sense

/-! ## Incumbents -/

namespace Incumbent

/-- The incumbent is the last of the solutions that were found, and each of
    them was strictly better than those before it. -/
structure Improving (i : Incumbent α) : Prop where
  current : i.objective = i.history.back?.map (·.objective)
  defined : ∀ d ∈ i.history, IsDefined d.objective
  improving : i.history.toList.Pairwise fun earlier later =>
    i.sense.Better later.objective earlier.objective

variable {i j : Incumbent α} {x : α}

theorem improving_start (sense : Sense) : ({ sense } : Incumbent α).Improving :=
  ⟨rfl, nofun, .nil⟩

/-- The incumbent is one of the solutions. -/
theorem Improving.mem (h : i.Improving) (hx : i.objective = some x) :
    ∃ d ∈ i.history, i.history.back? = some d ∧ d.objective = x := by
  rw [h.current, Option.map_eq_some_iff] at hx
  obtain ⟨d, hd, rfl⟩ := hx
  exact ⟨d, Array.mem_of_back? hd, hd, rfl⟩

theorem Improving.objective_defined (h : i.Improving) (hx : i.objective = some x) :
    IsDefined x := by
  obtain ⟨d, hd, -, rfl⟩ := h.mem hx
  exact h.defined d hd

theorem install_sense (objective : α) (values : List α) (id : Nat) :
    (i.install objective values id).sense = i.sense := by
  unfold install
  split <;> rfl

theorem not_beaten_install (objective : α) (values : List α) (id : Nat)
    (h : ¬ i.Beaten objective) : i.install objective values id = i := if_neg h

variable [Ordered α]

/-- The incumbent is at least as good as all solutions. -/
theorem Improving.best (h : i.Improving) {d : Discovery α} (hd : d ∈ i.history) :
    ∃ x, i.objective = some x ∧ i.sense.AtLeastAsGood x d.objective := by
  cases hlast : i.history.back? with
  | none =>
    rw [Array.back?_eq_none_iff.mp hlast] at hd
    exact absurd hd (Array.not_mem_empty d)
  | some last =>
    have hcurrent := h.current
    rw [hlast] at hcurrent
    refine ⟨last.objective, hcurrent, ?_⟩
    -- Either it is the last one itself, or the last one was better.
    obtain ⟨before, hbefore⟩ := Array.back?_eq_some_iff.mp hlast
    have himproving := h.improving
    rw [hbefore, Array.toList_push, List.pairwise_append] at himproving
    rw [hbefore, Array.mem_push] at hd
    rcases hd with hd | rfl
    · have hbetter := himproving.2.2 d (Array.mem_toList_iff.mpr hd) last (List.mem_singleton_self _)
      exact hbetter.atLeastAsGood (h.defined last (Array.mem_of_back? hlast))
        (h.defined d (hbefore ▸ Array.mem_push.mpr (.inl hd)))
    · exact Sense.atLeastAsGood_refl (h.defined d (Array.mem_of_back? hlast))

/-- What takes the place of the incumbent is better than all solutions before. -/
theorem Improving.install (h : i.Improving) {objective : α} (hdefined : IsDefined objective)
    (values : List α) (id : Nat) : (i.install objective values id).Improving := by
  by_cases hbeaten : i.Beaten objective
  · have hnew : ∀ d ∈ i.history, i.sense.Better objective d.objective := by
      intro d hd
      obtain ⟨x, hx, hxd⟩ := h.best hd
      unfold Beaten at hbeaten
      rw [hx] at hbeaten
      exact Sense.Better.trans_atLeastAsGood hdefined (h.objective_defined hx) (h.defined d hd)
        hbeaten hxd
    unfold Incumbent.install
    rw [if_pos hbeaten]
    refine ⟨by simp, fun d hd => ?_, ?_⟩
    · rcases Array.mem_push.mp hd with hold | rfl
      · exact h.defined d hold
      · exact hdefined
    · rw [Array.toList_push, List.pairwise_append]
      refine ⟨h.improving, List.pairwise_singleton _ _, fun d hd e he => ?_⟩
      rw [List.mem_singleton.mp he]
      exact hnew d (Array.mem_toList_iff.mp hd)
  · rw [not_beaten_install _ _ _ hbeaten]
    exact h

/-- An incumbent does not get worse when solutions are added. -/
theorem Improving.atLeastAsGood (hi : i.Improving) (hj : j.Improving)
    (hhistory : i.history.toList <+: j.history.toList) (hx : i.objective = some x) :
    ∃ y, j.objective = some y ∧ j.sense.AtLeastAsGood y x := by
  obtain ⟨d, hd, -, rfl⟩ := hi.mem hx
  exact hj.best (Array.mem_toList_iff.mp (hhistory.subset (Array.mem_toList_iff.mpr hd)))

/-- A bound is refused only if there is an incumbent, and it does not beat it by
    more than the tolerance. -/
theorem Improving.within (h : i.Improving) {bound tolerance : α} (hbound : IsDefined bound)
    (htol : IsFinite tolerance) (hprune : ¬ i.CanImprove bound tolerance) :
    ∃ x, i.objective = some x ∧ i.sense.Within bound x tolerance := by
  unfold CanImprove at hprune
  cases hx : i.objective with
  | none =>
    rw [hx] at hprune
    exact absurd trivial hprune
  | some x =>
    rw [hx] at hprune
    have hdefined := h.objective_defined hx
    refine ⟨x, rfl, ?_⟩
    cases hsense : i.sense with
    | maximize =>
      rw [hsense] at hprune
      exact (Ordered.not_lt_iff_le (Ordered.defined_add hdefined htol) hbound).mp hprune
    | minimize =>
      rw [hsense] at hprune
      exact (Ordered.not_lt_iff_le hbound (Ordered.defined_sub hdefined htol)).mp hprune

/-- The incumbent is at least as good as every solution that was offered. -/
theorem Improving.atLeastAsGood_install (h : i.Improving) {objective : α}
    (hdefined : IsDefined objective) (values : List α) (id : Nat) :
    ∃ x, (i.install objective values id).objective = some x ∧
      i.sense.AtLeastAsGood x objective := by
  by_cases hbeaten : i.Beaten objective
  · unfold Incumbent.install
    rw [if_pos hbeaten]
    exact ⟨objective, rfl, Sense.atLeastAsGood_refl hdefined⟩
  · rw [not_beaten_install _ _ _ hbeaten]
    unfold Beaten at hbeaten
    cases hx : i.objective with
    | none =>
      rw [hx] at hbeaten
      exact absurd trivial hbeaten
    | some x =>
      rw [hx] at hbeaten
      exact ⟨x, rfl, (Sense.not_better_iff hdefined (h.objective_defined hx)).mp hbeaten⟩

end Incumbent

/-! ## Certificates -/

/-- No node below a root has an undefined bound or objective. -/
def Scheme.Defined (s : Scheme α ν) (root : ν) : Prop :=
  ∀ node b, s.Reachable root node → s.evaluate node = .ok (.bounded b) →
    IsDefined b.bound ∧ IsDefined b.objective

namespace Search

/-- When the search examined a node, the last solution that it had found was
    one with the given objective, and its list of solutions has been continued
    since then. -/
def LastFound (scheme : Scheme α ν) (settings : Settings α) (root : ν)
    (found : Array (Discovery α)) (id : Nat) (x : α) : Prop :=
  ∃ s node rest, Visited scheme settings root s ∧ s.frontier = (id, node) :: rest ∧
    s.incumbent.objective = some x ∧
    s.incumbent.history.back?.map (·.objective) = some x ∧
    s.incumbent.history.toList <+: found.toList

/-- A tree shows why no solution of it was overlooked. -/
structure Certificate (scheme : Scheme α ν) (settings : Settings α) (root : ν)
    (r : SearchResult α) : Prop where
  /-- Every solution was strictly better than those before it. -/
  improving : r.incumbents.toList.Pairwise fun earlier later =>
    scheme.sense.Better later.objective earlier.objective
  /-- A node is pruned against the last solution found, and there is one. -/
  pruned {n : Node α} (hn : n ∈ r.nodes) {x : α} (h : n.status = .fathomed (.bound x)) :
    (∃ d ∈ r.incumbents, d.objective = x) ∧
      LastFound scheme settings root r.incumbents n.id x
  /-- Its bound beats neither that solution nor the best one by more than the
      tolerance. -/
  within {n : Node α} (hn : n ∈ r.nodes) {x : α} (h : n.status = .fathomed (.bound x)) :
    ∃ bound best, n.bound = some bound ∧ r.bestObjective = some best ∧
      scheme.sense.Within bound x settings.tolerance ∧
      scheme.sense.Within bound best settings.tolerance
  /-- No node has a solution that is better than the best one. -/
  solution {n : Node α} (hn : n ∈ r.nodes) (h : n.status = .fathomed .integerSolution) :
    ∃ objective best, n.objective = some objective ∧ r.bestObjective = some best ∧
      ¬ scheme.sense.Better objective best

variable {scheme : Scheme α ν} {settings : Settings α} {root : ν} {s : State α ν}

/-- What is known of a node that was pruned. -/
theorem Ruled.of_bound {i i' : Incumbent α} {id : Nat} {node : ν} {x : α}
    {b : Option (Bounded α)} {children : List (Branching α × ν)}
    (h : Ruled scheme settings i id node (.fathomed (.bound x)) b children i') :
    ∃ own, b = some own ∧ scheme.evaluate node = .ok (.bounded own) ∧
      ¬ i.CanImprove own.bound settings.tolerance ∧ x = i.objective.getD own.bound := by
  cases h with
  | pruned hevaluate hbound => exact ⟨_, rfl, hevaluate, hbound, rfl⟩

/-- What is known of a node whose own point was a solution. -/
theorem Ruled.of_integerSolution {i i' : Incumbent α} {id : Nat} {node : ν}
    {b : Option (Bounded α)} {children : List (Branching α × ν)}
    (h : Ruled scheme settings i id node (.fathomed .integerSolution) b children i') :
    ∃ own, b = some own ∧ scheme.evaluate node = .ok (.bounded own) ∧
      i' = i.install own.objective own.values id := by
  cases h with
  | complete hevaluate => exact ⟨_, rfl, hevaluate, rfl⟩

theorem incumbent_sense (h : Visited scheme settings root s) :
    s.incumbent.sense = scheme.sense := by
  induction h with
  | start => rfl
  | next _ hstep ih =>
    obtain ⟨id, node, rest, -, -, hexamined⟩ := step_running hstep
    cases hexamined with
    | complete => exact (Incumbent.install_sense _ _ _).trans ih
    | _ => exact ih

variable [Ordered α]

theorem improving_of_visited (hdefined : scheme.Defined root)
    (h : Visited scheme settings root s) : s.incumbent.Improving := by
  induction h with
  | start => exact Incumbent.improving_start _
  | @next s s' hs hstep ih =>
    obtain ⟨id, node, rest, hfrontier, -, hexamined⟩ := step_running hstep
    cases hexamined with
    | complete hevaluate =>
      -- Only a complete node changes the incumbent, and it is below the root.
      have hmem : (id, node) ∈ s.frontier := hfrontier ▸ List.mem_cons_self
      have hobjective := (hdefined node _ (reachable_of_open hs hmem) hevaluate).2
      exact ih.install hobjective _ id
    | _ => exact ih

section certificate

variable (hdefined : scheme.Defined root) (htol : IsFinite settings.tolerance)
include hdefined htol

/-- A pruned node is followed back to the moment when it was pruned. -/
theorem pruned_of_visited (h : Visited scheme settings root s) {i : Nat} {n : Node α}
    (hn : s.nodes[i]? = some n) {x : α} (hstatus : n.status = .fathomed (.bound x)) :
    LastFound scheme settings root s.incumbent.history i x ∧
      (∃ d ∈ s.incumbent.history, d.objective = x) ∧
      ∃ bound best, n.bound = some bound ∧ s.incumbent.objective = some best ∧
        scheme.sense.Within bound x settings.tolerance ∧
        scheme.sense.Within bound best settings.tolerance := by
  have hexamined : n.status ≠ .created := by
    rw [hstatus]
    exact nofun
  obtain ⟨t, t', node, m, b, children, hexamining, hsettled, hlater⟩ :=
    examining_of_examined h hn hexamined
  have ht := hexamining.visited
  obtain ⟨rest, hfrontier, -⟩ := hexamining.front
  have hruled := hexamining.ruled
  rw [hstatus] at hruled
  obtain ⟨own, rfl, hevaluate, hprune, hx⟩ := hruled.of_bound
  -- The incumbent of that moment, which the reason names.
  have hreachable := reachable_of_open ht hexamining.mem_frontier
  have hbound := (hdefined node own hreachable hevaluate).1
  have himproving := improving_of_visited hdefined ht
  obtain ⟨y, hy, hwithin⟩ := himproving.within hbound htol hprune
  rw [hy, Option.getD_some] at hx
  subst hx
  rw [incumbent_sense ht] at hwithin
  -- The incumbents of now continue those of that moment.
  have hgrows := hexamining.grows.trans hlater
  obtain ⟨best, hbest, hgood⟩ :=
    himproving.atLeastAsGood (improving_of_visited hdefined h) hgrows.history hy
  rw [incumbent_sense h] at hgood
  have hlast : t.incumbent.history.back?.map (·.objective) = some x :=
    himproving.current.symm.trans hy
  obtain ⟨d, hd, -, hdx⟩ := himproving.mem hy
  refine ⟨⟨t, node, rest, ht, hfrontier, hy, hlast, hgrows.history⟩,
    ⟨d, ?_, hdx⟩, own.bound, best, ?_, hbest, hwithin, hwithin.mono htol hgood⟩
  · exact Array.mem_toList_iff.mp (hgrows.history.subset (Array.mem_toList_iff.mpr hd))
  · rw [hsettled]
    rfl

omit htol in
/-- A solution is followed back to the moment when it was offered. -/
theorem solution_of_visited (h : Visited scheme settings root s) {i : Nat} {n : Node α}
    (hn : s.nodes[i]? = some n) (hstatus : n.status = .fathomed .integerSolution) :
    ∃ objective best, n.objective = some objective ∧ s.incumbent.objective = some best ∧
      ¬ scheme.sense.Better objective best := by
  have hexamined : n.status ≠ .created := by
    rw [hstatus]
    exact nofun
  obtain ⟨t, t', node, m, b, children, hexamining, hsettled, hlater⟩ :=
    examining_of_examined h hn hexamined
  have ht := hexamining.visited
  have hruled := hexamining.ruled
  rw [hstatus] at hruled
  obtain ⟨own, rfl, hevaluate, hinstall⟩ := hruled.of_integerSolution
  have hreachable := reachable_of_open ht hexamining.mem_frontier
  have hobjective := (hdefined node own hreachable hevaluate).2
  -- The incumbent right after the offer, and the one of now.
  obtain ⟨x, hx, hoffer⟩ :=
    (improving_of_visited hdefined ht).atLeastAsGood_install hobjective own.values i
  rw [← hinstall] at hx
  have himproving := improving_of_visited hdefined h
  obtain ⟨best, hbest, hgood⟩ :=
    (improving_of_visited hdefined (ht.next hexamining.next)).atLeastAsGood himproving
      hlater.history hx
  rw [incumbent_sense ht] at hoffer
  rw [incumbent_sense h] at hgood
  refine ⟨own.objective, best, ?_, hbest, ?_⟩
  · rw [hsettled]
    rfl
  · rw [Sense.not_better_iff hobjective (himproving.objective_defined hbest)]
    exact hgood.trans hoffer

theorem certificate_of_visited (h : Visited scheme settings root s) (status : Status) :
    Certificate scheme settings root (s.result scheme.names status) := by
  have hnumber : ∀ n ∈ s.nodes, s.nodes[n.id]? = some n := by
    intro n hn
    obtain ⟨i, hi⟩ := Array.mem_iff_getElem?.mp hn
    have hid : n.id = i := (tree_of_visited h).number hi
    rw [hid]
    exact hi
  exact {
    improving := by
      have himproving := (improving_of_visited hdefined h).improving
      rw [incumbent_sense h] at himproving
      exact himproving
    pruned := fun hn _ hstatus => by
      obtain ⟨hlast, hfound, -⟩ := pruned_of_visited hdefined htol h (hnumber _ hn) hstatus
      exact ⟨hfound, hlast⟩
    within := fun hn _ hstatus =>
      (pruned_of_visited hdefined htol h (hnumber _ hn) hstatus).2.2
    solution := fun hn hstatus => solution_of_visited hdefined h (hnumber _ hn) hstatus }

/-- The tree of every answer, finished or cut short by the limit, certifies its
    best solution, unless the search ends in a failure of the scheme itself. -/
theorem closed_tree_certifies {steps : Nat} {answer : Except (Failure α) (SearchResult α)}
    {result : SearchResult α} (h : run steps scheme root settings = some answer)
    (htree : tree? answer = some result) :
    Certificate scheme settings root result ∨
      ∃ failure, answer = .error failure ∧ EndsInScheme scheme settings root failure := by
  rcases visited_of_tree h htree with ⟨s, status, hs, rfl⟩ | hends
  · exact .inl (certificate_of_visited hdefined htol hs status)
  · exact .inr hends

end certificate

/-- A root with two solutions below it, in numbers that doubles cannot hold. -/
def tenths : Scheme Float ℕ where
  sense := .maximize
  names := ["x"]
  inspect node :=
    if node = 1 then ⟨.ok (.bounded ⟨0.1, 0.1, [0.1]⟩), #[]⟩
    else ⟨.ok (.bounded ⟨0.3, 0.3, [0.3]⟩), #[]⟩
  isComplete node _ := node != 0
  branch _ _ := .ok ((⟨"x", .down, 0.1⟩, 1), (⟨"x", .up, 0.3⟩, 2))

/-- The sum of a tenth and two tenths is rounded, and not beaten by three tenths. -/
theorem tenths_certificate : ∃ result : SearchResult Float,
    run 5 tenths 0 { tolerance := 0.2 } = some (.ok result) ∧
      (∃ n ∈ result.nodes, n.status = .fathomed (.bound 0.1)) ∧
      Certificate tenths { tolerance := 0.2 } 0 result := by
  have hfinds : (run 5 tenths 0 { tolerance := 0.2 }).map (fun answer =>
      answer.toOption.map fun r => decide (∃ n ∈ r.nodes, n.status = .fathomed (.bound 0.1))) =
      some (some true) := by
    decide +kernel
  have hdefined : tenths.Defined 0 := by
    intro node b _ hevaluate
    by_cases hone : node = 1
    · subst hone
      cases hevaluate
      exact ⟨by decide +kernel, by decide +kernel⟩
    · have hbounded : tenths.evaluate node = .ok (.bounded ⟨0.3, 0.3, [0.3]⟩) := by
        unfold Scheme.evaluate tenths
        dsimp only
        rw [if_neg hone]
      rw [hbounded] at hevaluate
      cases hevaluate
      exact ⟨by decide +kernel, by decide +kernel⟩
  have htol : IsFinite ({ tolerance := 0.2 } : Settings Float).tolerance := by decide +kernel
  cases hrun : run 5 tenths 0 { tolerance := 0.2 } with
  | none => rw [hrun] at hfinds; cases hfinds
  | some answer =>
    rw [hrun] at hfinds
    cases answer with
    | error failure => cases hfinds
    | ok result =>
      have hpruned := of_decide_eq_true (Option.some.inj (Option.some.inj hfinds))
      refine ⟨result, rfl, hpruned, ?_⟩
      rcases closed_tree_certifies hdefined htol hrun rfl with hcertificate | ⟨failure, h, -⟩
      · exact hcertificate
      · cases h

end Search

end IntegerProgramming
