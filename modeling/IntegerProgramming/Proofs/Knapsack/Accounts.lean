import IntegerProgramming.Proofs.Knapsack.Replay
import IntegerProgramming.Proofs.Search.Levels

/-! # Accounts of a knapsack

    The items are the variables that bounds leave open, in the order of decision
    (`Problem.ListsOpen`).  A node lists the positions that bounds decide and
    those of the first items, as many as it is deep, each as taken or as left
    out (`Problem.ListsDecided`).  Its value and weight are the objective and
    the left-hand side of the constraint at its own point, as long as the sums
    are exact.

    Every step down decides an item, so no node is deeper than there are items,
    and the search ends.  For this the bounds of the search do not matter: they
    may be undefined and cut off nothing. -/

namespace IntegerProgramming

open Exact

namespace Knapsack

section accounts

variable {α : Type} [Scalar α] {τ : α} {m : Model α} {c : Constraint α} {node : Node α}

/-! ## Items -/

/-- The item is decided before another one: by tier, then by descending ratio,
    and items of one ratio by position. -/
def Item.Precedes (a b : Item α) : Prop :=
  a.tier < b.tier ∨
    a.tier = b.tier ∧ a.AtLeastAsGood b ∧ (b.AtLeastAsGood a → a.index < b.index)

/-- The items are the variables that bounds leave open, each once and with its
    value and weight, in the order of decision. -/
structure Problem.ListsOpen (τ : α) (m : Model α) (p : Problem α) : Prop where
  nodup : (p.items.map (·.index)).Nodup
  mem_iff : ∀ j, j ∈ p.items.map (·.index) ↔ ∃ v, m.vars[j]? = some v ∧ choice τ v = .free
  read : ∀ i ∈ p.items, m.objective[i.index]? = some i.value ∧
    ∃ c, m.constraints = [c] ∧ c.coefficients[i.index]? = some i.weight
  sorted : p.items.Pairwise Item.Precedes

theorem items_ordered (ha : Accepts m c) : (problem τ m c).items.Pairwise Item.Precedes := by
  have hdistinct := List.pairwise_map.mp (items_nodup (τ := τ) ha)
  refine ((items_sorted τ m c).and hdistinct).imp ?_
  rintro a b ⟨hle, hne⟩
  -- No two items are at the same position.
  rcases (a.noLater_iff b).mp hle with htier | ⟨htier, hgood, hindex⟩
  · exact .inl htier
  · exact .inr ⟨htier, hgood, fun hback => lt_of_le_of_ne (hindex hback) hne⟩

theorem problem_listsOpen (ha : Accepts m c) : (problem τ m c).ListsOpen τ m where
  nodup := items_nodup ha
  mem_iff j := (items_perm τ m c).mem_iff.trans (mem_decided ha)
  read i hi := by
    obtain ⟨d, hd, -, rfl⟩ := mem_items.mp hi
    obtain ⟨j, hj⟩ := List.mem_iff_getElem?.mp hd
    obtain ⟨-, hvalue, hweight, rfl⟩ := getElem?_candidates.mp hj
    exact ⟨hvalue, c, ha.constraints, hweight⟩
  sorted := items_ordered ha

/-! ## Decisions -/

/-- The node lists what bounds decide and the first items, as many as it is
    deep, either as taken or as left out. -/
structure Problem.ListsDecided (τ : α) (m : Model α) (p : Problem α) (node : Node α) : Prop where
  nodup : node.included.Nodup ∧ node.excluded.Nodup
  disjoint : node.included.Disjoint node.excluded
  mem_iff : ∀ j, j ∈ node.included ∨ j ∈ node.excluded ↔
    (∃ v, m.vars[j]? = some v ∧ choice τ v ≠ .free) ∨
      j ∈ (p.items.take node.depth).map (·.index)

theorem Partition.listsDecided (h : Partition τ m c node) (ha : Accepts m c) :
    (problem τ m c).ListsDecided τ m node := by
  have hnodup := h.positions.nodup_iff.mpr List.nodup_range
  obtain ⟨hincluded, hexcluded, hdisjoint⟩ :=
    List.nodup_append.mp (List.nodup_append.mp hnodup).1
  refine ⟨⟨hincluded, hexcluded⟩, fun j hj hj' => hdisjoint j hj j hj' rfl, fun j => ?_⟩
  have hfree := (problem_listsOpen (τ := τ) ha).mem_iff j
  rw [← List.take_append_drop node.depth (problem τ m c).items, List.map_append] at hfree
  rw [h.mem_iff]
  constructor
  · rintro ⟨hlt, hnot⟩
    by_cases hchoice : choice τ m.vars[j] = .free
    · have hmem := hfree.mpr ⟨_, List.getElem?_eq_getElem hlt, hchoice⟩
      exact .inr ((List.mem_append.mp hmem).resolve_right hnot)
    · exact .inl ⟨_, List.getElem?_eq_getElem hlt, hchoice⟩
  · rintro (⟨v, hv, hchoice⟩ | hfront)
    · refine ⟨(List.getElem?_eq_some_iff.mp hv).1, fun hopen => ?_⟩
      obtain ⟨w, hw, hwfree⟩ := hfree.mp (List.mem_append_right _ hopen)
      rw [hv, Option.some.injEq] at hw
      rw [hw] at hchoice
      exact hchoice hwfree
    · obtain ⟨v, hv, -⟩ := hfree.mp (List.mem_append_left _ hfront)
      exact ⟨(List.getElem?_eq_some_iff.mp hv).1, items_apart τ ha _ hfront⟩

end accounts

/-! ## Sums -/

section sums

variable {τ : Exact} {m : Model Exact} {c : Constraint Exact} {node : Node Exact}

/-- The node's own point takes no open item. -/
theorem Consistent.selection_open (h : Consistent τ m c node) :
    ∀ i ∈ (problem τ m c).items.drop node.depth, (selection m node).getD i.index 0 = 0 := by
  intro i hi
  have hnot := (h.partition.not_mem_of_open hi).1
  have hlt : i.index < m.vars.length :=
    List.mem_range.mp (h.positions.mem_iff.mp (List.mem_append_right _ (List.mem_map_of_mem hi)))
  simp [selection, hlt, hnot]

/-- A node carries the weight and the value of its own point. -/
theorem Consistent.tallied (h : Consistent τ m c node) (hm : m.RationalRows) (ha : Accepts m c) :
    node.weight = c.lhs ((problem τ m c).indicator node) ∧
      node.value = m.evaluate ((problem τ m c).indicator node) := by
  have hlhs : c.lhs ((selection m node).map rational) =
      rational (linear c.coefficients (selection m node)) :=
    dot_map_rational (hm.constraints c ha.mem).coefficients _
  have hvalue : m.evaluate ((selection m node).map rational) =
      rational (linear m.objective (selection m node)) := dot_map_rational hm.objective _
  have hzero : ∀ f : Item Exact → ℚ, (((problem τ m c).items.drop node.depth).map fun i =>
      f i * (selection m node).getD i.index 0).sum = 0 := by
    intro f
    refine List.sum_eq_zero fun q hq => ?_
    obtain ⟨i, hi, rfl⟩ := List.mem_map.mp hq
    rw [h.selection_open i hi, mul_zero]
  have hagrees := h.agrees_selection
  rw [indicator_eq, hlhs, hvalue, h.tallies.weight, h.tallies.value,
    h.weight_eq hm ha hagrees, h.value_eq hm ha hagrees]
  unfold load worth
  rw [hzero, hzero, add_zero, add_zero]
  exact ⟨rfl, rfl⟩

/-- Where the second number is defined, the total order is the usual one. -/
theorem le_of_precedes {x y : Exact} (hy : (y == y) = true)
    (h : Scalar.precedes x y = true) : x ≤ y := by
  have hatMost : Exact.precedes x y = true := h
  cases y with
  | undefined => cases hy
  | _ => cases x <;> exact hatMost

/-- Items with rational values and weights stand in the order of their ratios. -/
theorem items_descending (hm : m.RationalRows) (ha : Accepts m c) :
    (problem τ m c).items.Pairwise fun a b =>
      b.ratio ≤ a.ratio ∧ (a.ratio = b.ratio → a.index < b.index) := by
  refine (items_ordered ha).imp_of_mem fun {a b} hmem hmem' h => ?_
  have htier := (items_isRational hm ha a hmem).1.tier_eq
  have htier' := (items_isRational hm ha b hmem').1.tier_eq
  have hdefined : (a.ratio == a.ratio) = true := by
    by_contra hnot
    unfold Item.tier at htier
    rw [if_neg hnot] at htier
    split at htier <;> cases htier
  rcases h with hlt | ⟨-, hgood, hindex⟩
  · omega
  · refine ⟨le_of_precedes hdefined (hgood htier), fun hsame => hindex fun _ => ?_⟩
    have htotal := Scalar.precedes_total a.ratio a.ratio
    rw [Bool.or_self] at htotal
    rw [← hsame]
    exact htotal

end sums

/-! ## The search -/

section search

variable {α : Type} [Scalar α] {m : Model α} {c : Constraint α} {settings : Search.Settings α}

/-- No node is deeper than there are items. -/
theorem depth_le_of_visited (ha : Accepts m c) {s : Search.State α (Node α)}
    (hs : Search.Visited (problem settings.tolerance m c).scheme settings
      (problem settings.tolerance m c).root s) :
    ∀ n ∈ s.nodes, n.depth ≤ (problem settings.tolerance m c).items.length := by
  intro n hn
  obtain ⟨i, hi⟩ := Array.mem_iff_getElem?.mp hn
  obtain ⟨labels, node, hlineage, hdescends⟩ := Search.descends_of_mem hs hi
  have hfollows := follows_of_descends (depth_root _ _ _) (named_problem ha) hdescends
  -- There is one label for every level, and one item for every label.
  have hlength := hlineage.length_eq (Search.tree_of_visited hs) hi
  have hcovers : node.depth ≤ _ := hfollows.covers
  rw [hfollows.depth, hlength] at hcovers
  exact hcovers

/-- A search on a knapsack has found its answer, or it was stopped by its limit. -/
theorem answer_cases (ha : Accepts m c) {steps : Nat}
    {answer : Except (Failure α) (SearchResult α)} (h : solve steps settings m = some answer) :
    ∃ s status, Search.Visited (problem settings.tolerance m c).scheme settings
        (problem settings.tolerance m c).root s ∧
      (answer = .ok (s.result m.names status) ∨ ∃ limit explored,
        settings.nodeLimit = some limit ∧
          answer = .error (.nodeLimit limit explored (s.result m.names status))) := by
  rw [solve_of_accepts ha] at h
  obtain ⟨s, r, hs, -, hstep, rfl⟩ := Search.visited_of_run h
  cases hanswer : r.answer with
  | ok result =>
    obtain ⟨-, rfl⟩ := Search.step_ended hstep hanswer
    exact ⟨s, _, hs, .inl rfl⟩
  | error failure =>
    rcases Search.step_failed hstep hanswer with ⟨limit, hlimit, rfl⟩ | ⟨front, hfront, hbreaks⟩
    · obtain ⟨hlimit, -⟩ := Option.filter_eq_some_iff.mp hlimit
      exact ⟨s, _, hs, .inr ⟨limit, _, hlimit, rfl⟩⟩
    · obtain ⟨labels, -, hdescends⟩ := Search.descends_of_open hs hfront
      have hfollows := follows_of_descends (depth_root _ _ _) (named_problem ha) hdescends
      exact absurd hbreaks (not_breaksAt hfollows.covers failure)

end search

/-- Whatever the numbers are, the items and the decisions of every node account
    for all variables.  If the sums are exact, a node carries the weight and the
    value of its own point.  And no node is deeper than there are items, so every
    search has its answer, or stops at its limit, after as many steps as a full
    tree of that depth has nodes. -/
theorem nodes_account_for_items (α : Type) [Scalar α] :
    (∀ (τ : α) m p node, ofModel τ m = .ok p → p.conflict = none → p.Reached node →
      p.ListsOpen τ m ∧ p.ListsDecided τ m node) ∧
    (∀ (τ : Exact) m p node, m.RationalRows → ofModel τ m = .ok p → p.conflict = none →
      p.Reached node →
        (p.items.Pairwise fun a b =>
          b.ratio ≤ a.ratio ∧ (a.ratio = b.ratio → a.index < b.index)) ∧
        ∃ c, m.constraints = [c] ∧ node.weight = c.lhs (p.indicator node) ∧
          node.value = m.evaluate (p.indicator node)) ∧
    ∀ (settings : Search.Settings α) m p, ofModel settings.tolerance m = .ok p →
      (∀ s, Search.Visited p.scheme settings p.root s →
        (∀ n ∈ s.nodes, n.depth ≤ p.items.length) ∧
          s.nodes.size ≤ 2 ^ (p.items.length + 1) - 1) ∧
      ∀ steps, 2 ^ (p.items.length + 1) ≤ steps → ∃ answer result,
        solve steps settings m = some answer ∧
        (answer = .ok result ∨ ∃ limit explored, settings.nodeLimit = some limit ∧
          answer = .error (.nodeLimit limit explored result)) ∧
        (∀ n ∈ result.nodes, n.depth ≤ p.items.length) ∧
        result.nodes.size ≤ 2 ^ (p.items.length + 1) - 1 := by
  refine ⟨fun τ m p node hmodel hconflict hreached => ?_,
    fun τ m p node hm hmodel hconflict hreached => ?_, fun settings m p hmodel => ?_⟩
  · obtain ⟨c, ha, rfl⟩ := ofModel_ok hmodel
    exact ⟨problem_listsOpen ha, (partition_of_reached ha hconflict hreached).listsDecided ha⟩
  · obtain ⟨c, ha, rfl⟩ := ofModel_ok hmodel
    have hconsistent := consistent_of_reached hm ha hconflict hreached
    exact ⟨items_descending hm ha, c, ha.constraints, hconsistent.tallied hm ha⟩
  · obtain ⟨c, ha, rfl⟩ := ofModel_ok hmodel
    have hdepth : ∀ s, Search.Visited (problem settings.tolerance m c).scheme settings
        (problem settings.tolerance m c).root s →
          ∀ n ∈ s.nodes, n.depth ≤ (problem settings.tolerance m c).items.length :=
      fun s hs => depth_le_of_visited ha hs
    obtain ⟨hsize, hends⟩ := Search.ends_of_depth_le hdepth
    refine ⟨fun s hs => ⟨hdepth s hs, hsize s hs⟩, fun steps hsteps => ?_⟩
    obtain ⟨answer, hrun⟩ := hends steps hsteps
    rw [← solve_of_accepts ha] at hrun
    obtain ⟨s, status, hs, hanswer⟩ := answer_cases ha hrun
    exact ⟨answer, s.result m.names status, hrun, hanswer, hdepth s hs, hsize s hs⟩

/-- What a hamper can hold. -/
def hamper : Constraint Exact :=
  ⟨"hamper", [rational 3, rational 3, rational 1, rational 2], .atMost, rational 6⟩

/-- A cheese, a cake and grapes that share a lower ratio, and bread that has to
    come along. -/
def picnic : Model Exact where
  sense := .maximize
  vars := [⟨"cheese", .binary, none, none⟩, ⟨"cake", .binary, none, none⟩,
    ⟨"bread", .binary, some (rational 1), none⟩, ⟨"grapes", .binary, none, none⟩]
  objective := [rational 9, rational 6, rational 1, rational 4]
  constraints := [hamper]

theorem picnic_accepts : Accepts picnic hamper :=
  ⟨by decide, rfl, by decide, rfl, rfl, by decide, by decide⟩

/-- The cheese is taken, and then the cake is left out: the grapes are still open,
    and the bread has been in the hamper from the start. -/
theorem picnic_accounted : ∃ p node next, ofModel 0 picnic = .ok p ∧
    p.child? p.root true = some node ∧ p.child? node false = some next ∧
    next.included = [0, 2] ∧ next.excluded = [1] ∧ p.items.map (·.index) = [0, 1, 3] ∧
    p.ListsOpen 0 picnic ∧ p.ListsDecided 0 picnic next ∧
    next.weight = hamper.lhs (p.indicator next) ∧
    next.value = picnic.evaluate (p.indicator next) ∧
    ∃ result, solve 16 { tolerance := (0 : Exact) } picnic = some (.ok result) ∧
      (∀ n ∈ result.nodes, n.depth ≤ 3) ∧ result.nodes.size ≤ 15 := by
  have hproblem : problem 0 picnic hamper = _ := ofCandidates_of_sorted rfl (by decide +kernel)
  have hmodel := ofModel_of_accepts picnic_accepts 0
  obtain ⟨hconflict, hnode, hnext, hitems⟩ :
      (problem 0 picnic hamper).conflict = none ∧
        (problem 0 picnic hamper).child? (problem 0 picnic hamper).root true =
          some ⟨1, [0, 2], [], rational 4, rational 10⟩ ∧
        (problem 0 picnic hamper).child? ⟨1, [0, 2], [], rational 4, rational 10⟩ false =
          some ⟨2, [0, 2], [1], rational 4, rational 10⟩ ∧
        (problem 0 picnic hamper).items.map (·.index) = [0, 1, 3] := by
    rw [hproblem]
    decide +kernel
  have hreached := (Problem.Reached.root.child hnode).child hnext
  obtain ⟨hlists, hsums, hsearch⟩ := nodes_account_for_items Exact
  obtain ⟨hopen, hdecided⟩ := hlists 0 picnic _ _ hmodel hconflict hreached
  obtain ⟨-, c, hc, hweight, hvalue⟩ :=
    hsums 0 picnic _ _ ⟨by decide, by decide⟩ hmodel hconflict hreached
  obtain rfl : hamper = c := (List.cons.inj hc).1
  have hlength : (problem 0 picnic hamper).items.length = 3 := by
    rw [← List.length_map, hitems]
    rfl
  obtain ⟨-, hends⟩ := hsearch { tolerance := (0 : Exact) } picnic _ hmodel
  rw [hlength] at hends
  obtain ⟨answer, result, hrun, hanswer, hdepth, hsize⟩ := hends 16 le_rfl
  rcases hanswer with rfl | ⟨limit, -, hlimit, -⟩
  · exact ⟨_, _, _, hmodel, hnode, hnext, rfl, rfl, hitems, hopen, hdecided, hweight, hvalue,
      result, hrun, hdepth, hsize⟩
  -- No limit was set.
  · cases hlimit

end Knapsack

end IntegerProgramming
