import IntegerProgramming.Proofs.Search.Bounds
import IntegerProgramming.Proofs.Solver.Replay

/-! # Bounds never improve down the tree

    Without tolerance both engines tighten their bounds on the way down, and
    for the same reason: what a child may use, its parent may use as well.

    A relaxation is solved exactly, and the points of a child are points of its
    parent.  The greedy filling of a knapsack is the value of a price
    (`Knapsack.fill_eq`), and at the price of the parent the items that are
    left to the child are worth no more (`Knapsack.fill_decide_le`), items
    without weight or without value included. -/

namespace IntegerProgramming

open Exact

/-! ## Relaxations -/

namespace BranchAndBound

variable {e : BranchAndBound Exact} {m : Model Exact}

theorem scheme_tightens (hsearch : e.search.tolerance = 0) (hsimplex : e.simplex.tolerance = 0)
    (hm : m.IsRational) (hal : m.Aligned) : (e.scheme m).Tightens m where
  child {parent child above below} hn hchild habove hbelow := by
    have hparent := below_of_reachable hsearch hsimplex hm hal hn
    have hown := hparent.child hsearch hsimplex hchild
    obtain ⟨x, -, hx, -, -, hbest⟩ := hparent.describes hsearch hsimplex habove
    obtain ⟨y, -, hy, -, hfeasible, -⟩ := hown.describes hsearch hsimplex hbelow
    -- The best point of the child is a point of the parent.
    have hle := hbest y (hparent.child_feasible hsearch hsimplex hchild hfeasible)
    rw [hparent.sense, hparent.objective] at hle
    rw [hx, hy, hparent.objective, hown.objective, Sense.atLeastAsGood_iff_merit]
    exact hle
  complete {node b} hn hevaluate _ := by
    have hnode := below_of_reachable hsearch hsimplex hm hal hn
    obtain ⟨x, -, hbound, hobjective, -⟩ := hnode.describes hsearch hsimplex hevaluate
    rw [hbound, hobjective, Sense.atLeastAsGood_iff_merit]

end BranchAndBound

/-! ## Fillings -/

namespace Knapsack

variable {m : Model Exact} {c : Constraint Exact} {node : Node Exact} {b : Bounded Exact}

/-- A node that has a bound is not too heavy, and its bound fills the rest of the
    capacity. -/
theorem filling_of_bounded (hm : m.IsRational) (ha : Accepts m c)
    (hn : (problem 0 m c).scheme.Reachable (problem 0 m c).root node)
    (h : (problem 0 m c).scheme.evaluate node = .ok (.bounded b)) :
    ∃ value weight : ℚ, node.value = rational value ∧ node.weight = rational weight ∧
      weight ≤ c.rhs.toRat ∧ b.objective = rational value ∧
      b.bound = fill ((problem 0 m c).items.drop node.depth) (rational (c.rhs.toRat - weight))
        (rational value) := by
  obtain ⟨hconflict, hlight, rfl⟩ := evaluate_bounded h
  obtain ⟨-, -, hvalue, hweight⟩ := consistent_of_reachable hm.rows ha hconflict hn
  have hrhs : (problem 0 m c).capacity = rational c.rhs.toRat := (hm.constraints c ha.mem).rhs
  have htolerance : (problem 0 m c).tolerance = rational 0 := rfl
  rw [hrhs, htolerance, hweight, rational_add, add_zero, rational_lt, not_lt] at hlight
  refine ⟨_, _, hvalue, hweight, hlight, hvalue, ?_⟩
  show (problem 0 m c).upperBound node = _
  unfold Problem.upperBound
  rw [hrhs, hweight, hvalue, rational_sub]

/-- The bound of a child fills what its parent's bound fills, with one item
    decided. -/
theorem bound_child_le (hm : m.IsRational) (ha : Accepts m c) {child : Node Exact}
    {above below : Bounded Exact}
    (hn : (problem 0 m c).scheme.Reachable (problem 0 m c).root node)
    (hchild : (problem 0 m c).scheme.IsChild node child)
    (habove : (problem 0 m c).scheme.evaluate node = .ok (.bounded above))
    (hbelow : (problem 0 m c).scheme.evaluate child = .ok (.bounded below)) :
    below.bound ≤ above.bound := by
  obtain ⟨value, weight, hvalue, hweight, hfits, -, hbound⟩ := filling_of_bounded hm ha hn habove
  obtain ⟨value', weight', hvalue', hweight', hfits', -, hbound'⟩ :=
    filling_of_bounded hm ha (hn.tail hchild) hbelow
  obtain ⟨own, lower, upper, -, -, hbranch, hside⟩ := hchild
  obtain ⟨item, hitem, hlower, hupper, -⟩ := branch_ok hbranch
  obtain ⟨hdepth, hget⟩ := List.getElem?_eq_some_iff.mp hitem
  have hitems : ∀ i ∈ (problem 0 m c).items.drop node.depth, i.IsRational := fun i hi =>
    (items_isRational hm.rows ha i (List.mem_of_mem_drop hi)).1
  have hsorted := (items_sorted 0 m c).sublist (List.drop_sublist node.depth _)
  rw [List.drop_eq_getElem_cons hdepth, hget] at hbound hitems hsorted
  obtain ⟨hleft, htaken⟩ :=
    fill_decide_le hitems hsorted (sub_nonneg.mpr hfits) value
  rw [hbound, hbound']
  rcases hside with rfl | rfl
  · rw [hlower] at hvalue' hweight' ⊢
    obtain rfl : value = value' := rational.inj (hvalue.symm.trans hvalue')
    obtain rfl : weight = weight' := rational.inj (hweight.symm.trans hweight')
    exact hleft
  · rw [hupper] at hvalue' hweight' ⊢
    have hrational := (List.forall_mem_cons.mp hitems).1
    have hown : item.value = rational _ := hrational.value
    have hload : item.weight = rational _ := hrational.weight
    obtain rfl : value + item.value.toRat = value' := by
      have hsum : node.value + item.value = rational value' := hvalue'
      rw [hvalue, hown, rational_add] at hsum
      exact rational.inj hsum
    obtain rfl : weight + item.weight.toRat = weight' := by
      have hsum : node.weight + item.weight = rational weight' := hweight'
      rw [hweight, hload, rational_add] at hsum
      exact rational.inj hsum
    rw [← sub_sub]
    exact htaken (by linarith)

theorem scheme_tightens (hm : m.IsRational) (ha : Accepts m c) :
    (problem 0 m c).scheme.Tightens (problem 0 m c).root where
  child hn hchild habove hbelow := bound_child_le hm ha hn hchild habove hbelow
  complete {node b} hn hevaluate hcomplete := by
    obtain ⟨value, weight, -, -, -, hobjective, hbound⟩ := filling_of_bounded hm ha hn hevaluate
    -- No item is left to fill with.
    have hdepth : node.depth = (problem 0 m c).items.length := of_decide_eq_true hcomplete
    rw [hdepth, List.drop_length] at hbound
    rw [hobjective, hbound]
    exact (rational_le value value).mpr le_rfl

end Knapsack

/-! ## Trees of both engines -/

/-- In every tree of either engine, finished or cut short by the limit, bounds
    do not improve on the way down, and no solution beats a bound above it. -/
theorem bounds_tighten (m : Model Exact) (hm : m.IsRational) (steps : Nat)
    (answer : Except (Failure Exact) (SearchResult Exact)) (result : SearchResult Exact)
    (htree : Search.tree? answer = some result) :
    (∀ e : BranchAndBound Exact, e.search.tolerance = 0 → e.simplex.tolerance = 0 →
      e.solve steps m = some answer → result.Tightening m.sense) ∧
    ∀ settings : Search.Settings Exact, settings.tolerance = 0 →
      Knapsack.solve steps settings m = some answer → result.Tightening m.sense := by
  constructor
  · intro e hsearch hsimplex hsolve
    obtain ⟨hal, hrun⟩ := BranchAndBound.run_of_solve hsolve htree
    exact Search.tightening_of_tree (BranchAndBound.scheme_tightens hsearch hsimplex hm hal)
      (fun _ _ => BranchAndBound.tree?_of_breaksAt) hrun htree
  · intro settings hsettings hsolve
    obtain ⟨c, ha, hrun⟩ := Knapsack.run_of_tree hsolve htree
    rw [hsettings] at hrun
    have hsense : m.sense = .maximize := ha.sense
    rw [hsense]
    exact Search.tightening_of_tree (Knapsack.scheme_tightens hm ha)
      (fun _ _ => Knapsack.tree?_of_breaksAt) hrun htree

open BranchAndBound Knapsack in
theorem paints_and_rucksack_tightened :
    (∃ answer result, exactSearch.solve 40 paints = some answer ∧
      Search.tree? answer = some result ∧
      (∃ n ∈ result.nodes, n.status = .fathomed .integerSolution ∧ n.depth = 1) ∧
      result.Tightening .maximize) ∧
      ∃ answer result, solve 40 { tolerance := (0 : Exact), nodeLimit := some 2 } rucksack =
          some answer ∧
        Search.tree? answer = some result ∧
        (∃ n ∈ result.nodes, n.status = .fathomed .integerSolution ∧ n.depth = 1) ∧
        result.Tightening .maximize := by
  constructor
  · obtain ⟨answer, result, hsolve, htree, hnode⟩ :=
      exists_tree_of_run (exactSearch.solve 40 paints) (.fathomed .integerSolution) 1
        (by decide +kernel)
    exact ⟨answer, result, hsolve, htree, hnode,
      (bounds_tighten paints (by decide) 40 answer result htree).1 exactSearch rfl rfl hsolve⟩
  · obtain ⟨answer, result, hsolve, htree, hnode⟩ :=
      exists_tree_of_run (solve 40 { tolerance := (0 : Exact), nodeLimit := some 2 } rucksack)
        (.fathomed .integerSolution) 1 (by decide +kernel)
    exact ⟨answer, result, hsolve, htree, hnode,
      (bounds_tighten rucksack (by decide) 40 answer result htree).2 _ rfl hsolve⟩

end IntegerProgramming
