import IntegerProgramming.Proofs.Search.Discoveries
import IntegerProgramming.Proofs.Solver.Replay

/-! # Both engines discover at every complete node

    In both engines the bound of a complete node is its own objective, each time
    for another reason.  A relaxation is solved at one point, and this point
    gives the bound and the objective at once.  The bound of a knapsack node
    fills what is left of the capacity with the undecided items, and a complete
    node has none of them.

    This is all that the search needs (`Search.ascends_of_tree`): in every tree
    the incumbents are the solutions, each better than the last by more than the
    tolerance.  Nothing is asked of the numbers in the model. -/

namespace IntegerProgramming

open Scalar

variable {α : Type} [Scalar α]

/-! ## Bounds that are attained -/

theorem BranchAndBound.scheme_attained (e : BranchAndBound α) (m : Model α) :
    (e.scheme m).Attained := by
  intro node b hevaluate _
  obtain ⟨relaxed, sol, objective, -, -, -, hb⟩ := inspect_bounded hevaluate
  rw [hb]

theorem Knapsack.scheme_attained (p : Problem α) : p.scheme.Attained := by
  intro node b hevaluate hcomplete
  obtain ⟨-, -, hb⟩ := evaluate_bounded hevaluate
  have hdepth : node.depth = p.items.length := of_decide_eq_true hcomplete
  -- Nothing is left to fill with.
  have hvalue : p.upperBound node = node.value := by
    unfold Problem.upperBound
    rw [hdepth, List.drop_length]
    rfl
  rw [hb, hvalue]

/-! ## Trees of both engines -/

/-- In every tree of either engine, finished or cut short by the limit, the
    incumbents are the nodes that were closed as solutions, in the order of
    their examination, and each beats the last by more than the tolerance. -/
theorem solutions_ascend (α : Type) [Scalar α] [Margins α] (m : Model α) (steps : Nat)
    (answer : Except (Failure α) (SearchResult α)) (result : SearchResult α)
    (htree : Search.tree? answer = some result) :
    (∀ e : BranchAndBound α, IsFinite e.search.tolerance → 0 ≤ e.search.tolerance →
      e.solve steps m = some answer →
        ∃ order s status, Search.Explores (e.scheme m) e.search m order s ∧
          result = s.result m.names status ∧
          result.Ascends m.sense e.search.tolerance order) ∧
    ∀ settings : Search.Settings α, IsFinite settings.tolerance → 0 ≤ settings.tolerance →
      Knapsack.solve steps settings m = some answer →
        ∃ p order s status, Knapsack.ofModel settings.tolerance m = .ok p ∧
          Search.Explores p.scheme settings p.root order s ∧
          result = s.result p.names status ∧
          result.Ascends m.sense settings.tolerance order := by
  constructor
  · intro e ht hpos hsolve
    obtain ⟨-, hrun⟩ := BranchAndBound.run_of_solve hsolve htree
    exact Search.ascends_of_tree (e.scheme_attained m) ht hpos
      (fun _ _ => BranchAndBound.tree?_of_breaksAt) hrun htree
  · intro settings ht hpos hsolve
    obtain ⟨c, ha, hrun⟩ := Knapsack.run_of_tree hsolve htree
    obtain ⟨order, s, status, hexplores, hresult, hascends⟩ :=
      Search.ascends_of_tree (Knapsack.scheme_attained _) ht hpos
        (fun _ _ => Knapsack.tree?_of_breaksAt) hrun htree
    refine ⟨_, order, s, status, Knapsack.ofModel_of_accepts ha _, hexplores, hresult, ?_⟩
    rw [ha.sense]
    exact hascends

/-- The profits from the paints as losses, which are to be small. -/
def BranchAndBound.losses : Model Exact :=
  { paints with sense := .minimize, objective := [Exact.rational (-5), Exact.rational (-4)] }

/-- Branch and bound with a tolerance for what counts as better. -/
def BranchAndBound.coarseSearch : BranchAndBound Exact :=
  ⟨{ tolerance := 0 }, { tolerance := Exact.rational (1 / 10) }⟩

open BranchAndBound Knapsack Exact in
theorem losses_and_rucksack_ascend :
    (∃ answer result order, coarseSearch.solve 40 losses = some answer ∧
      Search.tree? answer = some result ∧
      result.incumbents.toList =
        [⟨2, rational (-18)⟩, ⟨3, rational (-19)⟩, ⟨4, rational (-20)⟩] ∧
      result.Ascends .minimize (rational (1 / 10)) order) ∧
      ∃ answer result order,
        solve 40 { tolerance := rational (1 / 2), traversal := .depthFirst } rucksack =
          some answer ∧
        Search.tree? answer = some result ∧
        result.incumbents.toList = [⟨1, rational 10⟩, ⟨2, rational 110⟩] ∧
        result.Ascends .maximize (rational (1 / 2)) order := by
  constructor
  · obtain ⟨answer, result, hsolve, htree, hfound⟩ := Search.exists_tree_of_check
      (coarseSearch.solve 40 losses)
      (fun r => decide (r.incumbents.toList =
        [⟨2, rational (-18)⟩, ⟨3, rational (-19)⟩, ⟨4, rational (-20)⟩]))
      (by decide +kernel)
    obtain ⟨order, -, -, -, -, hascends⟩ :=
      (solutions_ascend Exact losses 40 answer result htree).1 coarseSearch (by decide)
        (by decide +kernel) hsolve
    exact ⟨answer, result, order, hsolve, htree, of_decide_eq_true hfound, hascends⟩
  · obtain ⟨answer, result, hsolve, htree, hfound⟩ := Search.exists_tree_of_check
      (solve 40 { tolerance := rational (1 / 2), traversal := .depthFirst } rucksack)
      (fun r => decide (r.incumbents.toList = [⟨1, rational 10⟩, ⟨2, rational 110⟩]))
      (by decide +kernel)
    obtain ⟨-, order, -, -, -, -, -, hascends⟩ :=
      (solutions_ascend Exact rucksack 40 answer result htree).2 _ (by decide)
        (by decide +kernel) hsolve
    exact ⟨answer, result, order, hsolve, htree, of_decide_eq_true hfound, hascends⟩

end IntegerProgramming
