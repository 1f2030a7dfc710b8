import IntegerProgramming.Proofs.BranchAndBound.Optimality
import IntegerProgramming.Proofs.BranchAndBound.Replay
import IntegerProgramming.Proofs.Knapsack.Optimality
import IntegerProgramming.Proofs.Knapsack.Replay

/-! # Trees can be replayed

    The trees of both engines describe themselves: the labels on the path to a
    node, and nothing else that the search has kept, say which subproblem was
    solved there, and solving it again shows what the tree records.

    This holds for finished trees and for those that a node limit has cut
    short, and for all numbers, since the same computation is made twice. -/

namespace IntegerProgramming

/-- Every examined node in a tree of either engine is replayed by the labels on
    its path. -/
theorem labels_replay (α : Type) [Scalar α] :
    (∀ (e : BranchAndBound α) (m : Model α) (steps : Nat)
      (answer : Except (Failure α) (SearchResult α)) (result : SearchResult α), m.names.Nodup →
        e.solve steps m = some answer → Search.tree? answer = some result →
          ∀ n ∈ result.nodes, n.status ≠ .created → e.Replays m result n) ∧
      ∀ (settings : Search.Settings α) (m : Model α) (steps : Nat)
        (answer : Except (Failure α) (SearchResult α)) (result : SearchResult α),
          Knapsack.solve steps settings m = some answer → Search.tree? answer = some result →
            ∃ p, Knapsack.ofModel settings.tolerance m = .ok p ∧
              ∀ n ∈ result.nodes, n.status ≠ .created → p.Replays result n := by
  constructor
  · intro e m steps answer result hnodup hsolve htree n hn hexamined
    exact BranchAndBound.replays_of_solve hnodup hsolve htree hn hexamined
  · intro settings m steps answer result hsolve htree
    exact Knapsack.replays_of_solve hsolve htree

/-- The tree of a run that has a node with a given status at a given depth. -/
theorem exists_tree_of_run (run : Option (Except (Failure Exact) (SearchResult Exact)))
    (status : NodeStatus Exact) (depth : Nat)
    (h : run.map (fun answer => (Search.tree? answer).map fun r =>
      decide (∃ n ∈ r.nodes, n.status = status ∧ n.depth = depth)) = some (some true)) :
    ∃ answer result, run = some answer ∧ Search.tree? answer = some result ∧
      ∃ n ∈ result.nodes, n.status = status ∧ n.depth = depth := by
  obtain ⟨answer, result, hanswer, hresult, hnode⟩ :=
    Search.exists_tree_of_check run _ h
  exact ⟨answer, result, hanswer, hresult, of_decide_eq_true hnode⟩

open BranchAndBound Knapsack in
theorem paints_and_rucksack_replayed :
    (∃ answer result, exactSearch.solve 40 paints = some answer ∧
      Search.tree? answer = some result ∧
      ∃ n ∈ result.nodes, (n.status = .branched ∧ n.depth = 1) ∧
        exactSearch.Replays paints result n) ∧
      ∃ answer result p, solve 40 { tolerance := (0 : Exact), nodeLimit := some 2 } rucksack =
          some answer ∧
        Search.tree? answer = some result ∧ ofModel 0 rucksack = .ok p ∧
        ∃ n ∈ result.nodes, (n.status = .branched ∧ n.depth = 0) ∧ p.Replays result n := by
  constructor
  · obtain ⟨answer, result, hsolve, htree, n, hn, hstatus, hdepth⟩ :=
      exists_tree_of_run (exactSearch.solve 40 paints) .branched 1 (by decide +kernel)
    refine ⟨answer, result, hsolve, htree, n, hn, ⟨hstatus, hdepth⟩, ?_⟩
    apply (labels_replay Exact).1 exactSearch paints 40 answer result (by decide) hsolve htree n hn
    rw [hstatus]
    exact nofun
  · obtain ⟨answer, result, hsolve, htree, n, hn, hstatus, hdepth⟩ :=
      exists_tree_of_run (solve 40 { tolerance := (0 : Exact), nodeLimit := some 2 } rucksack)
        .branched 0 (by decide +kernel)
    obtain ⟨p, hp, hreplays⟩ := (labels_replay Exact).2 _ rucksack 40 answer result hsolve htree
    refine ⟨answer, result, p, hsolve, htree, hp, n, hn, ⟨hstatus, hdepth⟩, hreplays n hn ?_⟩
    rw [hstatus]
    exact nofun

end IntegerProgramming
