import IntegerProgramming.Main
import IntegerProgramming.Format.Log
import IntegerProgramming.Number.Exact
import IntegerProgramming.Proofs.Simplex.Optimality
import IntegerProgramming.Proofs.Search.Soundness
import IntegerProgramming.Proofs.BranchAndBound.Optimality
import IntegerProgramming.Proofs.Knapsack.Optimality
import IntegerProgramming.Proofs.Search.Arena
import IntegerProgramming.Proofs.Solver.Agreement
import IntegerProgramming.Proofs.Knapsack.Tolerance
import IntegerProgramming.Proofs.Simplex.Phases
import IntegerProgramming.Proofs.Simplex.Resolution
import IntegerProgramming.Proofs.Simplex.Tolerance
import IntegerProgramming.Proofs.Search.Runs
import IntegerProgramming.Proofs.Search.Limits
import IntegerProgramming.Proofs.Number.Ordered
import IntegerProgramming.Proofs.Search.Certificate
import IntegerProgramming.Proofs.BranchAndBound.Replay
import IntegerProgramming.Proofs.Knapsack.Replay
import IntegerProgramming.Proofs.Solver.Replay
import IntegerProgramming.Proofs.Search.Levels
import IntegerProgramming.Proofs.BranchAndBound.Termination
import IntegerProgramming.Proofs.Number.Double
import IntegerProgramming.Proofs.Search.Bounds
import IntegerProgramming.Proofs.Solver.Bounds
import IntegerProgramming.Proofs.BranchAndBound.Refusal
import IntegerProgramming.Proofs.Simplex.Replay
import IntegerProgramming.Proofs.Number.Compared
import IntegerProgramming.Proofs.Checked.Solver
import IntegerProgramming.Proofs.Solver.Failures
import IntegerProgramming.Proofs.Knapsack.FractionalOptimum
import IntegerProgramming.Proofs.BranchAndBound.Flip
import IntegerProgramming.Proofs.Format.Model
import IntegerProgramming.Proofs.Model.InfiniteBounds
import IntegerProgramming.Proofs.Model.DroppedTerms
import IntegerProgramming.Proofs.Simplex.Multipliers
import IntegerProgramming.Proofs.Simplex.UnitColumns
import IntegerProgramming.Proofs.Simplex.Repairs
import IntegerProgramming.Proofs.Simplex.Limits
import IntegerProgramming.Proofs.Search.Order
import IntegerProgramming.Proofs.Knapsack.Accounts
import IntegerProgramming.Proofs.Model.Building
import IntegerProgramming.Proofs.Simplex.Improvements
import IntegerProgramming.Proofs.Search.Paths
import IntegerProgramming.Proofs.Number.Margins
import IntegerProgramming.Proofs.Search.Discoveries
import IntegerProgramming.Proofs.Solver.Discoveries
