import IntegerProgramming.BranchAndBound
import IntegerProgramming.Knapsack.Solve

/-! # The solver

    Chooses an engine for a model and runs it.  Left to itself the solver
    takes the simplex method for a model without whole-number conditions, the
    knapsack search for a model that states a knapsack problem, and branch and
    bound over relaxations for the rest. -/

namespace IntegerProgramming

/-- An answer of the simplex method or of a search. -/
inductive Outcome (α : Type) where
  | linear (solution : Solution α)
  | search (result : SearchResult α)
  deriving DecidableEq

namespace Outcome

variable {α : Type}

def status : Outcome α → Status
  | .linear s => s.status
  | .search r => r.status

def objective : Outcome α → Option α
  | .linear s => s.objective
  | .search r => r.bestObjective

def assignment : Outcome α → Assignment α
  | .linear s => s.assignment
  | .search r => r.assignment

end Outcome

structure Solver (α : Type) where
  /-- The engine to use; without one the solver chooses. -/
  engine : Option Engine := none
  tolerance : α
  maxPivots : Nat := 10000
  /-- Whether tableaux are recorded; never for the relaxations in a search. -/
  snapshots : Bool := true
  traversal : Traversal := .breadthFirst
  nodeLimit : Option Nat := none
  deriving DecidableEq

namespace Solver

variable {α : Type} [Scalar α]

/-- The engine that a model is handed to. -/
def engineFor (s : Solver α) (model : Model α) : Engine :=
  match s.engine with
  | some engine => engine
  | none =>
    if !model.hasIntegral then .simplex
    else if (Knapsack.ofModel s.tolerance model).isOk then .knapsack
    else .branchAndBound

def settings (s : Solver α) : Search.Settings α := ⟨s.tolerance, s.traversal, s.nodeLimit⟩

def simplex (s : Solver α) (snapshots : Bool) : Simplex α := ⟨s.tolerance, s.maxPivots, snapshots⟩

/-- Runs an engine. -/
def runEngine (steps : Nat) (s : Solver α) (model : Model α) :
    Engine → Option (Report α (Outcome α))
  | .simplex =>
    let r := (s.simplex s.snapshots).report model
    some ⟨r.answer.map .linear, r.events⟩
  | .branchAndBound =>
    (BranchAndBound.report steps ⟨s.simplex false, s.settings⟩ model).map fun r =>
      ⟨r.answer.map .search, r.events⟩
  | .knapsack =>
    (Knapsack.report steps s.settings model).map fun r => ⟨r.answer.map .search, r.events⟩

/-- Solves a model in at most `steps` search steps, with the events on the way. -/
def report (steps : Nat) (s : Solver α) (model : Model α) : Option (Report α (Outcome α)) :=
  let engine := s.engineFor model
  (s.runEngine steps model engine).map fun r =>
    { r with
      events := #[.solving engine model.vars.length model.constraints.length] ++ r.events }

/-- Solves a model in at most `steps` search steps. -/
def solve (steps : Nat) (s : Solver α) (model : Model α) :
    Option (Except (Failure α) (Outcome α)) :=
  (s.report steps model).map (·.answer)

end Solver

end IntegerProgramming
