import IntegerProgramming.Event

/-! # Branching schemes

    What a branch-and-bound search has to be told about a problem: how good
    the solutions below a node can be, whether a node's own point is a
    solution, and how a node is split in two.  The search itself knows nothing
    else about nodes. -/

namespace IntegerProgramming

/-- A node whose subproblem is not empty. -/
structure Bounded (α : Type) where
  /-- What no solution below the node beats. -/
  bound : α
  /-- The objective at the node's own point. -/
  objective : α
  values : List α
  deriving DecidableEq

/-- What examining a node shows. -/
inductive Evaluation (α : Type) where
  | infeasible (reason : Infeasibility α)
  | unbounded
  | bounded (b : Bounded α)
  deriving DecidableEq

/-- A problem whose subproblems are described by values of type `ν`. -/
structure Scheme (α ν : Type) where
  sense : Sense
  /-- The names of the variables, in the order of the points. -/
  names : List String
  /-- Examines a node. -/
  inspect : ν → Report α (Evaluation α)
  /-- Whether the node's own point solves the whole problem. -/
  isComplete : ν → Bounded α → Bool
  /-- The two halves of a node that is not complete, the lower one first. -/
  branch : ν → Bounded α → Except (Failure α) ((Branching α × ν) × (Branching α × ν))

/-- What examining a node shows, without the events on the way. -/
def Scheme.evaluate {α ν : Type} (s : Scheme α ν) (node : ν) :
    Except (Failure α) (Evaluation α) :=
  (s.inspect node).answer

end IntegerProgramming
