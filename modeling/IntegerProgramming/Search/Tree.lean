import IntegerProgramming.Model.Infeasibility
import IntegerProgramming.Assignment

/-! # Search trees

    The record of a branch-and-bound search.  Nodes are numbered in the order
    in which they are created, and a node keeps its number: the tree is the
    list of its nodes, each with a link to its parent.  A node is written once
    more when it has been examined, and never again. -/

namespace IntegerProgramming

/-- How an answer is to be understood. -/
inductive Status where
  | optimal
  | infeasible
  | unbounded
  /-- The search was cut short. -/
  | error
  deriving DecidableEq

def Status.label : Status → String
  | .optimal => "optimal"
  | .infeasible => "infeasible"
  | .unbounded => "unbounded"
  | .error => "error"

/-! ## Nodes -/

/-- The side of a split. -/
inductive Direction where
  /-- At most the value; an item is left out. -/
  | down
  /-- At least the value; an item is taken. -/
  | up
  deriving DecidableEq

/-- The decision that created a node. -/
structure Branching (α : Type) where
  /-- The variable that was decided on. -/
  name : String
  direction : Direction
  value : α
  deriving DecidableEq

/-- Why a node was not split. -/
inductive FathomReason (α : Type) where
  | infeasible (reason : Infeasibility α)
  | unbounded
  /-- Its bound does not beat the incumbent of that moment. -/
  | bound (incumbent : α)
  /-- Its own point is a solution. -/
  | integerSolution
  deriving DecidableEq

inductive NodeStatus (α : Type) where
  /-- Not examined yet. -/
  | created
  | fathomed (reason : FathomReason α)
  /-- Split into two children. -/
  | branched
  deriving DecidableEq

structure Node (α : Type) where
  id : Nat
  /-- All nodes but the root have a parent. -/
  parent : Option Nat
  depth : Nat
  branching : Option (Branching α)
  status : NodeStatus α := .created
  /-- What the objective cannot beat below this node. -/
  bound : Option α := none
  /-- The objective at the node's own point. -/
  objective : Option α := none
  /-- The node's own point. -/
  values : List α := []
  deriving DecidableEq

/-- A new best solution, and the node where it was found. -/
structure Discovery (α : Type) where
  node : Nat
  objective : α
  deriving DecidableEq

/-! ## Results -/

structure SearchResult (α : Type) where
  status : Status
  bestObjective : Option α
  /-- The best point, in the order of the variables; empty if none was found. -/
  bestValues : List α
  assignment : Assignment α
  rootBound : Option α
  nodes : Array (Node α)
  explored : Nat
  fathomed : Nat
  branched : Nat
  maxDepth : Nat
  /-- The best solutions in the order of their discovery. -/
  incumbents : Array (Discovery α)
  deriving DecidableEq

namespace SearchResult

variable {α : Type}

/-- The parent of a node that exists and is not the root. -/
def parent? (r : SearchResult α) (id : Nat) : Option Nat := r.nodes[id]?.bind (·.parent)

/-- The chain of at most `length` ancestors of a node, and the node itself. -/
def ancestors (r : SearchResult α) : Nat → Nat → List Nat
  | 0, id => [id]
  | length + 1, id =>
    match r.parent? id with
    | none => [id]
    | some parent => r.ancestors length parent ++ [id]

/-- The nodes from the root to a node.  No chain is longer than the tree has
    nodes; a number beyond the tree is on a path of its own. -/
def pathTo (r : SearchResult α) (id : Nat) : List Nat := r.ancestors r.nodes.size id

end SearchResult

end IntegerProgramming
