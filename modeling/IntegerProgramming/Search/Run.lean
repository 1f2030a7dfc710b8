import IntegerProgramming.Search.Scheme
import IntegerProgramming.Search.Incumbent

/-! # Branch and bound

    The search keeps a frontier of open nodes and the tree of all nodes
    created so far.  One step takes the next node off the frontier and
    examines it.  A node is fathomed if its subproblem is empty or unbounded,
    if its bound does not beat the incumbent, or if its own point is a
    solution; otherwise it is split, and its children join the frontier.

    The search ends when the frontier is empty.  It may also be stopped by a
    limit on the number of examined nodes, or by a failure of the scheme. -/

namespace IntegerProgramming

/-- The order in which open nodes are examined. -/
inductive Traversal where
  /-- The oldest open node first. -/
  | breadthFirst
  /-- The newest open node first, of two children the lower one. -/
  | depthFirst
  deriving DecidableEq

/-- Adds two children to a frontier, whose next node comes first. -/
def Traversal.extend {β : Type} (t : Traversal) (frontier : List β) (lower upper : β) : List β :=
  match t with
  | .breadthFirst => frontier ++ [lower, upper]
  | .depthFirst => lower :: upper :: frontier

namespace Search

/-- The settings of a search. -/
structure Settings (α : Type) where
  tolerance : α
  traversal : Traversal := .breadthFirst
  /-- The most nodes that are examined. -/
  nodeLimit : Option Nat := none
  deriving DecidableEq

/-! ## States -/

/-- A search in progress. -/
structure State (α ν : Type) where
  nodes : Array (Node α)
  /-- The open nodes with their subproblems, the next one first. -/
  frontier : List (Nat × ν)
  incumbent : Incumbent α
  explored : Nat := 0
  fathomed : Nat := 0
  branched : Nat := 0
  maxDepth : Nat := 0
  rootBound : Option α := none
  rootUnbounded : Bool := false
  events : Array (Event α) := #[]

namespace State

variable {α ν : Type}

/-- The search before its first step: the root is open. -/
def start (sense : Sense) (root : ν) : State α ν where
  nodes := #[{ id := 0, parent := none, depth := 0, branching := none }]
  frontier := [(0, root)]
  incumbent := { sense }

/-- The depth of a node. -/
def depthOf (s : State α ν) (id : Nat) : Nat := (s.nodes[id]?.map (·.depth)).getD 0

/-- Closes a node that is not split. -/
def fathom (s : State α ν) (id : Nat) (reason : FathomReason α) : State α ν :=
  { s with
    nodes := s.nodes.modify id fun n => { n with status := .fathomed reason }
    fathomed := s.fathomed + 1
    events := s.events.push (.fathomed id (s.depthOf id) reason) }

/-- Writes down what was found out about a node. -/
def record (s : State α ν) (id : Nat) (b : Bounded α) : State α ν :=
  { s with
    nodes := s.nodes.modify id fun n =>
      { n with bound := some b.bound, objective := some b.objective, values := b.values }
    rootBound := if id = 0 then some b.bound else s.rootBound }

/-- Offers a node's own point as a solution. -/
def install [Scalar α] (s : State α ν) (id : Nat) (b : Bounded α) : State α ν :=
  let events :=
    if s.incumbent.Beaten b.objective then s.events.push (.newIncumbent id b.objective)
    else s.events
  { s with incumbent := s.incumbent.install b.objective b.values id, events }

/-- Creates a child of a node. -/
def create (s : State α ν) (parent : Nat) (label : Branching α) : State α ν :=
  let depth := s.depthOf parent + 1
  { s with
    nodes := s.nodes.push
      { id := s.nodes.size, parent := some parent, depth, branching := some label }
    maxDepth := max s.maxDepth depth
    events := s.events.push (.branching parent label) }

/-- Splits a node into two children, which join the frontier. -/
def split (s : State α ν) (traversal : Traversal) (id : Nat)
    (lower upper : Branching α × ν) : State α ν :=
  let next := s.nodes.size
  let s := (s.create id lower.1).create id upper.1
  { s with
    nodes := s.nodes.modify id fun n => { n with status := .branched }
    branched := s.branched + 1
    frontier := traversal.extend s.frontier (next, lower.2) (next + 1, upper.2) }

/-- The tree and the best solution found so far. -/
def result (s : State α ν) (names : List String) (status : Status) : SearchResult α where
  status
  bestObjective := s.incumbent.objective
  bestValues := s.incumbent.values
  assignment := .ofLists names s.incumbent.values
  rootBound := s.rootBound
  nodes := s.nodes
  explored := s.explored
  fathomed := s.fathomed
  branched := s.branched
  maxDepth := s.maxDepth
  incumbents := s.incumbent.history

/-- What a search that has come to its end has shown. -/
def verdict (s : State α ν) : Status :=
  if s.incumbent.objective.isSome then .optimal
  else if s.rootUnbounded then .unbounded
  else .infeasible

end State

/-! ## Steps -/

variable {α ν : Type}

/-- A search after a step. -/
inductive Progress (α ν : Type) where
  | running (s : State α ν)
  | ended (r : Report α (SearchResult α))

/-- The limit, if it forbids to examine one more node. -/
def Settings.reachedLimit? (settings : Settings α) (explored : Nat) : Option Nat :=
  settings.nodeLimit.filter (· ≤ explored)

/-- The search has come to its end. -/
def finish (scheme : Scheme α ν) (s : State α ν) : Report α (SearchResult α) where
  answer := .ok (s.result scheme.names s.verdict)
  events := s.events.push
    (.searchFinished s.verdict s.explored s.fathomed s.incumbent.objective)

variable [Scalar α]

/-- What becomes of a node whose subproblem is not empty. -/
def settle (scheme : Scheme α ν) (settings : Settings α) (s : State α ν) (id : Nat) (node : ν)
    (b : Bounded α) : Progress α ν :=
  let s := s.record id b
  if ¬ s.incumbent.CanImprove b.bound settings.tolerance then
    .running (s.fathom id (.bound (s.incumbent.objective.getD b.bound)))
  else if scheme.isComplete node b then
    .running ((s.install id b).fathom id .integerSolution)
  else
    match scheme.branch node b with
    | .error failure => .ended ⟨.error failure, s.events⟩
    | .ok (lower, upper) => .running (s.split settings.traversal id lower upper)

/-- Examines an open node that has been taken off the frontier. -/
def examine (scheme : Scheme α ν) (settings : Settings α) (s : State α ν) (id : Nat)
    (node : ν) : Progress α ν :=
  let inspection := scheme.inspect node
  let s := { s with explored := s.explored + 1, events := s.events ++ inspection.events }
  match inspection.answer with
  | .error failure => .ended ⟨.error failure, s.events⟩
  | .ok (.infeasible reason) => .running (s.fathom id (.infeasible reason))
  | .ok .unbounded =>
    .running ({ s with rootUnbounded := s.rootUnbounded || id == 0 }.fathom id .unbounded)
  | .ok (.bounded b) => settle scheme settings s id node b

/-- One step of a search.  The limit is asked for only when a node is left to
    examine. -/
def step (scheme : Scheme α ν) (settings : Settings α) (s : State α ν) : Progress α ν :=
  match s.frontier with
  | [] => .ended (finish scheme s)
  | (id, node) :: frontier =>
    match settings.reachedLimit? s.explored with
    | some limit =>
      .ended ⟨.error (.nodeLimit limit s.explored (s.result scheme.names .error)), s.events⟩
    | none => examine scheme settings { s with frontier } id node

/-- Up to `steps` steps of a search. -/
def advance (scheme : Scheme α ν) (settings : Settings α) : Nat → State α ν → Progress α ν
  | 0, s => .running s
  | steps + 1, s =>
    match step scheme settings s with
    | .running s => advance scheme settings steps s
    | .ended r => .ended r

/-- Searches below a root.  There is no report if the search has not ended
    after the given number of steps; a search that has ended gives the same
    report for every larger number. -/
def report (steps : Nat) (scheme : Scheme α ν) (root : ν) (settings : Settings α) :
    Option (Report α (SearchResult α)) :=
  match advance scheme settings steps (.start scheme.sense root) with
  | .running _ => none
  | .ended r => some r

/-- Searches below a root. -/
def run (steps : Nat) (scheme : Scheme α ν) (root : ν) (settings : Settings α) :
    Option (Except (Failure α) (SearchResult α)) :=
  (report steps scheme root settings).map (·.answer)

/-- More steps than any machine can make. -/
def endless : Nat := Nat.pow 10 18

end Search

end IntegerProgramming
