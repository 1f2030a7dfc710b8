import IntegerProgramming.Format.Model
import IntegerProgramming.Solver

/-! # Answers as JSON

    The records of solutions, search results and outcomes.  Fields come in a
    fixed order, and none is left out.  Pivots, decisions and reasons can be
    read back; a reason for infeasibility comes back as its wording. -/

namespace IntegerProgramming

def Status.words : List (String × Status) :=
  [Status.optimal, .infeasible, .unbounded, .error].map fun s => (s.label, s)

def Status.toJson (s : Status) : Json := .text s.label

def Direction.words : List (String × Direction) := [("down", .down), ("up", .up)]

variable {α : Type}

section
variable [Scalar α] [Written α]

def Assignment.toJson (a : Assignment α) : Json :=
  .record (a.map fun (name, value) => (name, .ofNumber value))

/-! ## Linear programs -/

def Pivot.toJson (p : Pivot α) : Json :=
  .record
    [("iteration", .ofNat p.iteration), ("entering", .text p.entering),
      ("leaving", .text p.leaving), ("row", .ofNat p.row), ("column", .ofNat p.column),
      ("element", .ofNumber p.element), ("ratio", .ofNumber p.ratio)]

def Snapshot.toJson (s : Snapshot α) : Json :=
  .record
    [("iteration", .ofNat s.iteration), ("basis", .ofList .text s.basis),
      ("cells", .ofList (fun row => .ofList .ofNumber row.toList) s.cells.toList)]

def Trace.toJson (t : Trace α) : Json :=
  .record
    [("columns", .ofList .text t.columns),
      ("snapshots", .ofList Snapshot.toJson t.snapshots.toList),
      ("pivots", .ofList Pivot.toJson t.pivots.toList)]

def Solution.members (s : Solution α) : List (String × Json) :=
  [("status", s.status.toJson), ("values", .ofList .ofNumber s.values),
    ("assignment", s.assignment.toJson), ("objective_value", .ofOption .ofNumber s.objective),
    ("iterations", .ofNat s.iterations), ("trace", s.trace.toJson)]

/-! ## Searches -/

def Branching.toJson (b : Branching α) : Json :=
  .record
    [("variable", .text b.name), ("direction", .word Direction.words b.direction),
      ("value", .ofNumber b.value)]

def FathomReason.toJson : FathomReason α → Json
  | .infeasible reason => .record [("infeasible", .text reason.message)]
  | .unbounded => .text "unbounded"
  | .bound incumbent => .record [("bound", .record [("incumbent", .ofNumber incumbent)])]
  | .integerSolution => .text "integer_solution"

def NodeStatus.toJson : NodeStatus α → Json
  | .created => .text "created"
  | .fathomed reason => .record [("fathomed", reason.toJson)]
  | .branched => .text "branched"

def Node.toJson (n : Node α) : Json :=
  .record
    [("id", .ofNat n.id), ("parent", .ofOption .ofNat n.parent), ("depth", .ofNat n.depth),
      ("branching", .ofOption Branching.toJson n.branching), ("status", n.status.toJson),
      ("bound", .ofOption .ofNumber n.bound), ("objective", .ofOption .ofNumber n.objective),
      ("values", .ofList .ofNumber n.values)]

def Discovery.toJson (d : Discovery α) : Json :=
  .record [("node", .ofNat d.node), ("objective", .ofNumber d.objective)]

def SearchResult.members (r : SearchResult α) : List (String × Json) :=
  [("status", r.status.toJson), ("best_objective", .ofOption .ofNumber r.bestObjective),
    ("best_values", .ofList .ofNumber r.bestValues), ("assignment", r.assignment.toJson),
    ("root_bound", .ofOption .ofNumber r.rootBound),
    ("nodes", .ofList Node.toJson r.nodes.toList), ("explored_nodes", .ofNat r.explored),
    ("fathomed_nodes", .ofNat r.fathomed), ("branched_nodes", .ofNat r.branched),
    ("max_depth", .ofNat r.maxDepth),
    ("incumbents", .ofList Discovery.toJson r.incumbents.toList)]

/-! ## Outcomes -/

/-- An outcome names its kind of engine first. -/
def Outcome.toJson : Outcome α → Json
  | .linear s => .record (("engine", .text "linear") :: s.members)
  | .search r => .record (("engine", .text "search") :: r.members)

end

/-! ## Reading parts of an answer -/

section
variable (read : String → Option α)

def Pivot.ofJson? (v : Json) : Option (Pivot α) := do
  let fields ← v.fields
    ["iteration", "entering", "leaving", "row", "column", "element", "ratio"]
  return {
    iteration := ← Json.required fields "iteration" Json.nat?
    entering := ← Json.required fields "entering" Json.text?
    leaving := ← Json.required fields "leaving" Json.text?
    row := ← Json.required fields "row" Json.nat?
    column := ← Json.required fields "column" Json.nat?
    element := ← Json.required fields "element" (Json.number? read)
    ratio := ← Json.required fields "ratio" (Json.number? read) }

def Branching.ofJson? (v : Json) : Option (Branching α) := do
  let fields ← v.fields ["variable", "direction", "value"]
  return {
    name := ← Json.required fields "variable" Json.text?
    direction := ← Json.required fields "direction" (Json.choice? Direction.words)
    value := ← Json.required fields "value" (Json.number? read) }

/-- The reasons that are a single word. -/
def FathomReason.words : List (String × FathomReason α) :=
  [("unbounded", .unbounded), ("integer_solution", .integerSolution)]

def FathomReason.ofJson? (v : Json) : Option (FathomReason α) :=
  match Json.choice? FathomReason.words v, v.tagged? with
  | some reason, _ => some reason
  | none, some ("infeasible", reason) => reason.text?.map fun text => .infeasible (.stated text)
  | none, some ("bound", b) => do
    let fields ← b.fields ["incumbent"]
    return .bound (← Json.required fields "incumbent" (Json.number? read))
  | none, _ => none

end

end IntegerProgramming
