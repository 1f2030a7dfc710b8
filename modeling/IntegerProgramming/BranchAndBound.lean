import IntegerProgramming.Model.Relaxation
import IntegerProgramming.Simplex.Solve
import IntegerProgramming.Search.Run

/-! # Integer programs by branch and bound

    A node of the search is a model: the given one with a bound appended for
    every decision on the way to the node.  Its relaxation is solved by the
    simplex method.  If a variable that has to be whole is not, the node is
    split at the variable whose fractional part is closest to one half: the
    lower child keeps the variable at or below the whole number underneath,
    the upper child at or above the whole number on top.  No whole point is
    lost, and the two children have none in common. -/

namespace IntegerProgramming

/-- The engine for integer programs. -/
structure BranchAndBound (α : Type) where
  /-- Solves the relaxations. -/
  simplex : Simplex α
  search : Search.Settings α
  deriving DecidableEq

variable {α : Type} [Scalar α]

/-! ## Whole numbers -/

/-- A number that is whole up to a tolerance. -/
def IsWhole (tolerance x : α) : Prop := Scalar.abs (x - Scalar.round x) ≤ tolerance

instance (tolerance x : α) : Decidable (IsWhole tolerance x) := inferInstanceAs (Decidable (_ ≤ _))

/-- How far the fractional part of a number is from one half. -/
def distanceToHalf (x : α) : α := Scalar.abs (x - Scalar.floor x - Scalar.half)

/-- Of the given positions the one whose value is furthest from whole, the
    first one of them; values that are whole up to the tolerance do not count. -/
def mostFractional? (tolerance : α) (integral : List Nat) (values : List α) : Option Nat :=
  (integral.foldl
    (fun (best : Option (Nat × α)) j =>
      let x := values.getD j 0
      if IsWhole tolerance x then best
      else
        match best with
        | none => some (j, distanceToHalf x)
        | some (_, least) => if distanceToHalf x < least then some (j, distanceToHalf x) else best)
    none).map (·.1)

/-! ## Splitting -/

/-- The constraint that a decision on the `j`-th of `n` variables adds. -/
def Branching.constraint (b : Branching α) (n j : Nat) : Constraint α :=
  match b.direction with
  | .down =>
    ⟨s!"branch_{b.name}_le_{Scalar.text b.value}", Scalar.unitRow n j, .atMost, b.value⟩
  | .up =>
    ⟨s!"branch_{b.name}_ge_{Scalar.text b.value}", Scalar.unitRow n j, .atLeast, b.value⟩

/-- The model after a decision on its `j`-th variable. -/
def Model.withDecision (m : Model α) (j : Nat) (b : Branching α) : Model α :=
  m.addConstraint (b.constraint m.vars.length j)

/-- The two decisions on the value of a variable that ought to be whole. -/
def splitAt (name : String) (x : α) : Branching α × Branching α :=
  (⟨name, .down, Scalar.floor x⟩, ⟨name, .up, Scalar.ceil x⟩)

/-! ## The scheme -/

namespace BranchAndBound

/-- Solves the relaxation of a node. -/
def inspect (e : BranchAndBound α) (node : Model α) : Report α (Evaluation α) :=
  match node.relax e.search.tolerance with
  | .error reason => ⟨.ok (.infeasible reason), #[]⟩
  | .ok relaxed =>
    let report := e.simplex.report relaxed
    let answer := report.answer.map fun solution =>
      match solution.status, solution.objective with
      | .optimal, some objective => .bounded ⟨objective, objective, solution.values⟩
      | .unbounded, _ => .unbounded
      | _, _ => .infeasible .emptyRelaxation
    ⟨answer, report.events⟩

/-- Splits a node at its most fractional variable. -/
def branch (e : BranchAndBound α) (integral : List Nat) (names : List String) (node : Model α)
    (b : Bounded α) : Except (Failure α) ((Branching α × Model α) × (Branching α × Model α)) :=
  match mostFractional? e.search.tolerance integral b.values with
  | none => .error .nothingToBranch
  | some j =>
    let (down, up) := splitAt (names.getD j "") (b.values.getD j 0)
    .ok ((down, node.withDecision j down), (up, node.withDecision j up))

/-- How the search sees the problem of a model. -/
def scheme (e : BranchAndBound α) (model : Model α) : Scheme α (Model α) where
  sense := model.sense
  names := model.names
  inspect := e.inspect
  isComplete _ b := model.integralIndices.all fun j =>
    IsWhole e.search.tolerance (b.values.getD j 0)
  branch := e.branch model.integralIndices model.names

/-- Solves an integer program in at most `steps` search steps. -/
def report (steps : Nat) (e : BranchAndBound α) (model : Model α) :
    Option (Report α (SearchResult α)) :=
  match model.misalignment with
  | some cause => some ⟨.error (.misaligned cause), #[]⟩
  | none =>
    if model.hasIntegral then Search.report steps (e.scheme model) model e.search
    else some ⟨.error .nothingToBranch, #[]⟩

/-- Solves an integer program in at most `steps` search steps. -/
def solve (steps : Nat) (e : BranchAndBound α) (model : Model α) :
    Option (Except (Failure α) (SearchResult α)) :=
  (e.report steps model).map (·.answer)

end BranchAndBound

end IntegerProgramming
