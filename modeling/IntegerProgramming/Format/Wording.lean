import IntegerProgramming.Event
import IntegerProgramming.Number.Double

/-! # Texts of decisions and pivots

    One line of text for each kind of thing that a log or a report mentions. -/

namespace IntegerProgramming

open Scalar (text)

def Direction.sign : Direction → String
  | .down => Relation.atMost.sign
  | .up => Relation.atLeast.sign

def Branching.text {α : Type} [Scalar α] (b : Branching α) : String :=
  s!"{b.name} {b.direction.sign} {Scalar.text b.value}"

def FathomReason.text {α : Type} [Scalar α] : FathomReason α → String
  | .infeasible reason => s!"infeasible: {reason.message}"
  | .unbounded => "unbounded"
  | .bound incumbent => s!"bound (incumbent {Scalar.text incumbent})"
  | .integerSolution => "integer solution"

/-- The step and the element are rounded to four places. -/
def Pivot.text (p : Pivot Float) : String :=
  s!"pivot {p.iteration}: {p.entering} enters, {p.leaving} leaves " ++
    s!"(row {p.row}, ratio {fixedText 4 p.ratio}, element {fixedText 4 p.element})"

def Engine.label : Engine → String
  | .simplex => "Simplex"
  | .branchAndBound => "BranchAndBound"
  | .knapsack => "Knapsack"

end IntegerProgramming
