import IntegerProgramming.Simplex.Trace
import IntegerProgramming.Search.Tree

/-! # Failures

    The causes for which an engine gives no answer.  A run that hits a limit
    fails with everything that it has recorded up to then. -/

namespace IntegerProgramming

inductive Failure (α : Type) where
  | unsupported (cause : Unsupported α)
  | misaligned (cause : Model.Misalignment)
  | pivotLimit (limit : Nat) (trace : Trace α)
  /-- There is no variable to split on. -/
  | nothingToBranch
  /-- In the unfinished tree, open nodes are still in status `created`. -/
  | nodeLimit (limit explored : Nat) (unfinished : SearchResult α)
  deriving DecidableEq

def Failure.message {α : Type} [Scalar α] : Failure α → String
  | .unsupported cause => s!"Model unsupported: {cause.message}"
  | .misaligned cause =>
    s!"Dimension mismatch in {cause.part.label}: " ++
      s!"expected {cause.expected} coefficients, found {cause.found}"
  | .pivotLimit limit trace =>
    s!"Iteration limit of {limit} exceeded after {trace.pivots.size} pivots (possible cycling)"
  | .nothingToBranch => "Nothing to branch on: model has no integer or binary variables"
  | .nodeLimit limit explored _ =>
    s!"Node limit of {limit} reached after exploring {explored} nodes"

end IntegerProgramming
