import IntegerProgramming.Failure

/-! # Events

    What an engine reports while it works, in the order in which it happens.
    An answer comes with the events on the way to it. -/

namespace IntegerProgramming

/-- The engines. -/
inductive Engine where
  | simplex
  | branchAndBound
  | knapsack
  deriving DecidableEq

inductive Event (α : Type) where
  /-- A model is handed to an engine. -/
  | solving (engine : Engine) (variableCount constraintCount : Nat)
  /-- A variable has an empty range, so no tableau is built. -/
  | emptyRange (reason : Infeasibility α)
  /-- A pivot is about to be made; it repairs a right-hand side or improves
      the objective. -/
  | pivot (step : Pivot α) (repairs : Bool)
  | linearInfeasible (reason : Infeasibility α) (pivots : Nat)
  | linearUnbounded (pivots : Nat)
  | linearOptimal (pivots : Nat) (objective : Option α)
  /-- A child is about to be created. -/
  | branching (parent : Nat) (label : Branching α)
  | newIncumbent (node : Nat) (objective : α)
  | fathomed (node depth : Nat) (reason : FathomReason α)
  | searchFinished (status : Status) (explored fathomed : Nat) (best : Option α)
  deriving DecidableEq

/-- An answer, or the cause why there is none, with the events on the way. -/
structure Report (α β : Type) where
  answer : Except (Failure α) β
  events : Array (Event α) := #[]

end IntegerProgramming
