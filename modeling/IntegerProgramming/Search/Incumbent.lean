import IntegerProgramming.Search.Tree

/-! # The incumbent

    The best solution that a search has found so far, with the list of all
    that held this place.  Bounds are compared with it up to a tolerance,
    candidates exactly. -/

namespace IntegerProgramming

structure Incumbent (α : Type) where
  sense : Sense
  objective : Option α := none
  values : List α := []
  /-- All solutions that were the best one at their time. -/
  history : Array (Discovery α) := #[]
  deriving DecidableEq

namespace Incumbent

variable {α : Type} [Scalar α]

/-- A subproblem with this bound may hold a solution that is better by more
    than the tolerance. -/
def CanImprove (i : Incumbent α) (bound tolerance : α) : Prop :=
  match i.objective, i.sense with
  | none, _ => True
  | some best, .maximize => best + tolerance < bound
  | some best, .minimize => bound < best - tolerance

instance (i : Incumbent α) (bound tolerance : α) : Decidable (i.CanImprove bound tolerance) := by
  unfold CanImprove; split <;> infer_instance

/-- A solution takes the place of the incumbent. -/
def Beaten (i : Incumbent α) (objective : α) : Prop :=
  match i.objective with
  | none => True
  | some best => i.sense.Better objective best

instance (i : Incumbent α) (objective : α) : Decidable (i.Beaten objective) := by
  unfold Beaten; split <;> infer_instance

/-- Takes a solution in if it is strictly better. -/
def install (i : Incumbent α) (objective : α) (values : List α) (node : Nat) : Incumbent α :=
  if i.Beaten objective then
    { i with
      objective := some objective
      values := values
      history := i.history.push ⟨node, objective⟩ }
  else i

end Incumbent

end IntegerProgramming
