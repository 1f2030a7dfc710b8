import IntegerProgramming.Knapsack.Basic
import IntegerProgramming.Search.Run

/-! # Solving knapsacks

    The branch-and-bound search on the items of a knapsack.  Every step
    decides an item, so the search ends by itself. -/

namespace IntegerProgramming.Knapsack

variable {α : Type} [Scalar α]

/-- Solves the knapsack problem that a model states in at most `steps` search
    steps.  One tolerance serves both for reading the bounds and for the
    search. -/
def report (steps : Nat) (settings : Search.Settings α) (model : Model α) :
    Option (Report α (SearchResult α)) :=
  match ofModel settings.tolerance model with
  | .error failure => some ⟨.error failure, #[]⟩
  | .ok p => Search.report steps p.scheme p.root settings

/-- Solves the knapsack problem that a model states in at most `steps` search
    steps. -/
def solve (steps : Nat) (settings : Search.Settings α) (model : Model α) :
    Option (Except (Failure α) (SearchResult α)) :=
  (report steps settings model).map (·.answer)

end IntegerProgramming.Knapsack
