import IntegerProgramming.Model.Basic

/-! # Infeasibility and unsupported models

    The causes for which a problem has no feasible point, and the causes for
    which an engine refuses a model, with the wording of each. -/

namespace IntegerProgramming

/-- Why a problem has no feasible point. -/
inductive Infeasibility (α : Type) where
  /-- After folding, a variable's lower bound is above its upper bound. -/
  | crossedBounds (name : String) (lower upper : α)
  /-- A variable of a linear program has an empty range. -/
  | emptyRange (name : String) (lower upper : α)
  /-- A tableau row demands a negative value and no entering variable can
      provide it. -/
  | stuckRow (basic : String) (rhs : α)
  /-- The relaxation of a search node has no feasible point. -/
  | emptyRelaxation
  /-- The bounds of a binary variable admit neither of its values. -/
  | neitherChoice (name : String) (lower upper : α)
  /-- The chosen items are too heavy. -/
  | overweight (weight capacity : α)
  /-- A reason in a branching scheme's own words. -/
  | stated (reason : String)
  deriving DecidableEq

/-- Why an engine does not accept a model. -/
inductive Unsupported (α : Type) where
  /-- The simplex method takes continuous variables only. -/
  | discreteVariable (name : String) (kind : VariableKind)
  /-- The simplex method takes lower bounds from zero up only. -/
  | lowerBound (name : String) (bound : α)
  /-- The simplex method takes upper bounds on linear forms only. -/
  | constraintRelation (name : String) (relation : Relation)
  /-- The simplex method takes right-hand sides from zero up only. -/
  | negativeRhs (name : String) (rhs : α)
  /-- A knapsack's value is maximized. -/
  | knapsackSense
  /-- A knapsack's variables are binary. -/
  | knapsackVariable (name : String) (kind : VariableKind)
  /-- A knapsack has one constraint. -/
  | knapsackSize (constraints : Nat)
  /-- A knapsack's constraint is an upper bound. -/
  | knapsackRelation (name : String) (relation : Relation)
  /-- A knapsack's capacity is not negative. -/
  | negativeCapacity (capacity : α)
  /-- An item's weight is not negative. -/
  | negativeWeight (name : String)
  /-- A reason in a branching scheme's own words. -/
  | stated (reason : String)
  deriving DecidableEq

/-- The name of a kind of variable in messages. -/
def VariableKind.label : VariableKind → String
  | .continuous => "Continuous"
  | .integer => "Integer"
  | .binary => "Binary"
  | .unrestricted => "Unrestricted"

open Scalar (text)

def Infeasibility.message {α : Type} [Scalar α] : Infeasibility α → String
  | .crossedBounds name lower upper =>
    s!"bounds on '{name}' conflict: {text lower} > {text upper}"
  | .emptyRange name lower upper =>
    s!"variable '{name}' has lower bound {text lower} above upper bound {text upper}"
  | .stuckRow basic rhs =>
    s!"row with basic {basic} has right-hand side {text rhs} and no negative coefficient"
  | .emptyRelaxation => "relaxation has no feasible point"
  | .neitherChoice name lower upper =>
    s!"'{name}' has bounds [{text lower}, {text upper}] that admit neither 0 nor 1"
  | .overweight weight capacity => s!"weight {text weight} exceeds capacity {text capacity}"
  | .stated reason => reason

def Unsupported.message {α : Type} [Scalar α] : Unsupported α → String
  | .discreteVariable name kind =>
    s!"variable '{name}' is {kind.label}; simplex accepts continuous variables only"
  | .lowerBound name bound =>
    s!"variable '{name}' has lower bound {text bound}; simplex requires a lower bound >= 0"
  | .constraintRelation name relation =>
    s!"constraint '{name}' uses '{relation.sign}'; " ++
      "only '<=' constraints are supported without preprocessing"
  | .negativeRhs name rhs => s!"constraint '{name}' has negative right-hand side {text rhs}"
  | .knapsackSense => "knapsack objective must be maximize"
  | .knapsackVariable name kind =>
    s!"knapsack variable '{name}' is {kind.label}, expected Binary"
  | .knapsackSize constraints =>
    s!"knapsack needs exactly one constraint, found {constraints}"
  | .knapsackRelation name relation =>
    s!"knapsack constraint '{name}' must be '<=', found '{relation.sign}'"
  | .negativeCapacity capacity => s!"knapsack capacity {text capacity} is negative"
  | .negativeWeight name => s!"knapsack weight of '{name}' is negative"
  | .stated reason => reason

/-- The part of a model that a misalignment is about, as messages name it. -/
def Model.Part.label : Model.Part → String
  | .objective => "objective"
  | .constraint name => s!"constraint '{name}'"

end IntegerProgramming
