import IntegerProgramming.Number.Scalar

/-! # Models

    A model asks for the best value of a linear objective over variables with
    bounds, subject to linear constraints.  Some variables may have to take
    whole values.

    Coefficients are listed in the order of the variables.  Nothing in the
    type keeps the lists equally long: a model may be built, edited and read
    while it is misaligned, and the engines refuse it (`Model.misalignment`). -/

namespace IntegerProgramming

/-! ## Sense -/

/-- The direction of optimisation. -/
inductive Sense where
  | maximize
  | minimize
  deriving DecidableEq

/-- The first number is strictly better than the second. -/
def Sense.Better {α : Type} [Scalar α] : Sense → α → α → Prop
  | .maximize, candidate, current => current < candidate
  | .minimize, candidate, current => candidate < current

instance {α : Type} [Scalar α] (s : Sense) (x y : α) : Decidable (s.Better x y) :=
  match s with
  | .maximize => inferInstanceAs (Decidable (y < x))
  | .minimize => inferInstanceAs (Decidable (x < y))

/-! ## Variables -/

/-- The values that a variable may take. -/
inductive VariableKind where
  | continuous
  | integer
  /-- Zero or one. -/
  | binary
  /-- Any number, without the usual lower bound of zero. -/
  | unrestricted
  deriving DecidableEq

/-- Whether variables of this kind take whole values only. -/
def VariableKind.isIntegral : VariableKind → Bool
  | .integer | .binary => true
  | .continuous | .unrestricted => false

structure Variable (α : Type) where
  name : String
  kind : VariableKind := .continuous
  /-- The given lower bound.  Without one it is zero, or minus infinity for an
      unrestricted variable. -/
  lower : Option α := none
  /-- The given upper bound.  Without one it is infinity, or one for a binary
      variable. -/
  upper : Option α := none
  deriving DecidableEq

section
variable {α : Type} [Scalar α]

/-- The lower bound in force.  A binary variable is never below zero. -/
def Variable.lowerBound (v : Variable α) : α :=
  match v.lower, v.kind with
  | some l, .binary => Scalar.larger l 0
  | some l, _ => l
  | none, .unrestricted => -Scalar.infinity
  | none, _ => 0

/-- The upper bound in force.  A binary variable is never above one. -/
def Variable.upperBound (v : Variable α) : α :=
  match v.upper, v.kind with
  | some u, .binary => Scalar.smaller u 1
  | some u, _ => u
  | none, .binary => 1
  | none, _ => Scalar.infinity

end

/-! ## Constraints -/

/-- How the two sides of a constraint compare. -/
inductive Relation where
  | atMost
  | atLeast
  | equal
  deriving DecidableEq

/-- The sign of a relation. -/
def Relation.sign : Relation → String
  | .atMost => "<="
  | .atLeast => ">="
  | .equal => "="

structure Constraint (α : Type) where
  name : String
  /-- One coefficient per variable of the model. -/
  coefficients : List α
  relation : Relation
  rhs : α
  deriving DecidableEq

section
variable {α : Type} [Scalar α]

/-- The left-hand side at a point. -/
def Constraint.lhs (c : Constraint α) (x : List α) : α := Scalar.dot c.coefficients x

/-- The constraint holds at a point, up to a tolerance. -/
def Constraint.Holds (c : Constraint α) (x : List α) (tolerance : α) : Prop :=
  match c.relation with
  | .atMost => c.lhs x ≤ c.rhs + tolerance
  | .atLeast => c.rhs - tolerance ≤ c.lhs x
  | .equal => Scalar.abs (c.lhs x - c.rhs) ≤ tolerance

instance (c : Constraint α) (x : List α) (tolerance : α) :
    Decidable (c.Holds x tolerance) := by
  unfold Constraint.Holds; split <;> infer_instance

/-- The variables whose coefficients are away from zero by more than the
    tolerance, with their coefficients. -/
def Constraint.support (c : Constraint α) (tolerance : α) : List (Nat × α) :=
  (c.coefficients.zipIdx.filter fun (a, _) => tolerance < Scalar.abs a).map fun (a, j) => (j, a)

/-- The variable that the constraint is about, if it is about exactly one. -/
def Constraint.single? (c : Constraint α) (tolerance : α) : Option (Nat × α) :=
  match c.support tolerance with
  | [entry] => some entry
  | _ => none

end

/-! ## Models -/

structure Model (α : Type) where
  sense : Sense
  vars : List (Variable α) := []
  /-- One coefficient per variable. -/
  objective : List α := []
  constraints : List (Constraint α) := []
  deriving DecidableEq

namespace Model

variable {α : Type}

/-- The model with one more variable and its objective coefficient.  The
    constraints do not mention it: they get a zero coefficient. -/
def addVariable [Scalar α] (m : Model α) (v : Variable α) (coefficient : α) : Model α where
  sense := m.sense
  vars := m.vars ++ [v]
  objective := m.objective ++ [coefficient]
  constraints := m.constraints.map fun c => { c with coefficients := c.coefficients ++ [0] }

/-- The model with one more constraint at the end. -/
def addConstraint (m : Model α) (c : Constraint α) : Model α :=
  { m with constraints := m.constraints ++ [c] }

/-- The names of the variables, in order. -/
def names (m : Model α) : List String := m.vars.map (·.name)

/-- The first variable of that name. -/
def index? (m : Model α) (name : String) : Option Nat :=
  m.vars.findIdx? (·.name == name)

/-- The positions of the variables that take whole values only. -/
def integralIndices (m : Model α) : List Nat :=
  (m.vars.zipIdx.filter fun (v, _) => v.kind.isIntegral).map fun (_, j) => j

def hasIntegral (m : Model α) : Bool := m.vars.any (·.kind.isIntegral)

/-! ## Alignment -/

/-- The part of a model whose coefficients are counted. -/
inductive Part where
  | objective
  | constraint (name : String)
  deriving DecidableEq

/-- A part with another number of coefficients than there are variables. -/
structure Misalignment where
  part : Part
  expected : Nat
  found : Nat
  deriving DecidableEq

/-- The first part that does not have one coefficient per variable: the
    objective, then the constraints in order. -/
def misalignment (m : Model α) : Option Misalignment :=
  let n := m.vars.length
  if m.objective.length ≠ n then some ⟨.objective, n, m.objective.length⟩
  else (m.constraints.find? (·.coefficients.length ≠ n)).map fun c =>
    ⟨.constraint c.name, n, c.coefficients.length⟩

/-- Every part has one coefficient per variable. -/
def Aligned (m : Model α) : Prop := m.misalignment = none

instance (m : Model α) : Decidable m.Aligned := inferInstanceAs (Decidable (_ = none))

/-! ## Points -/

variable [Scalar α]

/-- The objective at a point. -/
def evaluate (m : Model α) (x : List α) : α := Scalar.dot m.objective x

/-- The point satisfies all bounds and constraints, up to a tolerance.  That
    values are whole is not asked. -/
def IsFeasible (m : Model α) (x : List α) (tolerance : α) : Prop :=
  x.length = m.vars.length ∧
  (∀ vx ∈ m.vars.zip x,
    vx.1.lowerBound - tolerance ≤ vx.2 ∧ vx.2 ≤ vx.1.upperBound + tolerance) ∧
  ∀ c ∈ m.constraints, c.Holds x tolerance

instance (m : Model α) (x : List α) (tolerance : α) : Decidable (m.IsFeasible x tolerance) :=
  inferInstanceAs (Decidable (_ ∧ _ ∧ _))

end Model

end IntegerProgramming
