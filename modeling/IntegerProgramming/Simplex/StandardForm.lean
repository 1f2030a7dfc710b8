import IntegerProgramming.Model.Infeasibility

/-! # Standard form

    The simplex method solves: maximize an objective over variables from zero
    up, subject to rows that bound a linear form from above.  A model is
    brought to this form by measuring every variable from its lower bound,
    writing finite upper bounds as rows of their own, and negating the
    objective of a minimization.

    Measuring from the lower bounds may make a right-hand side negative. -/

namespace IntegerProgramming

/-- One row of a standard form: the linear form is at most `rhs`. -/
structure Row (α : Type) (n : Nat) where
  name : String
  coefficients : Vector α n
  rhs : α

/-- A problem in `n` variables with `m` rows. -/
structure StandardForm (α : Type) (n m : Nat) where
  names : Vector String n
  /-- The objective to maximize. -/
  objective : Vector α n
  /-- The lower bounds that the variables are measured from. -/
  lower : Vector α n
  rows : Vector (Row α n) m

/-- The labels of the columns: variables, slacks, right-hand side. -/
def StandardForm.columns {α : Type} {n m : Nat} (form : StandardForm α n m) :
    Vector String (n + m + 1) :=
  (form.names ++ form.rows.map fun r => "s_" ++ r.name).push "rhs"

/-- Why a model has no standard form. -/
inductive Refusal (α : Type) where
  /-- The simplex method does not take the model. -/
  | unsupported (cause : Unsupported α)
  /-- A variable has an empty range: there is nothing to solve. -/
  | infeasible (reason : Infeasibility α)

variable {α : Type} [Scalar α]

/-! ## What is taken -/

/-- The lower bound of a continuous variable whose range starts at zero or
    above and is not empty. -/
def Variable.origin (tolerance : α) (v : Variable α) : Except (Refusal α) α :=
  if v.kind ≠ .continuous then
    .error (.unsupported (.discreteVariable v.name v.kind))
  else if ¬ Scalar.IsFinite v.lowerBound ∨ v.lowerBound < 0 then
    .error (.unsupported (.lowerBound v.name v.lowerBound))
  else if v.upperBound < v.lowerBound - tolerance then
    .error (.infeasible (.emptyRange v.name v.lowerBound v.upperBound))
  else .ok v.lowerBound

/-- Accepts an upper bound on a linear form that allows zero. -/
def Constraint.admit (c : Constraint α) : Except (Refusal α) Unit :=
  if c.relation ≠ .atMost then .error (.unsupported (.constraintRelation c.name c.relation))
  else if c.rhs < 0 then .error (.unsupported (.negativeRhs c.name c.rhs))
  else .ok ()

/-! ## Rows -/

/-- The first `n` entries of a list, filled up with zeros. -/
def vectorOf (n : Nat) (xs : List α) : Vector α n := Vector.ofFn fun i => xs.getD i 0

/-- A constraint, measured from the lower bounds. -/
def Constraint.row (n : Nat) (lower : List α) (c : Constraint α) : Row α n :=
  ⟨c.name, vectorOf n c.coefficients, c.rhs - c.lhs lower⟩

/-- The `j`-th variable stays below its upper bound, if that is finite. -/
def Variable.upperRow? (n : Nat) (v : Variable α) (lower : α) (j : Nat) : Option (Row α n) :=
  if Scalar.IsFinite v.upperBound then
    some ⟨v.name ++ "_upper", vectorOf n (Scalar.unitRow n j),
      Scalar.larger (v.upperBound - lower) 0⟩
  else none

/-- The rows of a model: its constraints, then the finite upper bounds. -/
def Model.rows (m : Model α) (n : Nat) (lower : List α) : Array (Row α n) :=
  (m.constraints.map (·.row n lower) ++
    (m.vars.zip lower).zipIdx.filterMap fun ((v, l), j) => v.upperRow? n l j).toArray

/-- The objective to maximize. -/
def Model.gain (m : Model α) : List α :=
  match m.sense with
  | .maximize => m.objective
  | .minimize => m.objective.map (- ·)

/-- A standard form with any number of rows. -/
structure Prepared (α : Type) (n : Nat) where
  height : Nat
  form : StandardForm α n height

/-- The standard form of a model.  Variables are looked at before constraints,
    and the first obstacle counts. -/
def Model.standardForm (m : Model α) (tolerance : α) :
    Except (Refusal α) (Prepared α m.vars.length) := do
  let lower ← m.vars.mapM (Variable.origin tolerance)
  m.constraints.forM Constraint.admit
  let n := m.vars.length
  let rows := m.rows n lower
  return ⟨rows.size,
    { names := Vector.ofFn fun i => m.vars[i].name
      objective := vectorOf n m.gain
      lower := vectorOf n lower
      rows := rows.toVector }⟩

end IntegerProgramming
