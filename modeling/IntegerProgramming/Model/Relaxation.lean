import IntegerProgramming.Model.Infeasibility

/-! # The continuous relaxation

    A model without its whole-number conditions, in the form that the simplex
    method takes: a constraint on a single variable becomes a bound of that
    variable, and every other constraint stays as it is.

    At tolerance zero the relaxation has the same points as the model; the
    bounds of the two are written differently, because an absent bound means
    something else once the kind of the variable has changed. -/

namespace IntegerProgramming

variable {α : Type} [Scalar α]

/-! ## Ranges -/

/-- The values between two bounds. -/
structure Range (α : Type) where
  lower : α
  upper : α
  deriving DecidableEq

/-- The range of the bounds in force. -/
def Variable.range (v : Variable α) : Range α := ⟨v.lowerBound, v.upperBound⟩

namespace Range

def capAbove (r : Range α) (limit : α) : Range α := { r with upper := Scalar.smaller r.upper limit }

def capBelow (r : Range α) (limit : α) : Range α := { r with lower := Scalar.larger r.lower limit }

/-- The values `x` of the range for which `a * x` is related to `rhs` as
    asked.  A negative coefficient turns the relation around. -/
def restrict (r : Range α) (relation : Relation) (a rhs : α) : Range α :=
  let limit := rhs / a
  match relation, decide (0 < a) with
  | .atMost, true | .atLeast, false => r.capAbove limit
  | .atLeast, true | .atMost, false => r.capBelow limit
  | .equal, _ => (r.capBelow limit).capAbove limit

/-- The lower end is above the upper end by more than the tolerance. -/
def IsEmpty (r : Range α) (tolerance : α) : Prop := r.upper + tolerance < r.lower

instance (r : Range α) (tolerance : α) : Decidable (r.IsEmpty tolerance) :=
  inferInstanceAs (Decidable (_ < _))

end Range

/-! ## Folding -/

/-- Folds a constraint on a single variable into that variable's range. -/
def Constraint.fold (tolerance : α) (ranges : List (Range α)) (c : Constraint α) :
    List (Range α) :=
  match c.single? tolerance with
  | some (j, a) => ranges.modify j (·.restrict c.relation a c.rhs)
  | none => ranges

/-- The ranges of the variables after all constraints have been folded. -/
def Model.foldedRanges (m : Model α) (tolerance : α) : List (Range α) :=
  m.constraints.foldl (Constraint.fold tolerance) (m.vars.map Variable.range)

/-- A bound, if it is finite. -/
def finiteBound (x : α) : Option α := if Scalar.IsFinite x then some x else none

/-- The variable as it appears in the relaxation, with its folded range.  An
    unrestricted variable keeps its kind if it still has no lower bound. -/
def Variable.relaxed (v : Variable α) (r : Range α) : Variable α where
  name := v.name
  kind := if v.kind = .unrestricted ∧ Scalar.IsInfinite r.lower then .unrestricted else .continuous
  lower := finiteBound r.lower
  upper := finiteBound r.upper

/-- The relaxation of a model; it has none if the folded range of a variable
    is empty, and the first such variable is the reason. -/
def Model.relax (m : Model α) (tolerance : α) : Except (Infeasibility α) (Model α) :=
  let ranged := m.vars.zip (m.foldedRanges tolerance)
  match ranged.find? fun (_, r) => r.IsEmpty tolerance with
  | some (v, r) => .error (.crossedBounds v.name r.lower r.upper)
  | none => .ok
      { sense := m.sense
        vars := ranged.map fun (v, r) => v.relaxed r
        objective := m.objective
        constraints := m.constraints.filter fun c => (c.single? tolerance).isNone }

end IntegerProgramming
