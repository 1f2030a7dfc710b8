import IntegerProgramming.Simplex.StandardForm

/-! # Tableaux

    A tableau holds the objective row and one row per constraint, over the
    columns of the variables, the slacks and the right-hand side.  Each
    constraint row has a basic column.  A pivot lets a column enter the basis
    at a row: the row is divided by the entry at the crossing, and multiples of
    it clear the rest of the column.

    The sizes are part of the type, so every row is as long as the others, an
    entering column is never the right-hand side, and a pivot is never made in
    the objective row.

    Three rules choose pivots.  The repair rule takes the first row with a
    negative right-hand side and lets its leftmost negative column enter, as
    far as the rows that are in order allow.  The improvement rule lets the
    column with the most negative reduced cost enter at the row with the least
    ratio. -/

namespace IntegerProgramming

/-- A tableau for `n` variables and `m` rows. -/
structure Tableau (α : Type) (n m : Nat) where
  /-- The objective row, then the constraint rows. -/
  cells : Vector (Vector α (n + m + 1)) (m + 1)
  /-- The basic column of each constraint row. -/
  basis : Vector (Fin (n + m)) m

namespace Tableau

variable {α : Type} {n m : Nat}

/-! ## Reading a tableau -/

/-- The entry of a constraint row in a column. -/
def entry (t : Tableau α n m) (i : Fin m) (j : Fin (n + m)) : α := t.cells[i.succ][j.castSucc]

/-- The right-hand side of a constraint row. -/
def rhs (t : Tableau α n m) (i : Fin m) : α := t.cells[i.succ][Fin.last (n + m)]

/-- The entry of the objective row in a column. -/
def reducedCost (t : Tableau α n m) (j : Fin (n + m)) : α := t.cells[(0 : Fin (m + 1))][j.castSucc]

/-- The objective reached. -/
def objective (t : Tableau α n m) : α := t.cells[(0 : Fin (m + 1))][Fin.last (n + m)]

variable [Scalar α]

/-! ## The first tableau -/

/-- The objective row of a standard form: what each variable costs. -/
def objectiveRow (form : StandardForm α n m) : Vector α (n + m + 1) :=
  (form.objective.map (- ·) ++ Vector.replicate m (0 : α)).push 0

/-- A constraint row of a standard form: its slack column has the one. -/
def constraintRow (form : StandardForm α n m) (i : Fin m) : Vector α (n + m + 1) :=
  (form.rows[i].coefficients ++ (Vector.replicate m (0 : α)).set i 1).push form.rows[i].rhs

/-- The tableau in which all slacks are basic. -/
def initial (form : StandardForm α n m) : Tableau α n m where
  cells := Vector.ofFn (Fin.cases (objectiveRow form) (constraintRow form))
  basis := Vector.ofFn (Fin.natAdd n)

/-! ## Pivoting -/

/-- A place to pivot at, with the step that the entering variable takes. -/
structure Place (α : Type) (n m : Nat) where
  row : Fin m
  column : Fin (n + m)
  ratio : α

/-- Numbers closer to zero than the tolerance become zero. -/
def snap (tolerance x : α) : α := if Scalar.abs x < tolerance then 0 else x

/-- Subtracts the multiple of the pivot row that clears the column; a row with
    a zero there stays as it is. -/
def eliminate (tolerance : α) (pivotRow : Vector α (n + m + 1)) (column : Fin (n + m))
    (row : Vector α (n + m + 1)) : Vector α (n + m + 1) :=
  let factor := row[column.castSucc]
  if factor == 0 then row
  else Vector.zipWith (fun x p => snap tolerance (x - factor * p)) row pivotRow

/-- Lets a column enter the basis at a row. -/
def pivot (tolerance : α) (t : Tableau α n m) (row : Fin m) (column : Fin (n + m)) :
    Tableau α n m :=
  let element := t.entry row column
  let pivotRow := t.cells[row.succ].map (· / element)
  { cells := Vector.ofFn fun i =>
      if i = row.succ then pivotRow else eliminate tolerance pivotRow column t.cells[i]
    basis := t.basis.set row column }

/-! ## Repairing right-hand sides -/

/-- The first row whose right-hand side is negative. -/
def negativeRow? (tolerance : α) (t : Tableau α n m) : Option (Fin m) :=
  (List.finRange m).find? fun i => t.rhs i < -tolerance

/-- The leftmost column with a negative entry in a row. -/
def negativeColumn? (tolerance : α) (t : Tableau α n m) (row : Fin m) : Option (Fin (n + m)) :=
  (List.finRange (n + m)).find? fun j => t.entry row j < -tolerance

/-- The row that ends the step of a column entering for a negative row: that
    row itself, unless a row that is in order would be exhausted earlier. -/
def blockingRow (tolerance : α) (t : Tableau α n m) (row : Fin m) (column : Fin (n + m)) :
    Place α n m :=
  (List.finRange m).foldl
    (fun best i =>
      let ratio := t.rhs i / t.entry i column
      if i ≠ row ∧ tolerance < t.entry i column ∧ -tolerance ≤ t.rhs i ∧
          ratio < best.ratio - tolerance then
        ⟨i, column, ratio⟩
      else best)
    ⟨row, column, t.rhs row / t.entry row column⟩

/-- What is left to repair. -/
inductive Repair (α : Type) (n m : Nat) where
  | done
  /-- The row is negative for all values of the variables. -/
  | stuck (row : Fin m)
  | pivot (place : Place α n m)

def repair (tolerance : α) (t : Tableau α n m) : Repair α n m :=
  match t.negativeRow? tolerance with
  | none => .done
  | some row =>
    match t.negativeColumn? tolerance row with
    | none => .stuck row
    | some column => .pivot (t.blockingRow tolerance row column)

/-! ## Improving the objective -/

/-- The column with the most negative reduced cost, the leftmost one of them. -/
def enteringColumn? (tolerance : α) (t : Tableau α n m) : Option (Fin (n + m)) :=
  ((List.finRange (n + m)).foldl
    (fun best j => if t.reducedCost j < best.1 then (t.reducedCost j, some j) else best)
    (-tolerance, none)).2

/-- The row with the least ratio among those that an entering column
    exhausts, the first one of them. -/
def leavingRow? (tolerance : α) (t : Tableau α n m) (column : Fin (n + m)) :
    Option (Place α n m) :=
  ((List.finRange m).foldl
    (fun best i =>
      let ratio := t.rhs i / t.entry i column
      if tolerance < t.entry i column ∧ ratio < best.1 - tolerance then
        (ratio, some ⟨i, column, ratio⟩)
      else best)
    (Scalar.infinity, none)).2

/-- What is left to improve. -/
inductive Improvement (α : Type) (n m : Nat) where
  | optimal
  | unbounded
  | pivot (place : Place α n m)

def improvement (tolerance : α) (t : Tableau α n m) : Improvement α n m :=
  match t.enteringColumn? tolerance with
  | none => .optimal
  | some column =>
    match t.leavingRow? tolerance column with
    | none => .unbounded
    | some place => .pivot place

/-! ## Reading the solution off -/

/-- Whether a column is zero outside one row, up to the tolerance. -/
def ClearOutside (tolerance : α) (t : Tableau α n m) (i : Fin m) (j : Fin (n + m)) : Prop :=
  ¬ tolerance < Scalar.abs (t.reducedCost j) ∧
    ∀ k, k ≠ i → ¬ tolerance < Scalar.abs (t.entry k j)

instance (tolerance : α) (t : Tableau α n m) (i : Fin m) (j : Fin (n + m)) :
    Decidable (t.ClearOutside tolerance i j) :=
  inferInstanceAs (Decidable (_ ∧ _))

/-- The first row where a column has a one, up to the tolerance, if the column
    is zero everywhere else. -/
def unitRow? (tolerance : α) (t : Tableau α n m) (j : Fin (n + m)) : Option (Fin m) :=
  ((List.finRange m).find? fun i => Scalar.abs (t.entry i j - 1) ≤ tolerance).filter
    fun i => t.ClearOutside tolerance i j

/-- The values of the variables: a variable with a unit column has the
    right-hand side of its row, unless a variable before it took that row;
    all others are zero. -/
def values (tolerance : α) (t : Tableau α n m) : List α :=
  ((List.finRange n).foldl
    (fun (claimed, values) j =>
      match t.unitRow? tolerance (j.castAdd m) with
      | some i =>
        if i ∈ claimed then (claimed, values ++ [0]) else (i :: claimed, values ++ [t.rhs i])
      | none => (claimed, values ++ [0]))
    (([] : List (Fin m)), ([] : List α))).2

end Tableau

end IntegerProgramming
