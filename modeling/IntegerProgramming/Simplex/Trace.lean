import IntegerProgramming.Simplex.Tableau

/-! # Traces

    The record of a run of the simplex method: the column labels, every pivot,
    and, on request, the tableau before the first pivot and after every one.
    Rows and basic columns are recorded by their labels. -/

namespace IntegerProgramming

/-- One pivot: a column enters the basis and another one leaves. -/
structure Pivot (α : Type) where
  /-- The number of the pivot, from one. -/
  iteration : Nat
  entering : String
  leaving : String
  /-- The row, counted so that the objective row is zero. -/
  row : Nat
  column : Nat
  element : α
  /-- The step that the entering variable takes. -/
  ratio : α
  deriving DecidableEq

/-- A tableau at some moment. -/
structure Snapshot (α : Type) where
  /-- The number of pivots made before. -/
  iteration : Nat
  /-- The label of the objective row, then the basic column of each row. -/
  basis : List String
  cells : Array (Array α)
  deriving DecidableEq

structure Trace (α : Type) where
  columns : List String := []
  snapshots : Array (Snapshot α) := #[]
  pivots : Array (Pivot α) := #[]
  deriving DecidableEq

variable {α : Type} {n m : Nat}

/-- The label of a column. -/
def StandardForm.label (form : StandardForm α n m) (j : Fin (n + m)) : String :=
  form.columns.get j.castSucc

/-- A tableau with labels, after a number of pivots. -/
def Tableau.snapshot (form : StandardForm α n m) (t : Tableau α n m) (iteration : Nat) :
    Snapshot α where
  iteration := iteration
  basis := "z" :: t.basis.toList.map form.label
  cells := t.cells.toArray.map (·.toArray)

/-- The record of a pivot that is about to be made. -/
def Tableau.step (form : StandardForm α n m) (t : Tableau α n m) (place : Tableau.Place α n m)
    (iteration : Nat) : Pivot α where
  iteration := iteration
  entering := form.label place.column
  leaving := form.label t.basis[place.row]
  row := place.row + 1
  column := place.column
  element := t.entry place.row place.column
  ratio := place.ratio

namespace Trace

/-- Adds a snapshot if snapshots are kept. -/
def addSnapshot (trace : Trace α) (keep : Bool) (snapshot : Snapshot α) : Trace α :=
  if keep then { trace with snapshots := trace.snapshots.push snapshot } else trace

def addPivot (trace : Trace α) (pivot : Pivot α) : Trace α :=
  { trace with pivots := trace.pivots.push pivot }

end Trace

end IntegerProgramming
