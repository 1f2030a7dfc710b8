import Mathlib.Data.List.FinRange
import Mathlib.Data.Nat.PSub
import IntegerProgramming.Simplex.Trace

/-! # Tableaux without sizes

    The sizes of a tableau are part of its type, so that no entry outside of it
    can be asked for.  A grid holds the same numbers in plain arrays.  Every
    read and every write may miss them, and then the operation has no result;
    the same goes for counting below zero.

    Each operation on tableaux is written here once more on grids, and on the
    grid of a tableau it has a result, the same one (`Tableau.grid_pivot` and
    its likes).  So whoever starts from a tableau never reads or writes outside
    of an array, whatever the numbers are. -/

namespace IntegerProgramming

/-! ## Loops -/

section loops

variable {β γ σ τ : Type}

/-- A search succeeds if every test on the way has a result. -/
theorem findM?_map (g : β → γ) {p : γ → Option Bool} {q : β → Bool} {xs : List β}
    (h : ∀ x ∈ xs, p (g x) = some (q x)) :
    (xs.map g).findM? p = some ((xs.find? q).map g) := by
  induction xs with
  | nil => rfl
  | cons x xs ih =>
    obtain ⟨hx, hxs⟩ := List.forall_mem_cons.mp h
    rw [List.map_cons, List.findM?, hx, List.find?_cons]
    cases hq : q x with
    | true => rfl
    | false => exact ih hxs

/-- A scan succeeds if every step of it has a result. -/
theorem foldlM_map (g : β → γ) (r : σ → τ) {f : τ → γ → Option τ} {f' : σ → β → σ} {xs : List β}
    (h : ∀ s, ∀ x ∈ xs, f (r s) (g x) = some (r (f' s x))) (s : σ) :
    (xs.map g).foldlM f (r s) = some (r (xs.foldl f' s)) := by
  induction xs generalizing s with
  | nil => rfl
  | cons x xs ih =>
    rw [List.map_cons, List.foldlM_cons, h s x List.mem_cons_self, List.foldl_cons]
    exact ih (fun s y hy => h s y (List.mem_cons_of_mem x hy)) _

theorem foldlM_of {f : σ → β → Option σ} {f' : σ → β → σ} {xs : List β}
    (h : ∀ s, ∀ x ∈ xs, f s x = some (f' s x)) (s : σ) :
    xs.foldlM f s = some (xs.foldl f' s) := by
  have hscan := foldlM_map id id h s
  rwa [List.map_id] at hscan

theorem allM_of {p : β → Option Bool} {q : β → Bool} {xs : List β}
    (h : ∀ x ∈ xs, p x = some (q x)) : xs.allM p = some (xs.all q) := by
  induction xs with
  | nil => rfl
  | cons x xs ih =>
    obtain ⟨hx, hxs⟩ := List.forall_mem_cons.mp h
    rw [List.allM, hx, List.all_cons]
    cases hq : q x with
    | true => exact ih hxs
    | false => rfl

/-- A reading of all elements succeeds if each single one has a result. -/
theorem mapM_map (g : β → γ) {f : γ → Option τ} {f' : β → τ} (xs : List β)
    (h : ∀ x ∈ xs, f (g x) = some (f' x)) : (xs.map g).mapM f = some (xs.map f') := by
  induction xs with
  | nil => rfl
  | cons x xs ih =>
    obtain ⟨hx, hxs⟩ := List.forall_mem_cons.mp h
    rw [List.map_cons, List.mapM_cons, hx, ih hxs]
    rfl

/-- A reading of two lists of the same length goes over the positions of the
    first one and looks the others up. -/
theorem mapM_zipIdx {xs : List β} {ys : List γ} (hlength : ys.length = xs.length)
    {f : β × Nat → Option τ} {g : (β × γ) × Nat → τ}
    (h : ∀ x y j, xs[j]? = some x → ys[j]? = some y → f (x, j) = some (g ((x, y), j))) :
    xs.zipIdx.mapM f = some ((xs.zip ys).zipIdx.map g) := by
  have hpairs : xs.zipIdx = (xs.zip ys).zipIdx.map fun p => (p.1.1, p.2) := by
    apply List.ext_getElem
    · simp [hlength]
    · intro i _ _
      simp
  rw [hpairs]
  apply mapM_map
  intro p hp
  rw [List.mem_zipIdx_iff_getElem?, List.getElem?_zip_eq_some] at hp
  exact h _ _ _ hp.1 hp.2

theorem guard_of {p : Prop} [Decidable p] (h : p) : (guard p : Option Unit) = some () :=
  if_pos h

/-- Results that are all there are a result together. -/
theorem mapM_some (xs : Array β) : (xs.map some).mapM id = some xs := by
  have hlist := mapM_map some (f := id) xs.toList fun x _ => rfl
  rw [Array.mapM_eq_mapM_toList, Array.toList_map, hlist, List.map_id']
  rfl

end loops

/-! ## Grids -/

/-- A tableau in plain arrays. -/
structure Grid (α : Type) where
  /-- The objective row, then the constraint rows. -/
  cells : Array (Array α)
  /-- The basic column of each constraint row. -/
  basis : Array Nat
  /-- The labels of the columns. -/
  columns : Array String
  /-- The number of columns that belong to variables. -/
  structural : Nat
  /-- The number of pivots made. -/
  pivots : Nat

namespace Grid

variable {α : Type}

/-- The shape of a tableau for `n` variables and `m` rows. -/
structure Fits (n m : Nat) (g : Grid α) : Prop where
  height : g.cells.size = m + 1
  width : ∀ row ∈ g.cells, row.size = n + m + 1
  basis : g.basis.size = m
  basic : ∀ j ∈ g.basis, j < n + m
  columns : g.columns.size = n + m + 1
  structural : g.structural = n

/-! ### Reading -/

/-- The entry in a row and a column. -/
def cell (g : Grid α) (i j : Nat) : Option α := g.cells[i]?.bind (·[j]?)

/-- The column of the right-hand side, the last one of the objective row. -/
def last? (g : Grid α) : Option Nat := g.cells[0]?.bind (·.size.ppred)

/-- The numbers of the constraint rows. -/
def rows (g : Grid α) : List Nat := List.range' 1 (g.cells.size - 1)

/-- The basic column of a row. -/
def basic (g : Grid α) (i : Nat) : Option Nat := i.ppred.bind (g.basis[·]?)

/-- The objective reached. -/
def objective (g : Grid α) : Option α := g.last?.bind (g.cell 0)

/-- The label of the basic column of a row. -/
def basicLabel (g : Grid α) (i : Nat) : Option String := (g.basic i).bind (g.columns[·]?)

def snapshot (g : Grid α) : Option (Snapshot α) := do
  let basis ← g.basis.toList.mapM (g.columns[·]?)
  return ⟨g.pivots, "z" :: basis, g.cells⟩

variable [Scalar α]

/-! ### Pivoting -/

/-- A place to pivot at.  The objective row is row zero. -/
structure Place (α : Type) where
  row : Nat
  column : Nat
  ratio : α

/-- The record of a pivot that is about to be made. -/
def step (g : Grid α) (place : Place α) : Option (Pivot α) := do
  let entering ← g.columns[place.column]?
  let leaving ← g.basicLabel place.row
  let element ← g.cell place.row place.column
  return ⟨g.pivots + 1, entering, leaving, place.row, place.column, element, place.ratio⟩

/-- Subtracts the multiple of the pivot row that clears the column. -/
def eliminate (tolerance : α) (pivotRow : Array α) (column : Nat) (row : Array α) :
    Option (Array α) := do
  let factor ← row[column]?
  return if factor == 0 then row
    else Array.zipWith (fun x p => Tableau.snap tolerance (x - factor * p)) row pivotRow

/-- The cells after a pivot: the row is divided by the entry at the crossing,
    and the column is cleared in the other rows. -/
def pivotCells (tolerance : α) (cells : Array (Array α)) (row column : Nat) :
    Option (Array (Array α)) := do
  let old ← cells[row]?
  let element ← old[column]?
  let pivotRow := old.map (· / element)
  (cells.mapIdx fun i r => if i = row then some pivotRow
    else eliminate tolerance pivotRow column r).mapM id

/-- Lets a column enter the basis at a row. -/
def pivot (tolerance : α) (g : Grid α) (row column : Nat) : Option (Grid α) := do
  let i ← row.ppred
  guard (i < g.basis.size)
  let cells ← pivotCells tolerance g.cells row column
  return { g with cells, basis := g.basis.setIfInBounds i column, pivots := g.pivots + 1 }

/-! ### Rules -/

/-- The first row whose right-hand side is negative. -/
def negativeRow? (tolerance : α) (g : Grid α) : Option (Option Nat) := do
  let last ← g.last?
  g.rows.findM? fun i => (g.cell i last).map fun x => decide (x < -tolerance)

/-- The leftmost column with a negative entry in a row, which has to have all
    columns before the last one. -/
def negativeColumn? (tolerance : α) (g : Grid α) (row : Nat) : Option (Option Nat) := do
  let last ← g.last?
  let entries ← g.cells[row]?
  guard (last ≤ entries.size)
  (List.range last).findM? fun j => (g.cell row j).map fun x => decide (x < -tolerance)

/-- Looks at one more row that may end the step of a column. -/
def block (tolerance : α) (g : Grid α) (last row column : Nat) (best : Place α) (i : Nat) :
    Option (Place α) := do
  let rhs ← g.cell i last
  let entry ← g.cell i column
  return if i ≠ row ∧ tolerance < entry ∧ -tolerance ≤ rhs ∧
      rhs / entry < best.ratio - tolerance then
    ⟨i, column, rhs / entry⟩
  else best

/-- The row that ends the step of a column entering for a negative row. -/
def blockingRow (tolerance : α) (g : Grid α) (row column : Nat) : Option (Place α) := do
  let last ← g.last?
  let rhs ← g.cell row last
  let entry ← g.cell row column
  g.rows.foldlM (g.block tolerance last row column) ⟨row, column, rhs / entry⟩

/-- Looks at one more column that may enter. -/
def enter (g : Grid α) (best : α × Option Nat) (j : Nat) : Option (α × Option Nat) := do
  let cost ← g.cell 0 j
  return if cost < best.1 then (cost, some j) else best

/-- The column with the most negative reduced cost. -/
def enteringColumn? (tolerance : α) (g : Grid α) : Option (Option Nat) := do
  let last ← g.last?
  ((List.range last).foldlM g.enter (-tolerance, none)).map (·.2)

/-- Looks at one more row that may leave. -/
def leave (tolerance : α) (g : Grid α) (last column : Nat) (best : α × Option (Place α))
    (i : Nat) : Option (α × Option (Place α)) := do
  let rhs ← g.cell i last
  let entry ← g.cell i column
  return if tolerance < entry ∧ rhs / entry < best.1 - tolerance then
    (rhs / entry, some ⟨i, column, rhs / entry⟩)
  else best

/-- The row with the least ratio among those that an entering column
    exhausts. -/
def leavingRow? (tolerance : α) (g : Grid α) (column : Nat) : Option (Option (Place α)) := do
  let last ← g.last?
  (g.rows.foldlM (g.leave tolerance last column) (Scalar.infinity, none)).map (·.2)

/-- What is left to repair. -/
inductive Repair (α : Type) where
  | done
  | stuck (row : Nat)
  | pivot (place : Place α)

def repair (tolerance : α) (g : Grid α) : Option (Repair α) := do
  match ← g.negativeRow? tolerance with
  | none => return .done
  | some row =>
    match ← g.negativeColumn? tolerance row with
    | none => return .stuck row
    | some column => return .pivot (← g.blockingRow tolerance row column)

/-- What is left to improve. -/
inductive Improvement (α : Type) where
  | optimal
  | unbounded
  | pivot (place : Place α)

/-- The place of the pivot that is left to make, if there is one. -/
def Improvement.place? : Improvement α → Option (Place α)
  | .pivot place => some place
  | .optimal | .unbounded => none

omit [Scalar α] in
theorem Improvement.eq_pivot {rule : Improvement α} {place : Place α}
    (h : rule.place? = some place) : rule = .pivot place := by
  cases rule with
  | pivot own => rw [Option.some.inj h]
  | optimal | unbounded => cases h

def improvement (tolerance : α) (g : Grid α) : Option (Improvement α) := do
  match ← g.enteringColumn? tolerance with
  | none => return .optimal
  | some column =>
    match ← g.leavingRow? tolerance column with
    | none => return .unbounded
    | some place => return .pivot place

/-! ### The solution -/

/-- A row has the one of a column. -/
def hasOne (tolerance : α) (g : Grid α) (j i : Nat) : Option Bool :=
  (g.cell i j).map fun x => decide (Scalar.abs (x - 1) ≤ tolerance)

/-- A row other than `i` has an entry away from zero. -/
def hasOther (tolerance : α) (g : Grid α) (j i k : Nat) : Option Bool :=
  (g.cell k j).map fun x => decide (k ≠ i ∧ tolerance < Scalar.abs x)

/-- The row that a column has its one in, if it is zero everywhere else. -/
def unitRow? (tolerance : α) (g : Grid α) (j : Nat) : Option (Option Nat) := do
  let cost ← g.cell 0 j
  match ← g.rows.findM? (g.hasOne tolerance j) with
  | none => return none
  | some i =>
    let other ← g.rows.findM? (g.hasOther tolerance j i)
    return if ¬ tolerance < Scalar.abs cost ∧ other = none then some i else none

/-- Reads the value of one more variable. -/
def read (tolerance : α) (g : Grid α) (last : Nat) (sofar : List Nat × List α) (j : Nat) :
    Option (List Nat × List α) := do
  match ← g.unitRow? tolerance j with
  | some i =>
    let rhs ← g.cell i last
    return if i ∈ sofar.1 then (sofar.1, sofar.2 ++ [0]) else (i :: sofar.1, sofar.2 ++ [rhs])
  | none => return (sofar.1, sofar.2 ++ [0])

/-- The values of the variables. -/
def values (tolerance : α) (g : Grid α) : Option (List α) := do
  let last ← g.last?
  ((List.range g.structural).foldlM (g.read tolerance last) ([], [])).map (·.2)

end Grid

/-! ## The grid of a tableau -/

namespace Tableau

variable {α : Type} {n m : Nat} (form : StandardForm α n m) (t : Tableau α n m) (k : Nat)

/-- A tableau in plain arrays, after a number of pivots. -/
def grid : Grid α where
  cells := t.cells.toArray.map (·.toArray)
  basis := t.basis.toArray.map (·.val)
  columns := form.columns.toArray
  structural := n
  pivots := k

/-- A place in a tableau, with the objective row as row zero. -/
def Place.onGrid (place : Tableau.Place α n m) : Grid.Place α :=
  ⟨place.row + 1, place.column, place.ratio⟩

theorem grid_fits : (t.grid form k).Fits n m where
  height := by simp [grid]
  width row hrow := by
    obtain ⟨v, -, rfl⟩ := Array.mem_map.mp hrow
    exact v.size_toArray
  basis := by simp [grid]
  basic j hj := by
    obtain ⟨b, -, rfl⟩ := Array.mem_map.mp hj
    exact b.isLt
  columns := form.columns.size_toArray
  structural := rfl

/-! ### Reading -/

theorem grid_row (i : Fin (m + 1)) :
    (t.grid form k).cells[i.val]? = some (t.cells.get i).toArray := by
  simp [grid, Vector.get]

theorem grid_cell (i : Fin (m + 1)) (j : Fin (n + m + 1)) :
    (t.grid form k).cell i j = some ((t.cells.get i).get j) := by
  have hrow : (t.cells.get i).toArray[j.val]? = some (t.cells.get i)[j] := by simp
  rw [Grid.cell, grid_row]
  exact hrow

theorem grid_entry (i : Fin m) (j : Fin (n + m)) :
    (t.grid form k).cell (i + 1) j = some (t.entry i j) :=
  t.grid_cell form k i.succ j.castSucc

theorem grid_rhs (i : Fin m) : (t.grid form k).cell (i + 1) (n + m) = some (t.rhs i) :=
  t.grid_cell form k i.succ (Fin.last (n + m))

theorem grid_reducedCost (j : Fin (n + m)) :
    (t.grid form k).cell 0 j = some (t.reducedCost j) :=
  t.grid_cell form k 0 j.castSucc

theorem grid_last : (t.grid form k).last? = some (n + m) := by
  simp [Grid.last?, grid]

theorem grid_objective : (t.grid form k).objective = some t.objective := by
  rw [Grid.objective, grid_last, Option.bind_some]
  exact t.grid_cell form k 0 (Fin.last (n + m))

theorem grid_rows : (t.grid form k).rows = (List.finRange m).map fun i => i.val + 1 := by
  have hsize : (t.grid form k).cells.size - 1 = m := by simp [grid]
  have hrange : (List.finRange m).map (fun i => i.val + 1) =
      ((List.finRange m).map (·.val)).map (· + 1) := by
    rw [List.map_map]
    rfl
  rw [Grid.rows, hsize, hrange, List.map_coe_finRange_eq_range, List.range'_eq_map_range]
  simp [Nat.add_comm]

theorem grid_basic (i : Fin m) : (t.grid form k).basic (i + 1) = some (t.basis.get i).val := by
  simp [Grid.basic, grid, Vector.get]

theorem grid_label (j : Fin (n + m)) : (t.grid form k).columns[j.val]? = some (form.label j) := by
  simp [grid, StandardForm.label, Vector.get]

theorem grid_basicLabel (i : Fin m) :
    (t.grid form k).basicLabel (i + 1) = some (form.label (t.basis.get i)) := by
  rw [Grid.basicLabel, grid_basic, Option.bind_some, grid_label]

theorem grid_snapshot : (t.grid form k).snapshot = some (t.snapshot form k) := by
  have hbasis : (t.grid form k).basis.toList = t.basis.toList.map (·.val) :=
    Array.toList_map
  have hlabels := mapM_map (fun j : Fin (n + m) => j.val) t.basis.toList
    fun j _ => t.grid_label form k j
  unfold Grid.snapshot
  rw [hbasis, hlabels]
  rfl

theorem grid_step (place : Tableau.Place α n m) :
    (t.grid form k).step place.onGrid = some (t.step form place (k + 1)) := by
  unfold Grid.step
  simp only [Place.onGrid]
  rw [grid_label, grid_basicLabel, grid_entry]
  rfl

/-! ### Pivoting -/

variable [Scalar α]

theorem eliminate_toArray (tolerance : α) (pivotRow row : Vector α (n + m + 1))
    (column : Fin (n + m)) :
    Grid.eliminate tolerance pivotRow.toArray column row.toArray =
      some (eliminate tolerance pivotRow column row).toArray := by
  have hfactor : row.toArray[column.val]? = some row[column.castSucc] := by simp
  unfold Grid.eliminate eliminate
  rw [hfactor]
  simp only [Option.bind_eq_bind, Option.bind_some]
  split
  · rfl
  · simp

/-- The rows after a pivot. -/
theorem getElem_pivot (tolerance : α) (row : Fin m) (column : Fin (n + m)) (i : Nat)
    (hi : i < m + 1) : (t.pivot tolerance row column).cells[i] =
      if i = row.val + 1 then t.cells[row.succ].map (· / t.entry row column)
      else eliminate tolerance (t.cells[row.succ].map (· / t.entry row column)) column
        t.cells[i] := by
  have hrow : (⟨i, hi⟩ : Fin (m + 1)) = row.succ ↔ i = row.val + 1 := by
    rw [Fin.ext_iff, Fin.val_succ]
  unfold pivot
  rw [Vector.getElem_ofFn]
  simp only [hrow]
  rfl

/-- A pivot on plain arrays reads and writes inside of them. -/
theorem grid_pivotCells (tolerance : α) (row : Fin m) (column : Fin (n + m)) :
    Grid.pivotCells tolerance (t.grid form k).cells (row + 1) column =
      some ((t.pivot tolerance row column).grid form (k + 1)).cells := by
  have hrow : (t.grid form k).cells[row.val + 1]? = some t.cells[row.succ].toArray :=
    t.grid_row form k row.succ
  have helement : t.cells[row.succ].toArray[column.val]? = some (t.entry row column) := by
    simp [entry]
  have hpivotRow : t.cells[row.succ].toArray.map (· / t.entry row column) =
      (t.cells[row.succ].map (· / t.entry row column)).toArray := by
    rw [Vector.toArray_map]
  unfold Grid.pivotCells
  rw [hrow]
  simp only [Option.bind_eq_bind, Option.bind_some, helement, hpivotRow]
  -- Every row has a result, the pivot row and the others.
  have hrows : ((t.grid form k).cells.mapIdx fun i r =>
      if i = row.val + 1 then some (t.cells[row.succ].map (· / t.entry row column)).toArray
      else Grid.eliminate tolerance (t.cells[row.succ].map (· / t.entry row column)).toArray
        column r) = ((t.pivot tolerance row column).grid form (k + 1)).cells.map some := by
    apply Array.ext
    · simp [grid]
    · intro i hi hi'
      have hm : i < m + 1 := by simpa [grid] using hi
      have hbefore : i < (t.grid form k).cells.size := by simpa [grid] using hm
      have hafter : i < ((t.pivot tolerance row column).grid form (k + 1)).cells.size := by
        simpa [grid] using hm
      have hold : (t.grid form k).cells[i] = t.cells[i].toArray := by simp [grid]
      have hnew : ((t.pivot tolerance row column).grid form (k + 1)).cells[i] =
          (t.pivot tolerance row column).cells[i].toArray := by simp [grid]
      rw [Array.getElem_mapIdx, Array.getElem_map, hold, hnew, getElem_pivot]
      split
      · rfl
      · exact eliminate_toArray _ _ _ _
  rw [hrows, mapM_some]

theorem grid_pivot (tolerance : α) (place : Tableau.Place α n m) :
    (t.grid form k).pivot tolerance place.onGrid.row place.onGrid.column =
      some ((t.pivot tolerance place.row place.column).grid form (k + 1)) := by
  have hrow : place.row.val < (t.grid form k).basis.size := by simp [grid]
  have hbasis : (t.grid form k).basis.setIfInBounds place.row place.column =
      ((t.pivot tolerance place.row place.column).grid form (k + 1)).basis := by
    simp [grid, pivot, Array.setIfInBounds]
  unfold Grid.pivot Place.onGrid
  rw [Nat.ppred_succ]
  simp only [Option.bind_eq_bind, Option.bind_some, guard_of hrow, grid_pivotCells, hbasis]
  rfl

/-! ### Rules -/

theorem grid_negativeRow? (tolerance : α) : (t.grid form k).negativeRow? tolerance =
    some ((t.negativeRow? tolerance).map fun i => i.val + 1) := by
  unfold Grid.negativeRow?
  rw [grid_last, grid_rows]
  apply findM?_map
  intro i _
  rw [grid_rhs]
  rfl

theorem grid_negativeColumn? (tolerance : α) (row : Fin m) :
    (t.grid form k).negativeColumn? tolerance (row + 1) =
      some ((t.negativeColumn? tolerance row).map (·.val)) := by
  have hrow : (t.grid form k).cells[row.val + 1]? = some t.cells[row.succ].toArray :=
    t.grid_row form k row.succ
  have hwidth : n + m ≤ t.cells[row.succ].toArray.size := by simp
  unfold Grid.negativeColumn?
  rw [grid_last, hrow]
  simp only [Option.bind_eq_bind, Option.bind_some, guard_of hwidth]
  rw [← List.map_coe_finRange_eq_range]
  apply findM?_map
  intro j _
  rw [grid_entry]
  rfl

theorem grid_blockingRow (tolerance : α) (row : Fin m) (column : Fin (n + m)) :
    (t.grid form k).blockingRow tolerance (row + 1) column =
      some (t.blockingRow tolerance row column).onGrid := by
  unfold Grid.blockingRow
  rw [grid_last, grid_rows]
  simp only [Option.bind_eq_bind, Option.bind_some, grid_rhs, grid_entry]
  refine foldlM_map (fun i : Fin m => i.val + 1) Place.onGrid (fun best i _ => ?_)
    (⟨row, column, t.rhs row / t.entry row column⟩ : Tableau.Place α n m)
  have hrow : i.val + 1 ≠ row.val + 1 ↔ i ≠ row := by
    rw [ne_eq, Nat.succ_inj, ← Fin.ext_iff]
  have hratio : best.onGrid.ratio = best.ratio := rfl
  unfold Grid.block
  simp only [grid_rhs, grid_entry, Option.bind_eq_bind, Option.bind_some, hrow, hratio]
  split
  · rfl
  · rfl

theorem grid_enteringColumn? (tolerance : α) : (t.grid form k).enteringColumn? tolerance =
    some ((t.enteringColumn? tolerance).map (·.val)) := by
  unfold Grid.enteringColumn?
  rw [grid_last, Option.bind_eq_bind, Option.bind_some, ← List.map_coe_finRange_eq_range,
    Option.map_eq_some_iff]
  refine ⟨_, foldlM_map (fun j : Fin (n + m) => j.val)
    (fun best : α × Option (Fin (n + m)) => (best.1, best.2.map (·.val)))
    (fun best j _ => ?_) (-tolerance, none), rfl⟩
  unfold Grid.enter
  rw [grid_reducedCost, Option.bind_eq_bind, Option.bind_some]
  split
  · rfl
  · rfl

theorem grid_leavingRow? (tolerance : α) (column : Fin (n + m)) :
    (t.grid form k).leavingRow? tolerance column =
      some ((t.leavingRow? tolerance column).map Place.onGrid) := by
  unfold Grid.leavingRow?
  rw [grid_last, grid_rows, Option.bind_eq_bind, Option.bind_some, Option.map_eq_some_iff]
  refine ⟨_, foldlM_map (fun i : Fin m => i.val + 1)
    (fun best : α × Option (Tableau.Place α n m) => (best.1, best.2.map Place.onGrid))
    (fun best i _ => ?_) (Scalar.infinity, none), rfl⟩
  unfold Grid.leave
  simp only [Option.bind_eq_bind, Option.bind_some, grid_rhs, grid_entry]
  split
  · rfl
  · rfl

/-- What is left to repair, without sizes. -/
def Repair.onGrid : Repair α n m → Grid.Repair α
  | .done => .done
  | .stuck row => .stuck (row + 1)
  | .pivot place => .pivot place.onGrid

theorem grid_repair (tolerance : α) :
    (t.grid form k).repair tolerance = some (t.repair tolerance).onGrid := by
  unfold Grid.repair repair
  rw [grid_negativeRow?]
  cases t.negativeRow? tolerance with
  | none => rfl
  | some row =>
    simp only [Option.map_some, Option.bind_eq_bind, Option.bind_some, grid_negativeColumn?]
    cases t.negativeColumn? tolerance row with
    | none => rfl
    | some column =>
      simp only [Option.map_some, grid_blockingRow]
      rfl

/-- What is left to improve, without sizes. -/
def Improvement.onGrid : Improvement α n m → Grid.Improvement α
  | .optimal => .optimal
  | .unbounded => .unbounded
  | .pivot place => .pivot place.onGrid

theorem grid_improvement (tolerance : α) :
    (t.grid form k).improvement tolerance = some (t.improvement tolerance).onGrid := by
  unfold Grid.improvement improvement
  rw [grid_enteringColumn?]
  cases t.enteringColumn? tolerance with
  | none => rfl
  | some column =>
    simp only [Option.map_some, Option.bind_eq_bind, Option.bind_some, grid_leavingRow?]
    cases t.leavingRow? tolerance column with
    | none => rfl
    | some place => rfl

/-! ### The solution -/

theorem grid_hasOther (tolerance : α) (i : Fin m) (j : Fin (n + m)) :
    (t.grid form k).rows.findM? ((t.grid form k).hasOther tolerance j (i + 1)) =
      some (((List.finRange m).find? fun r =>
        decide (r ≠ i ∧ tolerance < Scalar.abs (t.entry r j))).map fun r => r.val + 1) := by
  rw [grid_rows]
  apply findM?_map
  intro r _
  have hrow : r.val + 1 ≠ i.val + 1 ↔ r ≠ i := by
    rw [ne_eq, Nat.succ_inj, ← Fin.ext_iff]
  unfold Grid.hasOther
  simp only [grid_entry, Option.map_some, hrow]

theorem grid_unitRow? (tolerance : α) (j : Fin (n + m)) :
    (t.grid form k).unitRow? tolerance j =
      some ((t.unitRow? tolerance j).map fun i => i.val + 1) := by
  have hone : (t.grid form k).rows.findM? ((t.grid form k).hasOne tolerance j) =
      some (((List.finRange m).find? fun i =>
        Scalar.abs (t.entry i j - 1) ≤ tolerance).map fun i => i.val + 1) := by
    rw [grid_rows]
    apply findM?_map
    intro i _
    unfold Grid.hasOne
    rw [grid_entry, Option.map_some]
  unfold Grid.unitRow? unitRow?
  rw [grid_reducedCost, hone]
  cases (List.finRange m).find? fun i => Scalar.abs (t.entry i j - 1) ≤ tolerance with
  | none => rfl
  | some i =>
    -- A column is clear outside of the row if no other row is found.
    have hclear : (¬ tolerance < Scalar.abs (t.reducedCost j) ∧ ((List.finRange m).find? fun r =>
        decide (r ≠ i ∧ tolerance < Scalar.abs (t.entry r j))) = none) ↔
          t.ClearOutside tolerance i j := by
      simp [ClearOutside, List.find?_eq_none]
    simp only [Option.map_some, Option.bind_eq_bind, Option.bind_some, grid_hasOther,
      Option.map_eq_none_iff, hclear]
    by_cases hother : t.ClearOutside tolerance i j
    · rw [if_pos hother, Option.filter_some_pos (by simpa using hother)]
      rfl
    · rw [if_neg hother, Option.filter_some_neg (by simpa using hother)]
      rfl

/-- The values are read off the grid as they are off the tableau. -/
theorem grid_values (tolerance : α) :
    (t.grid form k).values tolerance = some (t.values tolerance) := by
  unfold Grid.values
  rw [grid_last, Option.bind_eq_bind, Option.bind_some]
  have hvariables : (t.grid form k).structural = n := rfl
  rw [hvariables, ← List.map_coe_finRange_eq_range, Option.map_eq_some_iff]
  refine ⟨_, foldlM_map (fun j : Fin n => j.val)
    (fun sofar : List (Fin m) × List α => (sofar.1.map fun i => i.val + 1, sofar.2))
    (fun sofar j _ => ?_) ([], []), rfl⟩
  have hunit := t.grid_unitRow? form k tolerance (j.castAdd m)
  rw [Fin.val_castAdd] at hunit
  unfold Grid.read
  rw [hunit]
  cases t.unitRow? tolerance (j.castAdd m) with
  | none => rfl
  | some i =>
    have hclaimed : i.val + 1 ∈ sofar.1.map (fun i => i.val + 1) ↔ i ∈ sofar.1 := by
      simp [Fin.val_inj]
    simp only [Option.map_some, Option.bind_eq_bind, Option.bind_some, grid_rhs, hclaimed]
    split
    · rfl
    · rfl

end Tableau

end IntegerProgramming
