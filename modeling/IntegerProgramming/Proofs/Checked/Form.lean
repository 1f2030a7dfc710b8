import IntegerProgramming.Proofs.Checked.Grid
import IntegerProgramming.Proofs.Simplex.StandardForm

/-! # Standard forms without sizes

    The standard form of a model and its first tableau, built in plain lists and
    arrays.  The tableau starts with zeros and is filled place by place, and a
    row is copied into it as a whole; a write that misses its array has no
    result, and neither has a copy of the wrong length.

    For an aligned model everything has a result, the flat form of the one with
    sizes (`Model.form?_eq`, `StandardForm.grid?_flat`). -/

namespace IntegerProgramming

variable {α β γ : Type}

namespace Grid

/-! ## Writes -/

/-- Changes the entry at a place, if there is one. -/
def modify? (xs : Array β) (i : Nat) (f : β → Option β) : Option (Array β) := do
  let x ← xs[i]?
  let y ← f x
  return xs.setIfInBounds i y

/-- Writes an entry at a place, if there is one. -/
def write? (xs : Array β) (i : Nat) (y : β) : Option (Array β) := modify? xs i fun _ => some y

/-- Copies a list to the first `n` places, if it fills them. -/
def copy? (n : Nat) (ys : List β) (xs : Array β) : Option (Array β) := do
  guard (n ≤ xs.size ∧ ys.length = n)
  return ys.toArray ++ xs.extract n xs.size

/-- An entry inside of a list is there. -/
theorem modify?_toArray {xs : List β} {i : Nat} (hi : i < xs.length) (f : β → β) :
    modify? xs.toArray i (fun x => some (f x)) = some (xs.modify i f).toArray := by
  have hget : xs.toArray[i]? = some xs[i] := by simp [hi]
  have hset : xs.set i (f xs[i]) = xs.modify i f := by
    apply List.ext_getElem
    · simp
    · intro k hk _
      rw [List.getElem_set, List.getElem_modify]
      split
      · rename_i h
        subst h
        rfl
      · rfl
  unfold modify?
  rw [hget]
  simp [hset]

/-- The place behind the first entries is there. -/
theorem modify?_append (before after : List β) {x y : β} {f : β → Option β} (h : f x = some y) :
    modify? (before ++ x :: after).toArray before.length f =
      some (before ++ y :: after).toArray := by
  have hget : (before ++ x :: after).toArray[before.length]? = some x := by simp
  unfold modify?
  rw [hget]
  simp [h]

theorem write?_append {before : List β} {i : Nat} (after : List β) (x y : β)
    (hi : i = before.length) :
    write? (before ++ x :: after).toArray i y = some (before ++ y :: after).toArray := by
  rw [hi]
  exact modify?_append before after rfl

/-- A list that is copied over equal entries stands before the rest of them. -/
theorem copy?_replicate {ys : List β} {n : Nat} (hlength : ys.length = n) (k : Nat) (x : β) :
    copy? n ys (Array.replicate (n + k) x) = some (ys ++ List.replicate k x).toArray := by
  have hfits : n ≤ (Array.replicate (n + k) x).size ∧ ys.length = n := by simp [hlength]
  unfold copy?
  rw [guard_of hfits]
  simp

/-- The entry at a place stands between others that are equal to it. -/
theorem replicate_split {n i : Nat} (hi : i < n) (x : β) :
    List.replicate n x = List.replicate i x ++ x :: List.replicate (n - (i + 1)) x := by
  rw [← List.replicate_succ, ← List.replicate_add]
  congr 1
  omega

/-- Equal entries that follow each other are changed one by one. -/
theorem foldlM_modify? {f : γ → β → Option β} {g : γ → β} {x : β} {is : List γ} {place : γ → Nat}
    {before : List β} (after : List β) (hplace : is.map place = List.range' before.length is.length)
    (h : ∀ i ∈ is, f i x = some (g i)) :
    is.foldlM (fun xs i => modify? xs (place i) (f i))
        (before ++ (List.replicate is.length x ++ after)).toArray =
      some (before ++ (is.map g ++ after)).toArray := by
  induction is generalizing before with
  | nil => rfl
  | cons i is ih =>
    obtain ⟨hi, his⟩ := List.forall_mem_cons.mp h
    rw [List.map_cons, List.length_cons, List.range'_succ] at hplace
    obtain ⟨hfirst, hrest⟩ := List.cons.inj hplace
    rw [List.length_cons, List.replicate_succ, List.cons_append, List.foldlM_cons, hfirst,
      modify?_append before _ hi]
    -- What was written stands before the other entries now.
    have hnext : is.map place = List.range' (before ++ [g i]).length is.length := by
      rw [hrest, List.length_append, List.length_singleton]
    have hwritten := ih hnext his
    rw [List.append_assoc, List.append_assoc] at hwritten
    exact hwritten

/-! ## Forms -/

/-- A row in plain lists. -/
structure Row (α : Type) where
  name : String
  coefficients : List α
  rhs : α

/-- A standard form in plain lists. -/
structure Form (α : Type) where
  names : List String
  objective : List α
  lower : List α
  rows : List (Row α)

variable [Scalar α]

/-- Fills the constraint row with the number `i`: coefficients, the one of the
    slack, right-hand side. -/
def fillRow (n width : Nat) (row : Row α) (i : Nat) (xs : Array α) : Option (Array α) := do
  let xs ← copy? n row.coefficients xs
  let xs ← write? xs (n + i) 1
  write? xs (width - 1) row.rhs

/-- The first tableau of a form. -/
def Form.grid? (f : Form α) : Option (Grid α) := do
  let n := f.names.length
  let m := f.rows.length
  let width := n + m + 1
  let zeros := Array.replicate (m + 1) (Array.replicate width (0 : α))
  let cells ← modify? zeros 0 fun xs =>
    f.objective.zipIdx.foldlM (fun xs p => write? xs p.2 (-p.1)) xs
  let cells ← f.rows.zipIdx.foldlM
    (fun cells p => modify? cells (p.2 + 1) (fillRow n width p.1 p.2)) cells
  return {
    cells
    basis := (Array.range m).map (n + ·)
    columns := (f.names ++ f.rows.map (fun r => "s_" ++ r.name) ++ ["rhs"]).toArray
    structural := n
    pivots := 0 }

end Grid

/-! ## The first tableau -/

section flat

variable {n m : Nat}

/-- A row without its size. -/
def Row.flat (r : Row α n) : Grid.Row α := ⟨r.name, r.coefficients.toList, r.rhs⟩

/-- A standard form without its sizes. -/
def StandardForm.flat (form : StandardForm α n m) : Grid.Form α where
  names := form.names.toList
  objective := form.objective.toList
  lower := form.lower.toList
  rows := form.rows.toList.map Row.flat

variable (form : StandardForm α n m)

/-- The rows of a flat form with their numbers. -/
theorem StandardForm.zipIdx_rows_flat :
    form.flat.rows.zipIdx = (List.finRange m).map fun i => ((form.rows.get i).flat, i.val) := by
  apply List.ext_getElem
  · simp [flat]
  · intro i hi _
    simp [flat, Vector.get]

variable [Scalar α]

/-- The objective row is written place by place. -/
theorem StandardForm.fill_objectiveRow :
    form.objective.toList.zipIdx.foldlM (fun xs p => Grid.write? xs p.2 (-p.1))
        (Array.replicate (n + m + 1) (0 : α)) =
      some (Tableau.objectiveRow form).toArray := by
  have hzeros : Array.replicate (n + m + 1) (0 : α) =
      ([] ++ (List.replicate form.objective.toList.length 0 ++
        List.replicate (m + 1) (0 : α))).toArray := by
    rw [List.nil_append, ← List.replicate_add, Vector.length_toList, ← Nat.add_assoc,
      List.toArray_replicate]
  have hnegated : form.objective.toList.zipIdx.map (fun p : α × Nat => -p.1) =
      form.objective.toList.map (- ·) := by
    conv => rhs; rw [← List.zipIdx_map_fst 0 form.objective.toList, List.map_map]
    rfl
  have hrow : (Tableau.objectiveRow form).toArray =
      ([] ++ (form.objective.toList.zipIdx.map (fun p : α × Nat => -p.1) ++
        List.replicate (m + 1) (0 : α))).toArray := by
    rw [hnegated]
    unfold Tableau.objectiveRow
    simp [List.replicate_succ', Vector.toList]
  have hplaces : form.objective.toList.zipIdx.map Prod.snd =
      List.range' ([] : List α).length form.objective.toList.zipIdx.length := by
    rw [List.length_zipIdx]
    exact List.zipIdx_map_snd 0 _
  rw [hzeros, hrow, ← List.length_zipIdx (i := 0)]
  exact Grid.foldlM_modify? _ hplaces fun _ _ => rfl

/-- A constraint row is filled by its coefficients, its slack and its right-hand
    side. -/
theorem StandardForm.fill_constraintRow (i : Fin m) :
    Grid.fillRow n (n + m + 1) (form.rows.get i).flat i (Array.replicate (n + m + 1) (0 : α)) =
      some (Tableau.constraintRow form i).toArray := by
  have hzeros : List.replicate (m + 1) (0 : α) =
      List.replicate i 0 ++ 0 :: (List.replicate (m - (i + 1)) 0 ++ [0]) := by
    rw [List.replicate_succ', Grid.replicate_split i.isLt, List.append_assoc, List.cons_append]
  have hcopied : Grid.copy? n (form.rows.get i).flat.coefficients
      (Array.replicate (n + m + 1) (0 : α)) =
      some (((form.rows.get i).coefficients.toList ++ List.replicate i 0) ++
        0 :: (List.replicate (m - (i + 1)) 0 ++ [0])).toArray := by
    rw [List.append_assoc, ← hzeros]
    exact Grid.copy?_replicate (form.rows.get i).coefficients.length_toList (m + 1) 0
  have hslack : n + i.val =
      ((form.rows.get i).coefficients.toList ++ List.replicate i 0).length := by
    simp
  have hlast : n + m + 1 - 1 = (((form.rows.get i).coefficients.toList ++ List.replicate i 0) ++
      1 :: List.replicate (m - (i + 1)) (0 : α)).length := by
    simp
    omega
  have hrow : (Tableau.constraintRow form i).toArray =
      ((((form.rows.get i).coefficients.toList ++ List.replicate i 0) ++
        1 :: List.replicate (m - (i + 1)) 0) ++ [(form.rows.get i).rhs]).toArray := by
    have hunit := Scalar.unitRow_eq (α := α) i.isLt
    unfold Scalar.unitRow at hunit
    unfold Tableau.constraintRow
    simp [hunit, Vector.toList]
  unfold Grid.fillRow
  rw [hcopied, hrow]
  simp only [Option.bind_eq_bind, Option.bind_some]
  rw [Grid.write?_append _ 0 1 hslack, Option.bind_some]
  have hwritten := Grid.write?_append [] 0 (form.rows.get i).rhs hlast
  rw [List.append_assoc, List.cons_append] at hwritten
  exact hwritten

/-- The first grid has the objective row and the constraint rows below it. -/
theorem StandardForm.cells_initial : ((Tableau.initial form).grid form 0).cells =
    ((Tableau.objectiveRow form).toArray ::
      (List.finRange m).map fun i => (Tableau.constraintRow form i).toArray).toArray := by
  apply Array.ext
  · simp [Tableau.grid]
  · intro i _ hi
    cases i with
    | zero => simp [Tableau.grid, Tableau.initial]
    | succ i =>
      have hm : i < m := by simpa using hi
      have hrow : (Tableau.initial form).cells[i + 1] = Tableau.constraintRow form ⟨i, hm⟩ := by
        unfold Tableau.initial
        rw [Vector.getElem_ofFn]
        rfl
      simp [Tableau.grid, hrow]

/-- The constraint rows are filled one after the other, below the objective
    row. -/
theorem StandardForm.fill_constraintRows :
    form.flat.rows.zipIdx.foldlM
        (fun cells p => Grid.modify? cells (p.2 + 1) (Grid.fillRow n (n + m + 1) p.1 p.2))
        ([(Tableau.objectiveRow form).toArray] ++
          List.replicate m (Array.replicate (n + m + 1) (0 : α))).toArray =
      some ((Tableau.initial form).grid form 0).cells := by
  have hplaces : (List.finRange m).map (fun i => i.val + 1) =
      List.range' [(Tableau.objectiveRow form).toArray].length (List.finRange m).length := by
    rw [List.length_finRange, List.range'_eq_map_range, ← List.map_coe_finRange_eq_range,
      List.map_map]
    simp [Nat.add_comm]
  have hfilled := Grid.foldlM_modify? [] hplaces fun i _ => form.fill_constraintRow i
  rw [List.length_finRange, List.append_nil, List.append_nil] at hfilled
  rw [form.zipIdx_rows_flat, List.foldlM_map, cells_initial]
  exact hfilled

/-- The first tableau is filled without missing a place. -/
theorem StandardForm.grid?_flat :
    form.flat.grid? = some ((Tableau.initial form).grid form 0) := by
  have hnames : form.flat.names.length = n := form.names.length_toList
  have hrows : form.flat.rows.length = m := by simp [flat]
  -- The objective row is filled first, and then the rows below it.
  have hobjective : Grid.modify? (Array.replicate (m + 1) (Array.replicate (n + m + 1) (0 : α))) 0
      (fun xs => form.flat.objective.zipIdx.foldlM (fun xs p => Grid.write? xs p.2 (-p.1)) xs) =
      some ([(Tableau.objectiveRow form).toArray] ++
        List.replicate m (Array.replicate (n + m + 1) (0 : α))).toArray := by
    rw [← List.toArray_replicate, List.replicate_succ]
    exact Grid.modify?_append [] _ form.fill_objectiveRow
  have hbasis : (Array.range m).map (n + ·) = ((Tableau.initial form).grid form 0).basis := by
    apply Array.ext
    · simp [Tableau.grid]
    · intro i hi _
      simp [Tableau.grid, Tableau.initial]
  have hcolumns : (form.flat.names ++ form.flat.rows.map (fun r => "s_" ++ r.name) ++
      ["rhs"]).toArray = ((Tableau.initial form).grid form 0).columns := by
    simp [Tableau.grid, StandardForm.columns, flat]
    rfl
  unfold Grid.Form.grid?
  simp only [hnames, hrows, hobjective, form.fill_constraintRows, hbasis, hcolumns,
    Option.bind_eq_bind, Option.bind_some]
  rfl

end flat

/-! ## The form of a model -/

section model

variable [Scalar α]

/-- The row of a finite upper bound, measured from the lower bound of the
    variable. -/
def Variable.flatRow? (n : Nat) (lower : List α) (v : Variable α) (j : Nat) :
    Option (Option (Grid.Row α)) :=
  if Scalar.IsFinite v.upperBound then do
    let coefficients ← Grid.write? (Array.replicate n (0 : α)) j 1
    let l ← lower[j]?
    return some ⟨v.name ++ "_upper", coefficients.toList, Scalar.larger (v.upperBound - l) 0⟩
  else return none

/-- The standard form of a model in plain lists. -/
def Model.form? (m : Model α) (tolerance : α) : Option (Except (Refusal α) (Grid.Form α)) :=
  match m.vars.mapM (Variable.origin tolerance) with
  | .error refusal => some (.error refusal)
  | .ok lower =>
    match m.constraints.forM Constraint.admit with
    | .error refusal => some (.error refusal)
    | .ok _ => do
      let uppers ← m.vars.zipIdx.mapM fun vj => vj.1.flatRow? m.vars.length lower vj.2
      return .ok {
        names := m.names
        objective := m.gain
        lower
        rows := m.constraints.map (fun c => ⟨c.name, c.coefficients, c.rhs - c.lhs lower⟩) ++
          uppers.filterMap id }

/-- A list of the right length is a vector as it is. -/
theorem toList_vectorOf {n : Nat} {xs : List α} (h : xs.length = n) :
    (vectorOf n xs).toList = xs := by
  apply List.ext_getElem
  · simpa using h.symm
  · intro i _ hi
    simp [vectorOf, hi]

theorem length_unitRow (n j : Nat) : (Scalar.unitRow n j : List α).length = n := by
  simp [Scalar.unitRow]

/-- A single one is written over zeros. -/
theorem Grid.write?_unitRow {n j : Nat} (hj : j < n) :
    write? (Array.replicate n (0 : α)) j 1 = some (Scalar.unitRow n j).toArray := by
  rw [← List.toArray_replicate, replicate_split hj, Scalar.unitRow_eq hj]
  exact write?_append _ 0 1 (List.length_replicate (n := j) (a := (0 : α))).symm

/-- The row of an upper bound is there if the variable has a lower bound. -/
theorem Variable.flatRow?_eq {n j : Nat} {lower : List α} {l : α} (v : Variable α) (hj : j < n)
    (hl : lower[j]? = some l) :
    v.flatRow? n lower j = some ((v.upperRow? n l j).map Row.flat) := by
  unfold flatRow? upperRow?
  split
  · rw [Grid.write?_unitRow hj, hl]
    simp only [Option.bind_eq_bind, Option.bind_some, Option.map_some, Row.flat,
      toList_vectorOf (length_unitRow n j)]
    rfl
  · rfl

/-- Every variable of a list with lower bounds finds its own. -/
theorem mapM_flatRow? {n : Nat} {vs : List (Variable α)} {lower : List α}
    (hlength : lower.length = vs.length) (hn : vs.length = n) :
    vs.zipIdx.mapM (fun vj => vj.1.flatRow? n lower vj.2) =
      some ((vs.zip lower).zipIdx.map fun p => (p.1.1.upperRow? n p.1.2 p.2).map Row.flat) := by
  apply mapM_zipIdx hlength
  intro v l j hv hl
  exact v.flatRow?_eq (hn ▸ (List.getElem?_eq_some_iff.mp hv).1) hl

theorem Model.length_gain (m : Model α) : m.gain.length = m.objective.length := by
  unfold gain
  cases m.sense with
  | maximize => rfl
  | minimize => exact List.length_map _

/-- An aligned model has its standard form in plain lists. -/
theorem Model.form?_eq {m : Model α} (hal : m.Aligned) (tolerance : α) :
    m.form? tolerance = some ((m.standardForm tolerance).map fun p => p.form.flat) := by
  unfold form? standardForm
  cases hlower : m.vars.mapM (Variable.origin tolerance) with
  | error refusal => rfl
  | ok lower =>
    cases hadmit : m.constraints.forM Constraint.admit with
    | error refusal => rfl
    | ok _ =>
      have hlength : lower.length = m.vars.length := by
        rw [(origins_ok hlower).2, List.length_map]
      have hnames : (Vector.ofFn fun i : Fin m.vars.length => m.vars[i].name).toList = m.names := by
        apply List.ext_getElem
        · simp [names]
        · intro i _ _
          simp [names]
      have hgain : (vectorOf m.vars.length m.gain).toList = m.gain :=
        toList_vectorOf (m.length_gain.trans hal.objective)
      have hconstraints : (m.constraints.map fun c => (c.row m.vars.length lower).flat) =
          m.constraints.map fun c => ⟨c.name, c.coefficients, c.rhs - c.lhs lower⟩ := by
        apply List.map_congr_left
        intro c hc
        show Grid.Row.mk c.name (vectorOf m.vars.length c.coefficients).toList _ = _
        rw [toList_vectorOf (hal.constraint hc)]
        rfl
      have hrows : (m.rows m.vars.length lower).toVector.toList.map Row.flat =
          m.constraints.map (fun c => ⟨c.name, c.coefficients, c.rhs - c.lhs lower⟩) ++
            ((m.vars.zip lower).zipIdx.map fun p =>
              (p.1.1.upperRow? m.vars.length p.1.2 p.2).map Row.flat).filterMap id := by
        rw [← hconstraints, List.filterMap_map]
        show (m.rows m.vars.length lower).toList.map Row.flat = _
        unfold rows
        rw [List.map_append, List.map_map, List.map_filterMap]
        rfl
      simp only [bind, Except.bind]
      simp only [mapM_flatRow? hlength rfl, Option.bind_some, ← hrows, pure, Except.pure,
        Except.map, StandardForm.flat, hnames, hgain, toList_vectorOf hlength]

end model

end IntegerProgramming
