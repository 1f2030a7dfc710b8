import IntegerProgramming.Proofs.Checked.Form
import IntegerProgramming.Proofs.Simplex.Replay

/-! # The simplex method without sizes

    A run on grids makes the same pivots as one on tableaux.  Nothing in it
    fixes the shape of a grid; that the shape stays what it was, and that no
    rule asks for a pivot in the objective row or in the last column, is a
    property of its states (`Simplex.fits_of_visited`).

    So no read and no write of a run misses, and the run of an aligned model has
    a result, the one of the engine (`Simplex.report?_eq`). -/

namespace IntegerProgramming

variable {α : Type}

namespace Grid

/-! ## Runs -/

/-- A grid and the record of how it was reached. -/
structure State (α : Type) where
  grid : Grid α
  trace : Trace α

structure Run (α : Type) where
  last : State α
  repairs : Nat
  ending : Simplex.Ending α

variable [Scalar α] (s : Simplex α)

/-- Records a grid if snapshots are kept. -/
def record? (keep : Bool) (g : Grid α) (trace : Trace α) : Option (Trace α) :=
  if keep then g.snapshot.map fun q => trace.addSnapshot keep q else some trace

/-- The first grid of a form, recorded. -/
def start? (f : Form α) : Option (State α) := do
  let g ← f.grid?
  let trace ← record? s.snapshots g { columns := g.columns.toList }
  return ⟨g, trace⟩

/-- One pivot, recorded. -/
def advance? (state : State α) (place : Place α) : Option (State α) := do
  let step ← state.grid.step place
  let g ← state.grid.pivot s.tolerance place.row place.column
  let trace ← record? s.snapshots g (state.trace.addPivot step)
  return ⟨g, trace⟩

/-- One of the two rules asks for a pivot. -/
def State.Asks (tolerance : α) (state : State α) (place : Place α) : Prop :=
  state.grid.repair tolerance = some (.pivot place) ∨
    state.grid.improvement tolerance = some (.pivot place)

/-- The states that runs pass through, with pivots where a rule asks for them. -/
inductive Visited (f : Form α) : State α → Prop where
  | start {state : State α} (h : start? s f = some state) : Visited f state
  | next {state state' : State α} {place : Place α} (hstate : Visited f state)
      (hasks : state.Asks s.tolerance place) (h : advance? s state place = some state') :
      Visited f state'

/-- Improves the objective with at most `budget` pivots. -/
def improve? (repairs : Nat) : Nat → State α → Option (Run α)
  | budget, state => do
    match ← state.grid.improvement s.tolerance with
    | .optimal => return ⟨state, repairs, .optimal⟩
    | .unbounded => return ⟨state, repairs, .unbounded⟩
    | .pivot place =>
      match budget with
      | 0 => return ⟨state, repairs, .exhausted⟩
      | budget + 1 => improve? repairs budget (← advance? s state place)

/-- Repairs the right-hand sides and then improves the objective. -/
def repair? : Nat → State α → Option (Run α)
  | budget, state => do
    match ← state.grid.repair s.tolerance with
    | .done => improve? s state.grid.pivots budget state
    | .stuck row =>
      let label ← state.grid.basicLabel row
      let rhs ← state.grid.cell row (← state.grid.last?)
      return ⟨state, state.grid.pivots, .infeasible (.stuckRow label rhs)⟩
    | .pivot place =>
      match budget with
      | 0 => return ⟨state, state.grid.pivots, .exhausted⟩
      | budget + 1 => repair? budget (← advance? s state place)

def run? (f : Form α) : Option (Run α) := do
  repair? s s.maxPivots (← start? s f)

/-! ## Answers -/

/-- The objective that a grid stands for. -/
def total? (sense : Sense) (f : Form α) (g : Grid α) : Option α := do
  let gain := (← g.objective) + Scalar.dot f.objective f.lower
  return match sense with
    | .maximize => gain
    | .minimize => -gain

/-- The answer that a run gives. -/
def Run.answer? (sense : Sense) (f : Form α) (r : Run α) :
    Option (Except (Failure α) (Solution α)) :=
  let trace := r.last.trace
  let pivots := r.last.grid.pivots
  match r.ending with
  | .exhausted => return .error (.pivotLimit s.maxPivots trace)
  | .infeasible _ => return .ok { status := .infeasible, iterations := pivots, trace }
  | .unbounded => return .ok { status := .unbounded, iterations := pivots, trace }
  | .optimal => do
    let measured ← r.last.grid.values s.tolerance
    let values := List.zipWith (· + ·) measured f.lower
    let objective ← total? sense f r.last.grid
    return .ok
      { status := .optimal
        values
        assignment := .ofLists f.names values
        objective := some objective
        iterations := pivots
        trace }

/-- The events of a run. -/
def Run.events? (sense : Sense) (f : Form α) (r : Run α) : Option (Array (Event α)) :=
  let pivots := r.last.trace.pivots
  let steps := pivots.mapIdx fun k step => Event.pivot step (decide (k < r.repairs))
  match r.ending with
  | .exhausted => return steps
  | .infeasible reason => return steps.push (.linearInfeasible reason r.last.grid.pivots)
  | .unbounded => return steps.push (.linearUnbounded r.last.grid.pivots)
  | .optimal => do
    let objective ← total? sense f r.last.grid
    return steps.push (.linearOptimal r.last.grid.pivots (some objective))

end Grid

/-- Solves a linear program without sizes. -/
def Simplex.report? [Scalar α] (s : Simplex α) (model : Model α) :
    Option (Report α (Solution α)) :=
  match model.misalignment with
  | some cause => some ⟨.error (.misaligned cause), #[]⟩
  | none => do
    match ← model.form? s.tolerance with
    | .error (.unsupported cause) => return ⟨.error (.unsupported cause), #[]⟩
    | .error (.infeasible reason) =>
      return ⟨.ok { status := .infeasible, iterations := 0, trace := {} }, #[.emptyRange reason]⟩
    | .ok f =>
      let r ← Grid.run? s f
      return ⟨← r.answer? s model.sense f, ← r.events? model.sense f⟩

/-! ## Runs on the grids of tableaux -/

namespace Simplex

variable {n m : Nat} (form : StandardForm α n m)

/-- The state of a run, without sizes. -/
def State.onGrid (state : State α n m) : Grid.State α :=
  ⟨state.tableau.grid form state.trace.pivots.size, state.trace⟩

def Run.onGrid (r : Run α n m) : Grid.Run α := ⟨r.last.onGrid form, r.repairs, r.ending⟩

theorem record?_grid (keep : Bool) (t : Tableau α n m) (k : Nat) (trace : Trace α) :
    Grid.record? keep (t.grid form k) trace =
      some (trace.addSnapshot keep (t.snapshot form k)) := by
  unfold Grid.record?
  cases keep with
  | true => rw [if_pos rfl, t.grid_snapshot]; rfl
  | false => rfl

variable [Scalar α] (s : Simplex α)

theorem start?_flat : Grid.start? s form.flat = some ((start s form).onGrid form) := by
  have hpivots : (start s form).trace.pivots.size = 0 := by
    unfold start Trace.addSnapshot
    dsimp only
    split <;> rfl
  unfold Grid.start?
  rw [form.grid?_flat]
  simp only [Option.bind_eq_bind, Option.bind_some, record?_grid]
  unfold State.onGrid
  rw [hpivots]
  rfl

theorem advance?_onGrid (state : State α n m) (place : Tableau.Place α n m) :
    Grid.advance? s (state.onGrid form) place.onGrid =
      some ((advance s form state place).onGrid form) := by
  unfold Grid.advance?
  simp only [State.onGrid, Option.bind_eq_bind, Option.bind_some, Tableau.grid_step,
    Tableau.grid_pivot, record?_grid, pivots_advance]
  rfl

/-- The rules ask for the same on the grid of a tableau. -/
theorem repair_onGrid {τ : α} {state : State α n m} {rule : Tableau.Repair α n m}
    (h : state.tableau.repair τ = rule) :
    (state.onGrid form).grid.repair τ = some rule.onGrid := by
  rw [← h]
  exact state.tableau.grid_repair form _ τ

theorem improvement_onGrid {τ : α} {state : State α n m} {rule : Tableau.Improvement α n m}
    (h : state.tableau.improvement τ = rule) :
    (state.onGrid form).grid.improvement τ = some rule.onGrid := by
  rw [← h]
  exact state.tableau.grid_improvement form _ τ

theorem improve?_onGrid (repairs budget : Nat) (state : State α n m) :
    Grid.improve? s repairs budget (state.onGrid form) =
      some ((improve s form repairs budget state).onGrid form) := by
  fun_induction improve s form repairs budget state with
  | case1 budget state h =>
    unfold Grid.improve?
    rw [improvement_onGrid form h]
    rfl
  | case2 budget state h =>
    unfold Grid.improve?
    rw [improvement_onGrid form h]
    rfl
  | case3 state place h =>
    unfold Grid.improve?
    rw [improvement_onGrid form h]
    rfl
  | case4 state place h budget ih =>
    unfold Grid.improve?
    rw [improvement_onGrid form h]
    simp only [Tableau.Improvement.onGrid, Option.bind_eq_bind, Option.bind_some,
      advance?_onGrid, ih]

theorem repair?_onGrid (budget : Nat) (state : State α n m) :
    Grid.repair? s budget (state.onGrid form) =
      some ((repair s form budget state).onGrid form) := by
  fun_induction repair s form budget state with
  | case1 budget state h =>
    unfold Grid.repair?
    rw [repair_onGrid form h]
    exact improve?_onGrid form s _ budget state
  | case2 budget state row h =>
    unfold Grid.repair?
    rw [repair_onGrid form h]
    simp only [Tableau.Repair.onGrid, State.onGrid, Option.bind_eq_bind, Option.bind_some,
      Tableau.grid_basicLabel, Tableau.grid_last, Tableau.grid_rhs]
    rfl
  | case3 state place h =>
    unfold Grid.repair?
    rw [repair_onGrid form h]
    rfl
  | case4 state place h budget ih =>
    unfold Grid.repair?
    rw [repair_onGrid form h]
    simp only [Tableau.Repair.onGrid, Option.bind_eq_bind, Option.bind_some,
      advance?_onGrid, ih]

/-- Every run has a result on grids. -/
theorem run?_flat : Grid.run? s form.flat = some ((s.run form).onGrid form) := by
  unfold Grid.run?
  rw [start?_flat]
  exact repair?_onGrid form s s.maxPivots (start s form)

/-! ## Shapes -/

/-- A pivot that is asked for on the grid of a tableau has a place in it. -/
theorem exists_place {state : State α n m} {place : Grid.Place α}
    (h : (state.onGrid form).Asks s.tolerance place) :
    ∃ place' : Tableau.Place α n m, place = place'.onGrid := by
  rcases h with h | h
  · cases hrepair : state.tableau.repair s.tolerance with
    | pivot place' =>
      rw [repair_onGrid form hrepair] at h
      exact ⟨place', (Grid.Repair.pivot.inj (Option.some.inj h)).symm⟩
    | _ => rw [repair_onGrid form hrepair] at h; cases h
  · cases himprovement : state.tableau.improvement s.tolerance with
    | pivot place' =>
      rw [improvement_onGrid form himprovement] at h
      exact ⟨place', (Grid.Improvement.pivot.inj (Option.some.inj h)).symm⟩
    | _ => rw [improvement_onGrid form himprovement] at h; cases h

/-- The states that are visited on grids are those of tableaux. -/
theorem exists_state {state : Grid.State α} (h : Grid.Visited s form.flat state) :
    ∃ state' : State α n m, state = state'.onGrid form := by
  induction h with
  | start h =>
    rw [start?_flat] at h
    exact ⟨start s form, (Option.some.inj h).symm⟩
  | next _ hasks h ih =>
    obtain ⟨state', rfl⟩ := ih
    obtain ⟨place', rfl⟩ := exists_place form s hasks
    rw [advance?_onGrid] at h
    exact ⟨advance s form state' place', (Option.some.inj h).symm⟩

/-- A run of the engine passes through states that are visited on grids. -/
theorem visited_of_passes {phase : Phase} {state : State α n m}
    (h : Passes s form phase state) : Grid.Visited s form.flat (state.onGrid form) := by
  induction h with
  | start => exact .start (start?_flat form s)
  | @pivot phase state place _ hasks ih =>
    have hasks' : (state.onGrid form).Asks s.tolerance place.onGrid := by
      cases phase with
      | repairing => exact .inl (repair_onGrid form hasks)
      | improving => exact .inr (improvement_onGrid form hasks)
    exact ih.next hasks' (advance?_onGrid form s state place)
  | repaired _ _ ih => exact ih

/-- The grids of a run keep the shape of the first one, and every pivot is made
    below the objective row and before the last column. -/
theorem fits_of_visited {state : Grid.State α} (h : Grid.Visited s form.flat state) :
    state.grid.Fits n m ∧ ∀ place, state.Asks s.tolerance place →
      1 ≤ place.row ∧ place.row ≤ m ∧ place.column < n + m := by
  obtain ⟨state', rfl⟩ := exists_state form s h
  refine ⟨state'.tableau.grid_fits form _, fun place hasks => ?_⟩
  obtain ⟨place', rfl⟩ := exists_place form s hasks
  exact ⟨Nat.succ_pos _, place'.row.isLt, place'.column.isLt⟩

/-- The grids of a run have the size of the model, one row for each row of its
    form. -/
theorem fits_of_form {model : Model α} (hal : model.Aligned) {f : Grid.Form α}
    (hform : model.form? s.tolerance = some (.ok f)) {state : Grid.State α}
    (h : Grid.Visited s f state) :
    state.grid.Fits model.vars.length f.rows.length ∧ ∀ place, state.Asks s.tolerance place →
      1 ≤ place.row ∧ place.row ≤ f.rows.length ∧
        place.column < model.vars.length + f.rows.length := by
  rw [Model.form?_eq hal, Option.some.injEq] at hform
  cases hstandard : model.standardForm s.tolerance with
  | error refusal =>
    rw [hstandard] at hform
    cases hform
  | ok p =>
    rw [hstandard] at hform
    obtain rfl : p.form.flat = f := Except.ok.inj hform
    have hrows : p.form.flat.rows.length = p.height := by simp [StandardForm.flat]
    rw [hrows]
    exact fits_of_visited p.form s h

/-! ## Answers on the grids of tableaux -/

theorem total?_onGrid (sense : Sense) (t : Tableau α n m) (k : Nat) :
    Grid.total? sense form.flat (t.grid form k) = some (objective sense form t) := by
  unfold Grid.total? objective
  rw [t.grid_objective]
  rfl

theorem answer?_onGrid (sense : Sense) (r : Run α n m) :
    (r.onGrid form).answer? s sense form.flat = some (r.answer s sense form) := by
  have hending : (r.onGrid form).ending = r.ending := rfl
  unfold Grid.Run.answer? Run.answer
  rw [hending]
  cases r.ending with
  | exhausted => rfl
  | infeasible reason => rfl
  | unbounded => rfl
  | optimal =>
    have hmeasured : (r.onGrid form).last.grid.values s.tolerance =
        some (r.last.tableau.values s.tolerance) := r.last.tableau.grid_values form _ _
    have htotal : Grid.total? sense form.flat (r.onGrid form).last.grid =
        some (objective sense form r.last.tableau) := total?_onGrid form sense _ _
    simp only [hmeasured, htotal, Option.bind_eq_bind, Option.bind_some]
    rfl

theorem events?_onGrid (sense : Sense) (r : Run α n m) :
    (r.onGrid form).events? sense form.flat = some (r.events sense form) := by
  have hending : (r.onGrid form).ending = r.ending := rfl
  unfold Grid.Run.events? Run.events
  rw [hending]
  cases r.ending with
  | exhausted => rfl
  | infeasible reason => rfl
  | unbounded => rfl
  | optimal =>
    have htotal : Grid.total? sense form.flat (r.onGrid form).last.grid =
        some (objective sense form r.last.tableau) := total?_onGrid form sense _ _
    simp only [htotal, Option.bind_eq_bind, Option.bind_some]
    rfl

/-- The simplex method never reads or writes outside of a list or an array. -/
theorem report?_eq (model : Model α) : s.report? model = some (s.report model) := by
  unfold report? report
  cases hal : model.misalignment with
  | some cause => rfl
  | none =>
    rw [Model.form?_eq hal]
    cases model.standardForm s.tolerance with
    | error refusal =>
      cases refusal with
      | unsupported cause => rfl
      | infeasible reason => rfl
    | ok p =>
      simp only [Except.map, Option.bind_eq_bind, Option.bind_some, run?_flat, answer?_onGrid,
        events?_onGrid]
      rfl

end Simplex

end IntegerProgramming
