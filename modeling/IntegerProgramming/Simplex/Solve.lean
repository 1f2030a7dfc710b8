import IntegerProgramming.Event

/-! # The simplex method

    A run has two phases.  Repair pivots bring negative right-hand sides, left
    behind by lower bounds, back to zero or above; improvement pivots then
    raise the objective until no column can enter.  Both phases share one
    budget of pivots, and the budget is asked for only when a pivot is due. -/

namespace IntegerProgramming

/-- The simplex engine. -/
structure Simplex (α : Type) where
  tolerance : α
  /-- The most pivots that a run may make. -/
  maxPivots : Nat := 10000
  /-- Whether tableaux are recorded. -/
  snapshots : Bool := true
  deriving DecidableEq

/-- What is known about a linear program. -/
structure Solution (α : Type) where
  status : Status
  /-- The optimal point, in the order of the variables; empty if there is none. -/
  values : List α := []
  assignment : Assignment α := []
  objective : Option α := none
  /-- The number of pivots made. -/
  iterations : Nat
  trace : Trace α
  deriving DecidableEq

namespace Simplex

variable {α : Type} [Scalar α] {n m : Nat}

/-! ## Runs -/

/-- A tableau and the record of how it was reached. -/
structure State (α : Type) (n m : Nat) where
  tableau : Tableau α n m
  trace : Trace α

/-- How a run ends. -/
inductive Ending (α : Type) where
  | optimal
  | unbounded
  | infeasible (reason : Infeasibility α)
  /-- A pivot is due and the budget is spent. -/
  | exhausted
  deriving DecidableEq

structure Run (α : Type) (n m : Nat) where
  last : State α n m
  /-- The number of repair pivots, which come first. -/
  repairs : Nat
  ending : Ending α

/-- The first tableau, recorded. -/
def start (s : Simplex α) (form : StandardForm α n m) : State α n m :=
  let tableau := Tableau.initial form
  let trace : Trace α := { columns := form.columns.toList }
  ⟨tableau, trace.addSnapshot s.snapshots (tableau.snapshot form 0)⟩

/-- One pivot, recorded. -/
def advance (s : Simplex α) (form : StandardForm α n m) (state : State α n m)
    (place : Tableau.Place α n m) : State α n m :=
  let iteration := state.trace.pivots.size + 1
  let tableau := state.tableau.pivot s.tolerance place.row place.column
  ⟨tableau, (state.trace.addPivot (state.tableau.step form place iteration)).addSnapshot
    s.snapshots (tableau.snapshot form iteration)⟩

/-- Improves the objective with at most `budget` pivots, after a number of
    repairs. -/
def improve (s : Simplex α) (form : StandardForm α n m) (repairs : Nat) :
    Nat → State α n m → Run α n m
  | budget, state =>
    match state.tableau.improvement s.tolerance with
    | .optimal => ⟨state, repairs, .optimal⟩
    | .unbounded => ⟨state, repairs, .unbounded⟩
    | .pivot place =>
      match budget with
      | 0 => ⟨state, repairs, .exhausted⟩
      | budget + 1 => improve s form repairs budget (advance s form state place)

/-- Repairs the right-hand sides and then improves the objective, with at most
    `budget` pivots in all. -/
def repair (s : Simplex α) (form : StandardForm α n m) : Nat → State α n m → Run α n m
  | budget, state =>
    match state.tableau.repair s.tolerance with
    | .done => improve s form state.trace.pivots.size budget state
    | .stuck row =>
      ⟨state, state.trace.pivots.size,
        .infeasible (.stuckRow (form.label (state.tableau.basis.get row)) (state.tableau.rhs row))⟩
    | .pivot place =>
      match budget with
      | 0 => ⟨state, state.trace.pivots.size, .exhausted⟩
      | budget + 1 => repair s form budget (advance s form state place)

def run (s : Simplex α) (form : StandardForm α n m) : Run α n m :=
  repair s form s.maxPivots (start s form)

/-! ## Answers -/

/-- The point that a tableau stands for, measured from zero again. -/
def point (s : Simplex α) (form : StandardForm α n m) (t : Tableau α n m) : List α :=
  List.zipWith (· + ·) (t.values s.tolerance) form.lower.toList

/-- The objective that a tableau stands for: what the lower bounds contribute
    comes on top, and a minimization was turned around. -/
def objective (sense : Sense) (form : StandardForm α n m) (t : Tableau α n m) : α :=
  let gain := t.objective + Scalar.dot form.objective.toList form.lower.toList
  match sense with
  | .maximize => gain
  | .minimize => -gain

/-- The answer that a run gives. -/
def Run.answer (s : Simplex α) (sense : Sense) (form : StandardForm α n m) (r : Run α n m) :
    Except (Failure α) (Solution α) :=
  let trace := r.last.trace
  let pivots := trace.pivots.size
  match r.ending with
  | .exhausted => .error (.pivotLimit s.maxPivots trace)
  | .infeasible _ => .ok { status := .infeasible, iterations := pivots, trace }
  | .unbounded => .ok { status := .unbounded, iterations := pivots, trace }
  | .optimal =>
    let values := s.point form r.last.tableau
    .ok
      { status := .optimal
        values
        assignment := .ofLists form.names.toList values
        objective := some (objective sense form r.last.tableau)
        iterations := pivots
        trace }

/-- The events of a run. -/
def Run.events (sense : Sense) (form : StandardForm α n m) (r : Run α n m) : Array (Event α) :=
  let pivots := r.last.trace.pivots
  let steps := pivots.mapIdx fun k step => Event.pivot step (decide (k < r.repairs))
  match r.ending with
  | .exhausted => steps
  | .infeasible reason => steps.push (.linearInfeasible reason pivots.size)
  | .unbounded => steps.push (.linearUnbounded pivots.size)
  | .optimal =>
    steps.push (.linearOptimal pivots.size (some (objective sense form r.last.tableau)))

/-- Solves a linear program, with the events on the way. -/
def report (s : Simplex α) (model : Model α) : Report α (Solution α) :=
  match model.misalignment with
  | some cause => ⟨.error (.misaligned cause), #[]⟩
  | none =>
    match model.standardForm s.tolerance with
    | .error (.unsupported cause) => ⟨.error (.unsupported cause), #[]⟩
    | .error (.infeasible reason) =>
      ⟨.ok { status := .infeasible, iterations := 0, trace := {} }, #[.emptyRange reason]⟩
    | .ok ⟨_, form⟩ =>
      let r := s.run form
      ⟨r.answer s model.sense form, r.events model.sense form⟩

/-- Solves a linear program. -/
def solve (s : Simplex α) (model : Model α) : Except (Failure α) (Solution α) :=
  (s.report model).answer

end Simplex

end IntegerProgramming
