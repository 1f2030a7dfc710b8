import IntegerProgramming.Number.Double
import IntegerProgramming.Proofs.Checked.Schemes
import IntegerProgramming.Proofs.Solver.Agreement

/-! # The solver with checked accesses

    No model makes the solver leave a list or an array, whatever its numbers
    are.  A misaligned model is refused by every engine before anything is
    looked up.  For every other one the solver with checked accesses has a
    result, the one of the solver that does not check: every look-up of the
    choice of an engine, of the engine and of the search finds something.

    The shapes behind that are stated as well.  The tableaux of all linear
    programs that the model gives rise to keep their shape, points have an entry
    for each variable, and no open node of a knapsack has decided more items
    than there are (`Solver.InRange`). -/

namespace IntegerProgramming

variable {α : Type} [Scalar α]

namespace Solver

/-! ## Checked runs -/

/-- The engine that a model is handed to. -/
def engineFor? (s : Solver α) (model : Model α) : Option Engine :=
  match s.engine with
  | some engine => some engine
  | none =>
    if !model.hasIntegral then some .simplex
    else (Knapsack.ofModel? s.tolerance model).map fun p =>
      if p.isOk then .knapsack else .branchAndBound

/-- Runs an engine. -/
def runEngine? (steps : Nat) (s : Solver α) (model : Model α) :
    Engine → Option (Option (Report α (Outcome α)))
  | .simplex =>
    ((s.simplex s.snapshots).report? model).map fun r => some ⟨r.answer.map .linear, r.events⟩
  | .branchAndBound =>
    (BranchAndBound.report? ⟨s.simplex false, s.settings⟩ steps model).map fun r? =>
      r?.map fun r => ⟨r.answer.map .search, r.events⟩
  | .knapsack =>
    (Knapsack.report? steps s.settings model).map fun r? =>
      r?.map fun r => ⟨r.answer.map .search, r.events⟩

/-- Solves a model in at most `steps` search steps, with the events on the way. -/
def report? (steps : Nat) (s : Solver α) (model : Model α) :
    Option (Option (Report α (Outcome α))) := do
  let engine ← s.engineFor? model
  let r? ← s.runEngine? steps model engine
  return r?.map fun r =>
    { r with
      events := #[.solving engine model.vars.length model.constraints.length] ++ r.events }

variable (s : Solver α) (m : Model α)

theorem engineFor?_eq : s.engineFor? m = some (s.engineFor m) := by
  unfold engineFor? engineFor
  cases s.engine with
  | some engine => rfl
  | none =>
    rw [Knapsack.ofModel?_eq]
    dsimp only
    split
    · rfl
    · rfl

theorem runEngine?_eq (steps : Nat) (engine : Engine) :
    s.runEngine? steps m engine = some (s.runEngine steps m engine) := by
  unfold runEngine? runEngine
  cases engine with
  | simplex =>
    rw [Simplex.report?_eq]
    rfl
  | branchAndBound =>
    rw [BranchAndBound.report?_eq]
    rfl
  | knapsack =>
    rw [Knapsack.report?_eq]
    rfl

theorem report?_eq (steps : Nat) : s.report? steps m = some (s.report steps m) := by
  unfold report? report
  rw [engineFor?_eq]
  simp only [Option.bind_eq_bind, Option.bind_some, runEngine?_eq]
  rfl

/-! ## Refusals -/

variable {s m}

/-- A misaligned model is refused by every engine. -/
theorem solve_misaligned {cause : Model.Misalignment} (h : m.misalignment = some cause)
    (steps : Nat) : s.solve steps m = some (.error (.misaligned cause)) := by
  cases hengine : s.engineFor m with
  | simplex =>
    rw [solve_eq_simplex steps hengine]
    unfold Simplex.solve Simplex.report
    rw [h]
    rfl
  | branchAndBound =>
    rw [solve_eq_branchAndBound steps hengine]
    unfold BranchAndBound.solve BranchAndBound.report
    rw [h]
    rfl
  | knapsack =>
    rw [solve_eq_knapsack steps hengine]
    unfold Knapsack.solve Knapsack.report Knapsack.ofModel
    rw [h]
    rfl

/-! ## Points -/

/-- The tree that an answer comes with: finished, or cut short by the limit. -/
def tree? : Except (Failure α) (Outcome α) → Option (SearchResult α)
  | .ok (.search result) => some result
  | .error (.nodeLimit _ _ cut) => some cut
  | .ok (.linear _) | .error _ => none

omit [Scalar α] in
theorem tree?_map (answer : Except (Failure α) (SearchResult α)) :
    tree? (answer.map .search) = Search.tree? answer := by
  cases answer with
  | ok result => rfl
  | error failure => cases failure <;> rfl

end Solver

/-- The trees of branch and bound have points of the size of the model. -/
theorem BranchAndBound.measures_of_solve {e : BranchAndBound α} {m : Model α} {steps : Nat}
    {answer : Except (Failure α) (SearchResult α)} {result : SearchResult α}
    (h : e.solve steps m = some answer) (htree : Search.tree? answer = some result) :
    result.Measures m.vars.length := by
  obtain ⟨hal, hrun⟩ := run_of_solve h htree
  refine Search.measures_of_tree (fun _ _ => tree?_of_breaksAt) (fun hnode hevaluate => ?_) hrun
    htree
  rw [← (aligned_of_reachable hal hnode).1]
  exact length_values hevaluate

/-- The trees of the knapsack search have points of the size of the model. -/
theorem Knapsack.measures_of_solve {settings : Search.Settings α} {m : Model α} {steps : Nat}
    {answer : Except (Failure α) (SearchResult α)} {result : SearchResult α}
    (h : solve steps settings m = some answer) (htree : Search.tree? answer = some result) :
    result.Measures m.vars.length := by
  obtain ⟨c, -, hrun⟩ := run_of_tree h htree
  refine Search.measures_of_tree (fun _ _ => tree?_of_breaksAt) (fun _ hevaluate => ?_) hrun htree
  obtain ⟨-, -, rfl⟩ := evaluate_bounded hevaluate
  show ((List.range m.names.length).map _).length = m.vars.length
  rw [List.length_map, List.length_range, Model.names, List.length_map]

/-- No open node of a knapsack search decides more items than there are. -/
theorem Knapsack.covers_of_visited {settings : Search.Settings α} {m : Model α} {p : Problem α}
    (hmodel : ofModel settings.tolerance m = .ok p) {t : Search.State α (Node α)}
    (h : Search.Visited p.scheme settings p.root t) {front : Nat × Node α}
    (hfront : front ∈ t.frontier) : p.Covers front.2 := by
  obtain ⟨c, -, rfl⟩ := ofModel_ok hmodel
  exact covers_of_reachable (depth_root _ m c) (Search.reachable_of_open h hfront)

namespace Solver

/-- Every tree that a solver gives has points of the size of the model. -/
theorem measures_of_solve {s : Solver α} {m : Model α} {steps : Nat}
    {answer : Except (Failure α) (Outcome α)} {result : SearchResult α}
    (h : s.solve steps m = some answer) (htree : tree? answer = some result) :
    result.Measures m.vars.length := by
  cases hengine : s.engineFor m with
  | simplex =>
    rw [solve_eq_simplex steps hengine, Option.some.injEq] at h
    cases hsolve : (s.simplex s.snapshots).solve m with
    | ok solution =>
      rw [hsolve] at h
      subst h
      cases htree
    | error failure =>
      rw [hsolve] at h
      subst h
      obtain ⟨_, -, rfl⟩ | ⟨_, rfl⟩ | ⟨_, rfl⟩ := Simplex.solve_failed hsolve
      all_goals cases htree
  | branchAndBound =>
    rw [solve_eq_branchAndBound steps hengine] at h
    obtain ⟨own, hsolve, rfl⟩ := Option.map_eq_some_iff.mp h
    rw [tree?_map] at htree
    exact BranchAndBound.measures_of_solve hsolve htree
  | knapsack =>
    rw [solve_eq_knapsack steps hengine] at h
    obtain ⟨own, hsolve, rfl⟩ := Option.map_eq_some_iff.mp h
    rw [tree?_map] at htree
    exact Knapsack.measures_of_solve hsolve htree

/-! ## Linear programs -/

/-- The linear programs that the simplex method may be handed for a model: the
    model itself, and the relaxations of the nodes of branch and bound. -/
inductive Hands (s : Solver α) (m : Model α) : Simplex α → Model α → Prop where
  | whole : s.Hands m (s.simplex s.snapshots) m
  | relaxed {node lp : Model α}
      (hnode : (BranchAndBound.scheme ⟨s.simplex false, s.settings⟩ m).Reachable m node)
      (h : node.relax s.tolerance = .ok lp) : s.Hands m (s.simplex false) lp

/-- Relaxations stay aligned, and they have all the variables. -/
theorem Hands.aligned {s : Solver α} {m lp : Model α} {e : Simplex α} (h : s.Hands m e lp)
    (hal : m.Aligned) : lp.Aligned ∧ lp.vars.length = m.vars.length := by
  cases h with
  | whole => exact ⟨hal, rfl⟩
  | relaxed hnode h =>
    obtain ⟨hvars, haligned⟩ := BranchAndBound.aligned_of_reachable hal hnode
    exact ⟨haligned.relax h, (Model.length_relax h).trans (congrArg List.length hvars)⟩

/-! ## Shapes -/

/-- The shapes of all that a solver makes of a model. -/
structure KeepsShapes (s : Solver α) (m : Model α) : Prop where
  /-- A tableau has the objective row and one row for each row of the form, and
      in each of them a cell for each variable, each slack and the right-hand
      side; a basic column is one of a variable or of a slack. -/
  tableau {e : Simplex α} {lp : Model α} (hlp : s.Hands m e lp) {f : Grid.Form α}
    (hform : lp.form? e.tolerance = some (.ok f)) {state : Grid.State α}
    (hvisited : Grid.Visited e f state) :
    state.grid.Fits m.vars.length f.rows.length
  /-- A pivot is made below the objective row and before the last column. -/
  pivot {e : Simplex α} {lp : Model α} (hlp : s.Hands m e lp) {f : Grid.Form α}
    (hform : lp.form? e.tolerance = some (.ok f)) {state : Grid.State α}
    (hvisited : Grid.Visited e f state) {place : Grid.Place α}
    (hasks : state.Asks e.tolerance place) :
    1 ≤ place.row ∧ place.row ≤ f.rows.length ∧ place.column < m.vars.length + f.rows.length
  /-- A solution has a value for each variable. -/
  values {e : Simplex α} {lp : Model α} (hlp : s.Hands m e lp) {solution : Solution α}
    (hsolve : e.solve lp = .ok solution) (hstatus : solution.status = .optimal) :
    solution.values.length = m.vars.length
  /-- So have the points of a tree. -/
  tree {steps : Nat} {answer : Except (Failure α) (Outcome α)} {result : SearchResult α}
    (hsolve : s.solve steps m = some answer) (htree : tree? answer = some result) :
    result.Measures m.vars.length
  /-- The items from the depth of an open node on are a part of all items. -/
  depth {p : Knapsack.Problem α} (hmodel : Knapsack.ofModel s.tolerance m = .ok p)
    {t : Search.State α (Knapsack.Node α)}
    (hvisited : Search.Visited p.scheme s.settings p.root t) {id : Nat} {node : Knapsack.Node α}
    (hopen : (id, node) ∈ t.frontier) : node.depth ≤ p.items.length

theorem keepsShapes_of_aligned (s : Solver α) {m : Model α} (hal : m.Aligned) :
    s.KeepsShapes m where
  tableau hlp _ hform _ hvisited := by
    obtain ⟨haligned, hlength⟩ := hlp.aligned hal
    rw [← hlength]
    exact (Simplex.fits_of_form _ haligned hform hvisited).1
  pivot hlp _ hform _ hvisited _ hasks := by
    obtain ⟨haligned, hlength⟩ := hlp.aligned hal
    rw [← hlength]
    exact (Simplex.fits_of_form _ haligned hform hvisited).2 _ hasks
  values hlp _ hsolve hstatus :=
    (Simplex.length_values hsolve hstatus).trans (hlp.aligned hal).2
  tree := measures_of_solve
  depth hmodel _ hvisited _ _ hopen := Knapsack.covers_of_visited hmodel hvisited hopen

/-- No model makes a solver leave a list or an array.  If the objective or a
    constraint has too few or too many coefficients, the solver refuses the
    model; otherwise everything keeps its shape.  In no case does the choice of
    the engine or the run of it look anything up that is not there. -/
theorem stays_in_range (s : Solver α) (m : Model α) :
    ((m.objective.length ≠ m.vars.length ∨
        ∃ c ∈ m.constraints, c.coefficients.length ≠ m.vars.length) →
      ∀ steps, ∃ cause, s.solve steps m = some (.error (.misaligned cause))) ∧
    (m.objective.length = m.vars.length →
      (∀ c ∈ m.constraints, c.coefficients.length = m.vars.length) → s.KeepsShapes m) ∧
    s.engineFor? m = some (s.engineFor m) ∧
    ∀ steps, s.report? steps m = some (s.report steps m) := by
  refine ⟨fun hlengths steps => ?_, fun hobjective hconstraints => ?_, s.engineFor?_eq m,
    s.report?_eq m⟩
  · cases hal : m.misalignment with
    | some cause => exact ⟨cause, solve_misaligned hal steps⟩
    | none =>
      obtain ⟨hobjective, hconstraints⟩ := m.aligned_iff.mp hal
      rcases hlengths with hlength | ⟨c, hc, hlength⟩
      · exact absurd hobjective hlength
      · exact absurd (hconstraints c hc) hlength
  · exact s.keepsShapes_of_aligned (m.aligned_iff.mpr ⟨hobjective, hconstraints⟩)

/-- A model with a coefficient that is not a number and a bound that is not
    finite. -/
def tangle : Model Float where
  sense := .maximize
  vars := [⟨"knot", .continuous, none, none⟩, ⟨"rope", .continuous, none, some (1 / 0)⟩]
  objective := [0 / 0, 3]
  constraints := [⟨"length", [1, 1], .atMost, 4⟩]

/-- The tangle, with a constraint that says nothing about the rope. -/
def frayedTangle : Model Float := tangle.addConstraint ⟨"knots", [1], .atMost, 1⟩

/-- A solver on doubles. -/
def doubleSolver : Solver Float where
  tolerance := 1e-9

/-- The first pivot that improves the objective of a linear program. -/
def firstPivot? (e : Simplex Float) (lp : Model Float) : Option (Grid.Place Float) :=
  ((((lp.form? e.tolerance).bind Except.toOption).bind (Grid.start? e)).bind
    (·.grid.improvement e.tolerance)).bind Grid.Improvement.place?

/-- The frayed tangle is refused by every engine.  The tangle gives rise to a
    pivot, its number that is none notwithstanding. -/
theorem tangle_in_range :
    (∀ engine steps, ∃ cause, { doubleSolver with engine }.solve steps frayedTangle =
      some (.error (.misaligned cause))) ∧
    (∃ f state place, tangle.form? doubleSolver.tolerance = some (.ok f) ∧
      Grid.Visited (doubleSolver.simplex true) f state ∧
      state.Asks doubleSolver.tolerance place ∧ state.grid.Fits 2 f.rows.length ∧
      1 ≤ place.row ∧ place.row ≤ f.rows.length ∧ place.column < 2 + f.rows.length) ∧
    doubleSolver.report? 40 tangle = some (doubleSolver.report 40 tangle) := by
  have hpivot : (firstPivot? (doubleSolver.simplex true) tangle).isSome = true := by
    decide +kernel
  refine ⟨fun engine steps => ?_, ?_, (doubleSolver.stays_in_range tangle).2.2.2 40⟩
  · exact ({ doubleSolver with engine }.stays_in_range frayedTangle).1 (.inr (by decide)) steps
  · obtain ⟨-, hshapes, -⟩ := doubleSolver.stays_in_range tangle
    have hkeeps := hshapes (by decide) (by decide)
    obtain ⟨place, hplace⟩ := Option.isSome_iff_exists.mp hpivot
    obtain ⟨rule, hrule, hplace⟩ := Option.bind_eq_some_iff.mp hplace
    obtain ⟨state, hstate, hrule⟩ := Option.bind_eq_some_iff.mp hrule
    obtain ⟨f, hf, hstart⟩ := Option.bind_eq_some_iff.mp hstate
    obtain ⟨form, hform, hf⟩ := Option.bind_eq_some_iff.mp hf
    cases form with
    | error refusal => cases hf
    | ok form =>
      cases hf
      have hvisited : Grid.Visited (doubleSolver.simplex true) f state := .start hstart
      have hasks : state.Asks doubleSolver.tolerance place :=
        .inr (hrule.trans (congrArg some (Grid.Improvement.eq_pivot hplace)))
      exact ⟨f, state, place, hform, hvisited, hasks,
        hkeeps.tableau .whole hform hvisited, hkeeps.pivot .whole hform hvisited hasks⟩

end Solver

end IntegerProgramming
