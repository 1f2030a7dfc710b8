import IntegerProgramming.Proofs.Search.Flip
import IntegerProgramming.Proofs.Simplex.Optimality
import IntegerProgramming.BranchAndBound

/-! # Minimizing is maximizing the negation

    A model and the model that asks for the opposite of the negated objective
    have the same standard form, so the simplex method makes the same pivots and
    finds the same point; only the sign of the objective is turned around when
    it is written down.

    Relaxing a model and appending constraints to it leave sense and objective
    alone, so the nodes of the two branch-and-bound searches correspond to each
    other, and the searches are each other's mirror image
    (`minimize_is_maximize_neg`).

    Nothing is assumed about the numbers but that negation mirrors them; doubles
    are such numbers, infinite and undefined ones included. -/

namespace IntegerProgramming

variable {α : Type} [Scalar α]

/-! ## Models -/

/-- The model that asks for the opposite of the negated objective. -/
def Model.flip (m : Model α) : Model α where
  sense := m.sense.flip
  vars := m.vars
  objective := m.objective.map (- ·)
  constraints := m.constraints

/-- The same point, with the objective negated. -/
def Solution.flip (s : Solution α) : Solution α where
  status := s.status
  values := s.values
  assignment := s.assignment
  objective := s.objective.map (- ·)
  iterations := s.iterations
  trace := s.trace

namespace Model

variable (m : Model α)

theorem misalignment_flip : m.flip.misalignment = m.misalignment := by
  unfold misalignment flip
  rw [List.length_map]

theorem relax_flip (tolerance : α) :
    m.flip.relax tolerance = (m.relax tolerance).map Model.flip := by
  have hranges : m.flip.foldedRanges tolerance = m.foldedRanges tolerance := rfl
  unfold relax
  rw [hranges]
  dsimp only
  have hvars : m.flip.vars = m.vars := rfl
  rw [hvars]
  generalize (m.vars.zip (m.foldedRanges tolerance)).find? _ = crossed
  cases crossed with
  | none => rfl
  | some found => rfl

/-- The objective to maximize is the same. -/
theorem gain_flip [Scalar.Symmetric α] : m.flip.gain = m.gain := by
  obtain ⟨sense, vars, objective, constraints⟩ := m
  cases sense with
  | maximize =>
    show (objective.map (- ·)).map (- ·) = objective
    rw [List.map_map]
    exact (List.map_congr_left fun x _ => Scalar.Symmetric.neg_neg x).trans (List.map_id _)
  | minimize => rfl

theorem standardForm_flip [Scalar.Symmetric α] (tolerance : α) :
    m.flip.standardForm tolerance = m.standardForm tolerance := by
  unfold standardForm
  rw [gain_flip]
  rfl

end Model

/-! ## The simplex method -/

namespace Simplex

section

variable [Scalar.Symmetric α] {n k : Nat} (s : Simplex α) (form : StandardForm α n k)

theorem objective_flip (sense : Sense) (t : Tableau α n k) :
    objective sense.flip form t = -objective sense form t := by
  cases sense with
  | maximize => rfl
  | minimize => exact (Scalar.Symmetric.neg_neg _).symm

theorem answer_flip (sense : Sense) (r : Run α n k) :
    r.answer s sense.flip form =
      ((r.answer s sense form).map Solution.flip).mapError Failure.flip := by
  unfold Run.answer
  cases r.ending with
  | exhausted | infeasible reason | unbounded => rfl
  | optimal =>
    rw [objective_flip]
    rfl

theorem events_flip (sense : Sense) (r : Run α n k) :
    r.events sense.flip form = (r.events sense form).map Event.flip := by
  -- The events of the pivots do not mention the objective.
  have hpivots : (r.last.trace.pivots.mapIdx fun i step =>
      Event.pivot step (decide (i < r.repairs))).map Event.flip =
      r.last.trace.pivots.mapIdx fun i step => Event.pivot step (decide (i < r.repairs)) := by
    apply Array.ext_getElem?
    intro i
    rw [Array.getElem?_map, Array.getElem?_mapIdx, Option.map_map]
    rfl
  unfold Run.events
  cases r.ending with
  | exhausted => exact hpivots.symm
  | infeasible reason =>
    dsimp only
    rw [Array.map_push, hpivots]
    rfl
  | unbounded =>
    dsimp only
    rw [Array.map_push, hpivots]
    rfl
  | optimal =>
    dsimp only
    rw [Array.map_push, hpivots, objective_flip]
    rfl

/-- The simplex method gives the same report, with the objective negated. -/
theorem report_flip (m : Model α) : s.report m.flip = (s.report m).flip Solution.flip := by
  unfold report
  rw [Model.misalignment_flip]
  cases m.misalignment with
  | some cause => exact Report.flip_silent (.error (.misaligned cause))
  | none =>
    dsimp only
    rw [Model.standardForm_flip]
    cases m.standardForm s.tolerance with
    | error refusal =>
      cases refusal with
      | unsupported cause => exact Report.flip_silent (.error (.unsupported cause))
      | infeasible reason =>
        have hevent : #[Event.emptyRange reason] = #[Event.emptyRange reason].map Event.flip := by
          rw [List.map_toArray]
          rfl
        exact congrArg (Report.mk _) hevent
    | ok p =>
      exact congrArg₂ Report.mk (answer_flip s p.form m.sense (s.run p.form))
        (events_flip p.form m.sense (s.run p.form))

omit [Scalar.Symmetric α] in
/-- A run leaves no unfinished tree behind. -/
theorem flip_of_failed {m : Model α} {failure : Failure α} (h : s.solve m = .error failure) :
    failure.flip = failure := by
  rcases solve_failed h with ⟨cause, -, rfl⟩ | ⟨cause, rfl⟩ | ⟨trace, rfl⟩
  · rfl
  · rfl
  · rfl

theorem solve_flip (m : Model α) : s.solve m.flip = (s.solve m).map Solution.flip := by
  have hreport : s.solve m.flip = ((s.solve m).map Solution.flip).mapError Failure.flip :=
    congrArg Report.answer (s.report_flip m)
  rw [hreport]
  cases hsolve : s.solve m with
  | error failure => exact congrArg Except.error (s.flip_of_failed hsolve)
  | ok solution => rfl

end

end Simplex

/-! ## The nodes of a search -/

namespace BranchAndBound

variable [Scalar.Symmetric α] (e : BranchAndBound α)

theorem inspect_flip (node : Model α) :
    e.inspect node.flip = (e.inspect node).flip Evaluation.flip := by
  unfold inspect
  rw [Model.relax_flip]
  cases node.relax e.search.tolerance with
  | error reason =>
    have hempty : (#[] : Array (Event α)) = #[].map Event.flip := Array.map_empty.symm
    exact congrArg (Report.mk (.ok (Evaluation.infeasible reason))) hempty
  | ok relaxed =>
    dsimp only [Except.map]
    rw [Simplex.report_flip]
    unfold Report.flip
    dsimp only
    cases (e.simplex.report relaxed).answer with
    | error failure => rfl
    | ok solution =>
      obtain ⟨status, values, assignment, objective, iterations, trace⟩ := solution
      cases status <;> cases objective <;> rfl

omit [Scalar.Symmetric α] in
theorem branch_flip (integral : List Nat) (names : List String) (node : Model α) (b : Bounded α) :
    e.branch integral names node.flip b.flip =
      ((e.branch integral names node b).map fun (lower, upper) =>
        ((lower.1, lower.2.flip), (upper.1, upper.2.flip))).mapError Failure.flip := by
  have hvalues : b.flip.values = b.values := rfl
  unfold branch
  rw [hvalues]
  cases mostFractional? e.search.tolerance integral b.values with
  | none => rfl
  | some j => rfl

/-- The searches for a model and its opposite are each other's mirror image. -/
theorem scheme_flips (m : Model α) : (e.scheme m).Flips (e.scheme m.flip) Model.flip where
  sense := rfl
  names := rfl
  inspect := e.inspect_flip
  isComplete _ _ := rfl
  branch := e.branch_flip m.integralIndices m.names

theorem report_flip (steps : Nat) (m : Model α) :
    e.report steps m.flip = (e.report steps m).map (Report.flip SearchResult.flip) := by
  have hintegral : m.flip.hasIntegral = m.hasIntegral := rfl
  unfold report
  rw [Model.misalignment_flip, hintegral]
  cases m.misalignment with
  | some cause => exact congrArg some (Report.flip_silent (.error (.misaligned cause)))
  | none =>
    dsimp only
    cases m.hasIntegral with
    | true => exact Search.report_flip e.search (e.scheme_flips m) steps m
    | false => exact congrArg some (Report.flip_silent (.error .nothingToBranch))

end BranchAndBound

/-! ## Answers -/

/-- Minimizing is maximizing the negation.  The simplex method fails alike or
    gives the same solution with the objective negated; branch and bound gives
    the same tree with every bound and every objective negated, in the same
    number of steps, or fails alike, with the unfinished tree negated. -/
theorem minimize_is_maximize_neg [Scalar.Symmetric α] (m : Model α) :
    (∀ s : Simplex α, s.solve m.flip = (s.solve m).map Solution.flip) ∧
      ∀ (e : BranchAndBound α) (steps : Nat), e.solve steps m.flip =
        (e.solve steps m).map fun answer =>
          (answer.map SearchResult.flip).mapError Failure.flip := by
  refine ⟨fun s => s.solve_flip m, fun e steps => ?_⟩
  unfold BranchAndBound.solve
  rw [e.report_flip, Option.map_map, Option.map_map]
  rfl

/-- Lemonade and cake at a stall, in any amount. -/
def stand : Model Float where
  sense := .maximize
  vars := [⟨"lemonade", .continuous, none, none⟩, ⟨"cake", .continuous, none, some 3⟩]
  objective := [0.7, 1.2]
  constraints := [⟨"sugar", [2, 3], .atMost, 7⟩]

/-- Lemonade and cake at a stall, by the glass and by the slice. -/
def stall : Model Exact where
  sense := .maximize
  vars := [⟨"glasses", .integer, none, none⟩, ⟨"slices", .integer, none, some (.rational 3)⟩]
  objective := [.rational (7 / 10), .rational (6 / 5)]
  constraints := [⟨"sugar", [.rational 2, .rational 3], .atMost, .rational 7⟩]

/-- The simplex method in doubles. -/
def doubleSimplex : Simplex Float where
  tolerance := 1e-9

/-- Branch and bound in exact numbers. -/
def exactEngine : BranchAndBound Exact where
  simplex := { tolerance := 0 }
  search := { tolerance := 0 }

/-- What is earned at most is lost at least.  Doubles show it for the simplex
    method, exact numbers for a tree with three splits. -/
theorem stall_mirrored :
    (∃ solution, doubleSimplex.solve stand = .ok solution ∧
      doubleSimplex.solve stand.flip = .ok solution.flip ∧
      solution.iterations = 1 ∧ solution.flip.values = solution.values) ∧
    ∃ r, exactEngine.solve 40 stall = some (.ok r) ∧
      exactEngine.solve 40 stall.flip = some (.ok r.flip) ∧
      r.branched = 3 ∧ r.bestObjective = some (.rational (13 / 5)) ∧
      r.flip.bestObjective = some (.rational (-13 / 5)) := by
  constructor
  · have hsolve : (doubleSimplex.solve stand).toOption.map (·.iterations) = some 1 := by
      decide +kernel
    cases h : doubleSimplex.solve stand with
    | error failure => rw [h] at hsolve; cases hsolve
    | ok solution =>
      rw [h] at hsolve
      refine ⟨solution, rfl, ?_, Option.some.inj hsolve, rfl⟩
      rw [(minimize_is_maximize_neg stand).1, h]
      rfl
  · have hrun : (exactEngine.solve 40 stall).map (fun answer =>
        answer.toOption.map fun r => (r.branched, r.bestObjective)) =
        some (some (3, some (.rational (13 / 5)))) := by
      decide +kernel
    obtain ⟨answer, hanswer, hsome⟩ := Option.map_eq_some_iff.mp hrun
    cases answer with
    | error failure => cases hsome
    | ok r =>
      obtain ⟨hbranched, hbest⟩ := Prod.mk.inj (Option.some.inj hsome)
      refine ⟨r, hanswer, ?_, hbranched, hbest, ?_⟩
      · rw [(minimize_is_maximize_neg stall).2, hanswer]
        rfl
      · show r.bestObjective.map (- ·) = _
        rw [hbest]
        decide +kernel

end IntegerProgramming
