import IntegerProgramming.Proofs.Checked.Simplex
import IntegerProgramming.Proofs.Checked.Search
import IntegerProgramming.Proofs.BranchAndBound.Replay
import IntegerProgramming.Proofs.Knapsack.Replay

/-! # The schemes with checked accesses

    Branch and bound looks up ranges, values and names by the positions of
    variables; the knapsack search looks up items by the depth of a node, and
    names by the positions of items.

    Nodes of branch and bound keep the variables of their model and stay
    aligned, so all positions are in range.  A knapsack node never decides more
    items than there are (`Knapsack.covers_of_reachable`). -/

namespace IntegerProgramming

variable {α : Type} [Scalar α]

/-! ## Relaxations -/

/-- Folds a constraint on a single variable into that variable's range. -/
def Constraint.fold? (tolerance : α) (ranges : Array (Range α)) (c : Constraint α) :
    Option (Array (Range α)) :=
  match c.single? tolerance with
  | some (j, a) => Grid.modify? ranges j fun r => some (r.restrict c.relation a c.rhs)
  | none => some ranges

/-- The relaxation of a model. -/
def Model.relax? (m : Model α) (tolerance : α) :
    Option (Except (Infeasibility α) (Model α)) := do
  let ranges ← m.constraints.foldlM (Constraint.fold? tolerance) (m.vars.map Variable.range).toArray
  let ranged ← m.vars.zipIdx.mapM fun vj => ranges[vj.2]?.map fun r => (vj.1, r)
  return match ranged.find? fun (_, r) => r.IsEmpty tolerance with
    | some (v, r) => .error (.crossedBounds v.name r.lower r.upper)
    | none => .ok
        { sense := m.sense
          vars := ranged.map fun (v, r) => v.relaxed r
          objective := m.objective
          constraints := m.constraints.filter fun c => (c.single? tolerance).isNone }

theorem Constraint.fold?_eq {c : Constraint α} (tolerance : α) {ranges : List (Range α)}
    (h : c.coefficients.length = ranges.length) :
    c.fold? tolerance ranges.toArray = some (c.fold tolerance ranges).toArray := by
  unfold fold? fold
  cases hsingle : c.single? tolerance with
  | none => rfl
  | some entry =>
    obtain ⟨j, a⟩ := entry
    exact Grid.modify?_toArray (h ▸ lt_of_single? hsingle) fun r => r.restrict c.relation a c.rhs

/-- The relaxation of an aligned model finds every range. -/
theorem Model.relax?_eq {m : Model α} (hal : m.Aligned) (tolerance : α) :
    m.relax? tolerance = some (m.relax tolerance) := by
  have hfold : ∀ (cs : List (Constraint α)) (ranges : List (Range α)),
      (∀ c ∈ cs, c.coefficients.length = ranges.length) →
        cs.foldlM (Constraint.fold? tolerance) ranges.toArray =
          some (cs.foldl (Constraint.fold tolerance) ranges).toArray := by
    intro cs
    induction cs with
    | nil => exact fun _ _ => rfl
    | cons c cs ih =>
      intro ranges h
      obtain ⟨hc, hcs⟩ := List.forall_mem_cons.mp h
      rw [List.foldlM_cons, c.fold?_eq tolerance hc]
      exact ih _ fun d hd => (hcs d hd).trans (c.length_fold tolerance ranges).symm
  have hranges : m.constraints.foldlM (Constraint.fold? tolerance)
      (m.vars.map Variable.range).toArray = some (m.foldedRanges tolerance).toArray := by
    apply hfold
    intro c hc
    rw [List.length_map]
    exact hal.constraint hc
  have hranged : m.vars.zipIdx.mapM
      (fun vj => (m.foldedRanges tolerance).toArray[vj.2]?.map fun r => (vj.1, r)) =
        some (m.vars.zip (m.foldedRanges tolerance)) := by
    rw [← List.zipIdx_map_fst 0 (m.vars.zip _)]
    apply mapM_zipIdx (m.length_foldedRanges tolerance)
    intro v r j _ hr
    rw [List.getElem?_toArray, hr]
    rfl
  unfold relax? relax
  rw [hranges]
  simp only [Option.bind_eq_bind, Option.bind_some, hranged]
  rfl

/-! ## Branch and bound -/

/-- Keeps the better of two candidates to split at. -/
def closerToHalf (tolerance : α) (best : Option (Nat × α)) (j : Nat) (x : α) : Option (Nat × α) :=
  if IsWhole tolerance x then best
  else
    match best with
    | none => some (j, distanceToHalf x)
    | some (_, least) => if distanceToHalf x < least then some (j, distanceToHalf x) else best

/-- Of the given positions the one whose value is furthest from whole. -/
def furthest? (tolerance : α) (integral : List Nat) (values : List α) : Option (Option Nat) :=
  (integral.foldlM (fun best j => values[j]?.map (closerToHalf tolerance best j)) none).map
    (·.map (·.1))

/-- The model after a decision on its `j`-th variable, if it has that. -/
def Model.withDecision? (m : Model α) (j : Nat) (b : Branching α) : Option (Model α) := do
  let row ← Grid.write? (Array.replicate m.vars.length (0 : α)) j 1
  return m.addConstraint { b.constraint m.vars.length j with coefficients := row.toList }

namespace BranchAndBound

variable (e : BranchAndBound α)

/-- Solves the relaxation of a node. -/
def inspect? (node : Model α) : Option (Report α (Evaluation α)) := do
  match ← node.relax? e.search.tolerance with
  | .error reason => return ⟨.ok (.infeasible reason), #[]⟩
  | .ok relaxed =>
    let report ← e.simplex.report? relaxed
    let answer := report.answer.map fun solution =>
      match solution.status, solution.objective with
      | .optimal, some objective => .bounded ⟨objective, objective, solution.values⟩
      | .unbounded, _ => .unbounded
      | _, _ => .infeasible .emptyRelaxation
    return ⟨answer, report.events⟩

/-- Splits a node at its most fractional variable. -/
def branch? (integral : List Nat) (names : List String) (node : Model α) (b : Bounded α) :
    Option (Except (Failure α) ((Branching α × Model α) × (Branching α × Model α))) := do
  match ← furthest? e.search.tolerance integral b.values with
  | none => return .error .nothingToBranch
  | some j =>
    let (down, up) := splitAt (← names[j]?) (← b.values[j]?)
    return .ok ((down, ← node.withDecision? j down), (up, ← node.withDecision? j up))

/-- The scheme of a model. -/
def scheme? (model : Model α) : CheckedScheme α (Model α) where
  sense := model.sense
  names := model.names
  inspect := e.inspect?
  isComplete _ b := model.integralIndices.allM fun j =>
    b.values[j]?.map fun x => decide (IsWhole e.search.tolerance x)
  branch := e.branch? model.integralIndices model.names

/-- Solves an integer program in at most `steps` search steps. -/
def report? (steps : Nat) (model : Model α) : Option (Option (Report α (SearchResult α))) :=
  match model.misalignment with
  | some cause => some (some ⟨.error (.misaligned cause), #[]⟩)
  | none =>
    if model.hasIntegral then (e.scheme? model).report? e.search steps model
    else some (some ⟨.error .nothingToBranch, #[]⟩)

end BranchAndBound

theorem furthest?_eq (tolerance : α) {integral : List Nat} {values : List α}
    (h : ∀ j ∈ integral, j < values.length) :
    furthest? tolerance integral values = some (mostFractional? tolerance integral values) := by
  have hscan : integral.foldlM (fun best j => values[j]?.map (closerToHalf tolerance best j)) none =
      some (integral.foldl (fun best j => closerToHalf tolerance best j (values.getD j 0)) none) :=
    foldlM_of (fun best j hj => by simp [h j hj]) none
  unfold furthest?
  rw [hscan]
  rfl

theorem Model.withDecision?_eq {m : Model α} {j : Nat} (hj : j < m.vars.length)
    (b : Branching α) : m.withDecision? j b = some (m.withDecision j b) := by
  have hrow : (Scalar.unitRow m.vars.length j : List α) =
      (b.constraint m.vars.length j).coefficients := (b.coefficients_constraint _ _).symm
  unfold withDecision?
  rw [Grid.write?_unitRow hj, hrow]
  rfl

namespace BranchAndBound

variable {e : BranchAndBound α} {m node : Model α}

theorem inspect?_eq (hal : node.Aligned) : e.inspect? node = some (e.inspect node) := by
  unfold inspect? inspect
  rw [Model.relax?_eq hal]
  cases node.relax e.search.tolerance with
  | error reason => rfl
  | ok relaxed =>
    simp only [Option.bind_eq_bind, Option.bind_some, Simplex.report?_eq]
    rfl

/-- Splitting finds the value and the name of the variable that it picks. -/
theorem branch?_eq (hvars : node.vars = m.vars) {b : Bounded α}
    (hvalues : b.values.length = m.vars.length) :
    e.branch? m.integralIndices m.names node b = some ((e.scheme m).branch node b) := by
  have hrange : ∀ j ∈ m.integralIndices, j < b.values.length := by
    intro j hj
    rw [hvalues]
    exact Model.lt_of_mem_integralIndices hj
  unfold branch? scheme branch
  rw [furthest?_eq _ hrange]
  dsimp only
  cases hpicked : mostFractional? e.search.tolerance m.integralIndices b.values with
  | none => rfl
  | some j =>
    have hmem := (mostFractional?_eq_some hpicked).1
    have hj : j < m.vars.length := Model.lt_of_mem_integralIndices hmem
    have hname : m.names[j]? = some (m.names.getD j "") := by simp [Model.names, hj]
    have hvalue : b.values[j]? = some (b.values.getD j 0) := by simp [hrange j hmem]
    rw [← hvars] at hj
    simp only [hname, hvalue, Model.withDecision?_eq hj, Option.bind_eq_bind, Option.bind_some]
    rfl

/-- No node of branch and bound makes its scheme miss anything. -/
theorem scheme?_mirrors (e : BranchAndBound α) (hal : m.Aligned) :
    (e.scheme? m).Mirrors (e.scheme m) m where
  sense := rfl
  names := rfl
  agrees {node} hnode := by
    obtain ⟨hvars, haligned⟩ := aligned_of_reachable hal hnode
    have hvalues : ∀ {b : Bounded α}, (e.scheme m).evaluate node = .ok (.bounded b) →
        b.values.length = m.vars.length := fun h => hvars ▸ length_values h
    refine ⟨inspect?_eq haligned, fun h => ?_, fun h => branch?_eq hvars (hvalues h)⟩
    apply allM_of
    intro j hj
    have hrange := Model.lt_of_mem_integralIndices hj
    rw [← hvalues h] at hrange
    simp [hrange]

/-- Branch and bound never looks up what is not there. -/
theorem report?_eq (e : BranchAndBound α) (steps : Nat) (m : Model α) :
    e.report? steps m = some (e.report steps m) := by
  unfold report? report
  cases hal : m.misalignment with
  | some cause => rfl
  | none =>
    dsimp only
    split
    · exact CheckedScheme.report?_eq (scheme?_mirrors e hal) steps
    · rfl

end BranchAndBound

/-! ## Knapsacks -/

namespace Knapsack

/-- Why a constraint does not describe a capacity. -/
def constraintObstacle? (names : List String) (c : Constraint α) :
    Option (Option (Unsupported α)) :=
  if c.relation ≠ .atMost then return some (.knapsackRelation c.name c.relation)
  else if c.rhs < 0 then return some (.negativeCapacity c.rhs)
  else
    match c.coefficients.findIdx? fun w => w < 0 with
    | none => return none
    | some j => names[j]?.map fun name => some (.negativeWeight name)

/-- The knapsack problem that a model states. -/
def ofModel? (tolerance : α) (model : Model α) : Option (Except (Failure α) (Problem α)) :=
  match model.misalignment with
  | some cause => return .error (.misaligned cause)
  | none =>
    if model.sense ≠ .maximize then return .error (.unsupported .knapsackSense)
    else
      match model.vars.find? (·.kind ≠ .binary), model.constraints with
      | some v, _ => return .error (.unsupported (.knapsackVariable v.name v.kind))
      | none, [c] => do
        match ← constraintObstacle? model.names c with
        | some cause => return .error (.unsupported cause)
        | none =>
          return .ok (ofCandidates tolerance c.rhs model.names (candidates model c.coefficients))
      | none, cs => return .error (.unsupported (.knapsackSize cs.length))

/-- Leaves the next item out, or takes it. -/
def Problem.branch? (p : Problem α) (node : Node α) :
    Option (Except (Failure α) ((Branching α × Node α) × (Branching α × Node α))) :=
  match p.items[node.depth]? with
  | none => return .error .nothingToBranch
  | some item => do
    let name ← p.names[item.index]?
    return .ok ((⟨name, .down, 0⟩, node.exclude item), (⟨name, .up, 1⟩, node.include item))

/-- Examines a node.  The node has to be covered, so that the items from its
    depth on can be listed. -/
def Problem.inspect? (p : Problem α) (node : Node α) : Option (Report α (Evaluation α)) := do
  guard (p.Covers node)
  return ⟨.ok (← p.evaluate? node), #[]⟩

/-- The scheme of a problem. -/
def Problem.scheme? (p : Problem α) : CheckedScheme α (Node α) where
  sense := .maximize
  names := p.names
  inspect := p.inspect?
  isComplete node _ := some (p.IsComplete node)
  branch node _ := p.branch? node

/-- Solves the knapsack problem that a model states in at most `steps` search
    steps. -/
def report? (steps : Nat) (settings : Search.Settings α) (model : Model α) :
    Option (Option (Report α (SearchResult α))) := do
  match ← ofModel? settings.tolerance model with
  | .error failure => return some ⟨.error failure, #[]⟩
  | .ok p => p.scheme?.report? settings steps p.root

theorem constraintObstacle?_eq {names : List String} {c : Constraint α}
    (h : c.coefficients.length = names.length) :
    constraintObstacle? names c = some (constraintObstacle names c) := by
  unfold constraintObstacle? constraintObstacle
  split
  · rfl
  · split
    · rfl
    · cases hfind : c.coefficients.findIdx? fun w => w < 0 with
      | none => rfl
      | some j =>
        have hj : j < names.length := by
          rw [← h]
          exact (List.findIdx?_eq_some_iff_getElem.mp hfind).1
        simp [hj]

/-- Reading a knapsack problem finds every name. -/
theorem ofModel?_eq (tolerance : α) (m : Model α) :
    ofModel? tolerance m = some (ofModel tolerance m) := by
  unfold ofModel? ofModel
  cases hal : m.misalignment with
  | some cause => rfl
  | none =>
    dsimp only
    split
    · rfl
    · cases hfind : m.vars.find? (·.kind ≠ .binary) with
      | some v => rfl
      | none =>
        rcases hconstraints : m.constraints with _ | ⟨c, _ | ⟨d, cs⟩⟩
        · rfl
        · have hlength : c.coefficients.length = m.names.length := by
            have haligned : m.Aligned := hal
            rw [Model.names, List.length_map]
            exact haligned.constraint (hconstraints ▸ List.mem_singleton.mpr rfl)
          simp only [constraintObstacle?_eq hlength, Option.bind_eq_bind, Option.bind_some]
          cases constraintObstacle m.names c with
          | none => rfl
          | some cause => rfl
        · rfl

/-- A node of a search decides no more items than there are. -/
theorem covers_of_reachable {p : Problem α} {node : Node α} (hroot : p.root.depth = 0)
    (h : p.scheme.Reachable p.root node) : p.Covers node := by
  induction h with
  | refl =>
    show p.root.depth ≤ p.items.length
    rw [hroot]
    exact Nat.zero_le _
  | tail _ hchild _ =>
    obtain ⟨b, lower, upper, -, -, hbranch, hside⟩ := hchild
    obtain ⟨item, hitem, hlower, hupper, -⟩ := branch_ok hbranch
    have hdepth := (List.getElem?_eq_some_iff.mp hitem).1
    rcases hside with rfl | rfl
    · rw [hlower]
      exact hdepth
    · rw [hupper]
      exact hdepth

/-- No node of a knapsack search makes its scheme miss anything. -/
theorem scheme?_mirrors {p : Problem α} (hroot : p.root.depth = 0) (hnamed : p.Named) :
    p.scheme?.Mirrors p.scheme p.root where
  sense := rfl
  names := rfl
  agrees {node} hnode := by
    have hcovers := covers_of_reachable hroot hnode
    refine ⟨?_, fun _ => rfl, fun _ => ?_⟩
    · have hevaluate : p.evaluate? node = some (p.evaluate node) := if_pos (.inl hcovers)
      show p.inspect? node = some ⟨.ok (p.evaluate node), #[]⟩
      unfold Problem.inspect?
      rw [guard_of hcovers, hevaluate]
      rfl
    · show p.branch? node = some (p.branch node)
      unfold Problem.branch? Problem.branch
      cases hitem : p.items[node.depth]? with
      | none => rfl
      | some item =>
        have hname : p.names[item.index]? = some (p.names.getD item.index "") :=
          hnamed.getElem? hitem
        simp only [hname, Option.bind_eq_bind, Option.bind_some]
        rfl

/-- The knapsack search never looks up what is not there. -/
theorem report?_eq (steps : Nat) (settings : Search.Settings α) (m : Model α) :
    report? steps settings m = some (report steps settings m) := by
  unfold report? report
  rw [ofModel?_eq]
  cases hmodel : ofModel settings.tolerance m with
  | error failure => rfl
  | ok p =>
    obtain ⟨c, haccepts, rfl⟩ := ofModel_ok hmodel
    exact CheckedScheme.report?_eq
      (scheme?_mirrors (depth_root _ m c) (named_problem haccepts)) steps

end Knapsack

end IntegerProgramming
