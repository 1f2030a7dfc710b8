import IntegerProgramming.Proofs.Model.Relaxation
import IntegerProgramming.Proofs.Simplex.Optimality
import IntegerProgramming.Proofs.Search.Lineage
import IntegerProgramming.Proofs.BranchAndBound.Splitting

/-! # Replaying the labels of branch and bound

    A node of branch and bound is the given model with one bound for every
    label on its path.  If no two variables share a name, a label names the
    variable that it bounds, so the model of a node can be written down from
    the labels alone (`descends_eq`), and solving its relaxation once more
    shows what the tree records (`BranchAndBound.Replays`). -/

namespace IntegerProgramming

/-! ## Models with labels -/

namespace Model

variable {α : Type}

/-- The model with the bound that a label puts on the variable it names. -/
def withLabel [Scalar α] (m : Model α) (b : Branching α) : Model α :=
  match m.index? b.name with
  | some j => m.withDecision j b
  | none => m

/-- Without repeated names, a name finds its variable. -/
theorem index?_name {m : Model α} (hnodup : m.names.Nodup) {j : Nat} {v : Variable α}
    (hv : m.vars[j]? = some v) : m.index? v.name = some j := by
  obtain ⟨hj, rfl⟩ := List.getElem?_eq_some_iff.mp hv
  unfold index?
  rw [List.findIdx?_eq_some_iff_getElem]
  refine ⟨hj, beq_self_eq_true _, ?_⟩
  intro i hij hname
  have hsame : m.names[i]? = m.names[j]? := by
    simp only [names, List.getElem?_map]
    rw [List.getElem?_eq_getElem hj, List.getElem?_eq_getElem (hij.trans hj)]
    exact congrArg some (beq_iff_eq.mp hname)
  have hi : i < m.names.length := by
    rw [names, List.length_map]
    omega
  have heq := (List.getElem?_inj hi hnodup).mp hsame
  omega

end Model

namespace BranchAndBound

variable {α : Type} [Scalar α] {e : BranchAndBound α} {m node : Model α}

/-! ## Descents -/

/-- The labels of a node put its bounds on the given model, one by one. -/
theorem descends_eq (hnodup : m.names.Nodup) {labels : List (Branching α)}
    (h : (e.scheme m).Descends m labels node) :
    node = labels.foldl Model.withLabel m ∧ node.vars = m.vars := by
  induction h with
  | root => exact ⟨rfl, rfl⟩
  | @child labels parent b lower upper child _ _ _ hbranch hside ih =>
    obtain ⟨hparent, hvars⟩ := ih
    obtain ⟨j, v, hv, -, -, rfl, rfl⟩ := branch_ok hbranch
    have hnames : parent.names.Nodup := by
      unfold Model.names
      rw [hvars]
      exact hnodup
    have hindex : parent.index? v.name = some j := Model.index?_name hnames (hvars ▸ hv)
    rw [List.foldl_append, ← hparent, List.foldl_cons, List.foldl_nil]
    rcases hside with rfl | rfl
    · exact ⟨by simp only [Model.withLabel, hindex], hvars⟩
    · exact ⟨by simp only [Model.withLabel, hindex], hvars⟩

/-- Every node has the variables of the given model, and one coefficient for
    each of them. -/
theorem aligned_of_reachable (hal : m.Aligned) (h : (e.scheme m).Reachable m node) :
    node.vars = m.vars ∧ node.Aligned := by
  induction h with
  | refl => exact ⟨rfl, hal⟩
  | tail _ hchild ih =>
    obtain ⟨hvars, haligned⟩ := ih
    obtain ⟨b, lower, upper, -, -, hbranch, hside⟩ := hchild
    obtain ⟨j, v, -, -, -, rfl, rfl⟩ := branch_ok hbranch
    rcases hside with rfl | rfl
    · exact ⟨hvars, haligned.withDecision j _⟩
    · exact ⟨hvars, haligned.withDecision j _⟩

/-- A bound is the objective of an optimal solution of the relaxation, at the
    point of that solution. -/
theorem inspect_bounded {b : Bounded α} (h : (e.inspect node).answer = .ok (.bounded b)) :
    ∃ relaxed sol objective, node.relax e.search.tolerance = .ok relaxed ∧
      e.simplex.solve relaxed = .ok sol ∧ sol.status = .optimal ∧
        b = ⟨objective, objective, sol.values⟩ := by
  unfold inspect at h
  cases hrelax : node.relax e.search.tolerance with
  | error reason => rw [hrelax] at h; cases h
  | ok relaxed =>
    rw [hrelax] at h
    cases hsolve : e.simplex.solve relaxed with
    | error failure =>
      have hanswer : (e.simplex.report relaxed).answer = .error failure := hsolve
      simp only [hanswer] at h
      cases h
    | ok sol =>
      have hanswer : (e.simplex.report relaxed).answer = .ok sol := hsolve
      simp only [hanswer, Except.map] at h
      split at h
      · rename_i objective hstatus _
        cases h
        exact ⟨relaxed, sol, objective, rfl, hsolve, hstatus, rfl⟩
      · cases h
      · cases h

/-- A solved relaxation has a value for every variable. -/
theorem length_values {b : Bounded α} (h : (e.inspect node).answer = .ok (.bounded b)) :
    b.values.length = node.vars.length := by
  obtain ⟨relaxed, sol, objective, hrelax, hsolve, hstatus, rfl⟩ := inspect_bounded h
  exact (Simplex.length_values hsolve hstatus).trans (Model.length_relax hrelax)

/-! ## Failures -/

/-- A relaxation fails to be solved only for the reasons of the simplex
    method. -/
theorem inspect_failed {failure : Failure α} (h : (e.inspect node).answer = .error failure) :
    ∃ relaxed, node.relax e.search.tolerance = .ok relaxed ∧
      ((∃ cause, relaxed.misalignment = some cause ∧ failure = .misaligned cause) ∨
        (∃ cause, failure = .unsupported cause) ∨
        ∃ trace, failure = .pivotLimit e.simplex.maxPivots trace) := by
  unfold inspect at h
  cases hrelax : node.relax e.search.tolerance with
  | error reason => rw [hrelax] at h; cases h
  | ok relaxed =>
    rw [hrelax] at h
    refine ⟨relaxed, rfl, ?_⟩
    cases hsolve : e.simplex.solve relaxed with
    | error failure' =>
      have hanswer : (e.simplex.report relaxed).answer = .error failure' := hsolve
      simp only [hanswer, Except.map] at h
      cases h
      exact Simplex.solve_failed hsolve
    | ok sol =>
      have hanswer : (e.simplex.report relaxed).answer = .ok sol := hsolve
      simp only [hanswer, Except.map] at h
      cases h

/-- A split fails only if there is no variable to split at. -/
theorem branch_failed {b : Bounded α} {failure : Failure α}
    (h : (e.scheme m).branch node b = .error failure) : failure = .nothingToBranch := by
  unfold scheme branch at h
  dsimp only at h
  split at h
  · exact (Except.error.inj h).symm
  · cases h

/-- A node that is not complete has a value to be split at. -/
theorem branch_of_incomplete {b : Bounded α} (h : (e.scheme m).isComplete node b = false) :
    ∃ children, (e.scheme m).branch node b = .ok children := by
  cases hsplit : mostFractional? e.search.tolerance m.integralIndices b.values with
  | none =>
    -- Only if all values are whole is there none to split at.
    have hwhole := isWhole_of_mostFractional?_eq_none hsplit
    have hall : (e.scheme m).isComplete node b = true :=
      List.all_eq_true.mpr fun j hj => decide_eq_true (hwhole j hj)
    rw [h] at hall
    cases hall
  | some j =>
    unfold scheme branch
    dsimp only
    rw [hsplit]
    exact ⟨_, rfl⟩

/-- A search whose nodes are aligned fails for want of pivots or support only:
    what is to be split has a value to be split at. -/
theorem failure_of_breaksAt (hal : node.Aligned) {failure : Failure α}
    (h : (e.scheme m).BreaksAt node failure) :
    (∃ cause, failure = .unsupported cause) ∨
      ∃ trace, failure = .pivotLimit e.simplex.maxPivots trace := by
  rcases h with hevaluate | ⟨b, -, hcomplete, hbranch⟩
  · obtain ⟨relaxed, hrelax, ⟨cause, hmisaligned, -⟩ | hunsupported | hpivots⟩ :=
      inspect_failed hevaluate
    · have haligned : relaxed.misalignment = none := hal.relax hrelax
      rw [haligned] at hmisaligned
      cases hmisaligned
    · exact .inl hunsupported
    · exact .inr hpivots
  · obtain ⟨children, hchildren⟩ := branch_of_incomplete hcomplete
    rw [hbranch] at hchildren
    cases hchildren

/-- No failure of the scheme brings a tree with it. -/
theorem tree?_of_breaksAt {failure : Failure α} (h : (e.scheme m).BreaksAt node failure) :
    Search.tree? (.error failure) = none := by
  rcases h with hevaluate | ⟨b, -, -, hbranch⟩
  · obtain ⟨-, -, ⟨cause, -, rfl⟩ | ⟨cause, rfl⟩ | ⟨trace, rfl⟩⟩ := inspect_failed hevaluate
    · rfl
    · rfl
    · rfl
  · rw [branch_failed hbranch]
    rfl

/-! ## Records -/

/-- The labels on the path to a node lead to a model whose relaxation shows
    what the node records, and its children are labelled by the two decisions
    on one of its values. -/
structure Replays (e : BranchAndBound α) (m : Model α) (r : SearchResult α) (n : Node α) :
    Prop where
  outcome : ∃ evaluation, n.outcome? = some evaluation ∧
    (e.inspect ((r.labels n.id).foldl Model.withLabel m)).answer = .ok evaluation
  children : n.status = .branched → ∃ (j : Nat) (v : Variable α) (x : α),
    m.vars[j]? = some v ∧ v.kind.isIntegral = true ∧ n.values[j]? = some x ∧
    HasChildren r.nodes n.id ⟨v.name, .down, Scalar.floor x⟩ ⟨v.name, .up, Scalar.ceil x⟩

/-- An aligned model with a variable that has to be whole is searched. -/
theorem solve_eq_run (hal : m.Aligned) (hintegral : m.hasIntegral = true) {steps : Nat} :
    e.solve steps m = Search.run steps (e.scheme m) m e.search := by
  have hnone : m.misalignment = none := hal
  unfold solve report
  rw [hnone, hintegral]
  rfl

/-- A model with a tree was accepted, and it was searched. -/
theorem run_of_solve {steps : Nat} {answer : Except (Failure α) (SearchResult α)}
    {result : SearchResult α} (h : e.solve steps m = some answer)
    (htree : Search.tree? answer = some result) :
    m.Aligned ∧ Search.run steps (e.scheme m) m e.search = some answer := by
  unfold solve report at h
  cases hal : m.misalignment with
  | some cause =>
    rw [hal] at h
    cases h
    cases htree
  | none =>
    rw [hal] at h
    refine ⟨hal, ?_⟩
    dsimp only at h
    split at h
    · exact h
    · cases h
      cases htree

/-- Every examined node of a tree of branch and bound is replayed by its
    labels. -/
theorem replays_of_solve (hnodup : m.names.Nodup) {steps : Nat}
    {answer : Except (Failure α) (SearchResult α)} {result : SearchResult α}
    (h : e.solve steps m = some answer) (htree : Search.tree? answer = some result)
    {n : Node α} (hn : n ∈ result.nodes) (hexamined : n.status ≠ .created) :
    e.Replays m result n := by
  obtain ⟨node, evaluation, hdescends, -, hevaluate, houtcome, hchildren⟩ :=
    Search.descends_of_tree (fun _ _ => tree?_of_breaksAt) (run_of_solve h htree).2 htree hn
      hexamined
  obtain ⟨rfl, hvars⟩ := descends_eq hnodup hdescends
  refine ⟨⟨evaluation, houtcome, hevaluate⟩, fun hbranched => ?_⟩
  obtain ⟨b, lower, upper, rfl, hbranch, hkids⟩ := hchildren hbranched
  obtain ⟨j, v, hv, hintegral, -, rfl, rfl⟩ := branch_ok hbranch
  refine ⟨j, v, b.values.getD j 0, hv, hintegral, ?_, hkids⟩
  have hlength : j < b.values.length := by
    rw [length_values hevaluate, hvars]
    exact (List.getElem?_eq_some_iff.mp hv).1
  rw [Node.values_of_outcome houtcome, List.getD_eq_getElem _ _ hlength,
    List.getElem?_eq_getElem hlength]

end BranchAndBound

end IntegerProgramming
