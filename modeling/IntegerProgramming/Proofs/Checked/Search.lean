import IntegerProgramming.Proofs.Checked.Grid
import IntegerProgramming.Proofs.Search.Lineage

/-! # The search with checked accesses

    The search looks its nodes up by their numbers, and a scheme looks up names,
    values and items.  Here every look-up may miss its list, and then the search
    has no result.

    If the scheme misses nothing at the nodes that can be reached, the search
    has a result, the one of the search that does not check
    (`CheckedScheme.report?_eq`): the numbers of open nodes are in the arena. -/

namespace IntegerProgramming

/-- A scheme whose functions have no result if they miss a list. -/
structure CheckedScheme (α ν : Type) where
  sense : Sense
  names : List String
  inspect : ν → Option (Report α (Evaluation α))
  isComplete : ν → Bounded α → Option Bool
  branch : ν → Bounded α →
    Option (Except (Failure α) ((Branching α × ν) × (Branching α × ν)))

open Search

variable {α ν : Type}

/-! ## States -/

namespace Search.State

/-- Closes a node that is there. -/
def fathom? (s : State α ν) (id : Nat) (reason : FathomReason α) : Option (State α ν) := do
  guard (id < s.nodes.size)
  return s.fathom id reason

/-- Writes down what was found out about a node that is there. -/
def record? (s : State α ν) (id : Nat) (b : Bounded α) : Option (State α ν) := do
  guard (id < s.nodes.size)
  return s.record id b

/-- Splits a node that is there. -/
def split? (s : State α ν) (traversal : Traversal) (id : Nat) (lower upper : Branching α × ν) :
    Option (State α ν) := do
  guard (id < s.nodes.size)
  return s.split traversal id lower upper

variable {s : State α ν} {id : Nat}

theorem fathom?_eq (h : id < s.nodes.size) (reason : FathomReason α) :
    s.fathom? id reason = some (s.fathom id reason) := by
  unfold fathom?
  rw [guard_of h]
  rfl

theorem record?_eq (h : id < s.nodes.size) (b : Bounded α) :
    s.record? id b = some (s.record id b) := by
  unfold record?
  rw [guard_of h]
  rfl

theorem split?_eq (h : id < s.nodes.size) (traversal : Traversal) (lower upper : Branching α × ν) :
    s.split? traversal id lower upper = some (s.split traversal id lower upper) := by
  unfold split?
  rw [guard_of h]
  rfl

end Search.State

namespace CheckedScheme

/-! ## Steps -/

section steps

variable [Scalar α] (c : CheckedScheme α ν) (settings : Settings α)

/-- What becomes of a node whose subproblem is not empty. -/
def settle? (s : State α ν) (id : Nat) (node : ν) (b : Bounded α) : Option (Progress α ν) := do
  let s ← s.record? id b
  if ¬ s.incumbent.CanImprove b.bound settings.tolerance then
    return .running (← s.fathom? id (.bound (s.incumbent.objective.getD b.bound)))
  else if ← c.isComplete node b then
    return .running (← (s.install id b).fathom? id .integerSolution)
  else
    match ← c.branch node b with
    | .error failure => return .ended ⟨.error failure, s.events⟩
    | .ok (lower, upper) => return .running (← s.split? settings.traversal id lower upper)

/-- Examines an open node. -/
def examine? (s : State α ν) (id : Nat) (node : ν) : Option (Progress α ν) := do
  let inspection ← c.inspect node
  let s := { s with explored := s.explored + 1, events := s.events ++ inspection.events }
  match inspection.answer with
  | .error failure => return .ended ⟨.error failure, s.events⟩
  | .ok (.infeasible reason) => return .running (← s.fathom? id (.infeasible reason))
  | .ok .unbounded =>
    return .running
      (← { s with rootUnbounded := s.rootUnbounded || id == 0 }.fathom? id .unbounded)
  | .ok (.bounded b) => c.settle? settings s id node b

/-- One step of a search. -/
def step? (s : State α ν) : Option (Progress α ν) :=
  match s.frontier with
  | [] => some (.ended
    { answer := .ok (s.result c.names s.verdict)
      events := s.events.push
        (.searchFinished s.verdict s.explored s.fathomed s.incumbent.objective) })
  | (id, node) :: frontier =>
    match settings.reachedLimit? s.explored with
    | some limit =>
      some (.ended ⟨.error (.nodeLimit limit s.explored (s.result c.names .error)), s.events⟩)
    | none => c.examine? settings { s with frontier } id node

/-- Up to `steps` steps of a search. -/
def advance? : Nat → State α ν → Option (Progress α ν)
  | 0, s => some (.running s)
  | steps + 1, s => do
    match ← c.step? settings s with
    | .running s => advance? steps s
    | .ended r => return .ended r

/-- Searches below a root; the report is missing if the search has not ended. -/
def report? (steps : Nat) (root : ν) : Option (Option (Report α (SearchResult α))) := do
  match ← c.advance? settings steps (.start c.sense root) with
  | .running _ => return none
  | .ended r => return some r

end steps

/-! ## Agreement -/

/-- At a node, no look-up of the scheme misses. -/
structure Agrees (c : CheckedScheme α ν) (scheme : Scheme α ν) (node : ν) : Prop where
  inspect : c.inspect node = some (scheme.inspect node)
  isComplete {b : Bounded α} (h : scheme.evaluate node = .ok (.bounded b)) :
    c.isComplete node b = some (scheme.isComplete node b)
  branch {b : Bounded α} (h : scheme.evaluate node = .ok (.bounded b)) :
    c.branch node b = some (scheme.branch node b)

/-- At all nodes below a root, no look-up of the scheme misses. -/
structure Mirrors (c : CheckedScheme α ν) (scheme : Scheme α ν) (root : ν) : Prop where
  sense : c.sense = scheme.sense
  names : c.names = scheme.names
  agrees {node : ν} (h : scheme.Reachable root node) : c.Agrees scheme node

variable [Scalar α] {c : CheckedScheme α ν} {scheme : Scheme α ν} {settings : Settings α}
  {root node : ν} {s : State α ν} {id : Nat}

theorem settle?_eq (h : c.Agrees scheme node) (hid : id < s.nodes.size) {b : Bounded α}
    (hb : scheme.evaluate node = .ok (.bounded b)) :
    c.settle? settings s id node b = some (settle scheme settings s id node b) := by
  -- What is written down about a node leaves it where it is.
  have hrecorded : id < (s.record id b).nodes.size := hid.trans_eq Array.size_modify.symm
  have hinstalled : id < ((s.record id b).install id b).nodes.size := hrecorded
  unfold settle? settle
  rw [State.record?_eq hid]
  simp only [State.fathom?_eq hrecorded, State.fathom?_eq hinstalled, h.isComplete hb, h.branch hb,
    Option.bind_eq_bind, Option.bind_some]
  split
  · rfl
  · split
    · rfl
    · cases scheme.branch node b with
      | error failure => rfl
      | ok children =>
        simp only [State.split?_eq hrecorded, Option.bind_some]
        rfl

theorem examine?_eq (h : c.Agrees scheme node) (hid : id < s.nodes.size) :
    c.examine? settings s id node = some (examine scheme settings s id node) := by
  -- Counting the node and adding events leaves all nodes where they are.
  have hfathom : ∀ t : State α ν, t.nodes = s.nodes → ∀ reason,
      t.fathom? id reason = some (t.fathom id reason) := by
    intro t ht reason
    exact State.fathom?_eq (ht ▸ hid) reason
  unfold examine? examine
  rw [h.inspect]
  simp only [Option.bind_eq_bind, Option.bind_some]
  cases hanswer : (scheme.inspect node).answer with
  | error failure => rfl
  | ok evaluation =>
    cases evaluation with
    | infeasible reason =>
      simp only [hfathom, Option.bind_some]
      rfl
    | unbounded =>
      simp only [hfathom, Option.bind_some]
      rfl
    | bounded b =>
      refine settle?_eq h ?_ hanswer
      exact hid

theorem step?_eq (h : c.Mirrors scheme root) (hs : Visited scheme settings root s) :
    c.step? settings s = some (step scheme settings s) := by
  unfold step? step
  cases hfrontier : s.frontier with
  | nil =>
    rw [h.names]
    rfl
  | cons front rest =>
    obtain ⟨id, node⟩ := front
    have hmem : (id, node) ∈ s.frontier := by
      rw [hfrontier]
      exact List.mem_cons_self
    obtain ⟨n, hn, -⟩ := (wellFormed_of_visited hs).front hfrontier
    have hid : id < s.nodes.size := (Array.getElem?_eq_some_iff.mp hn).1
    cases settings.reachedLimit? s.explored with
    | some limit =>
      rw [h.names]
    | none => exact examine?_eq (h.agrees (reachable_of_open hs hmem)) hid

theorem advance?_eq (h : c.Mirrors scheme root) (steps : Nat)
    (hs : Visited scheme settings root s) :
    c.advance? settings steps s = some (advance scheme settings steps s) := by
  induction steps generalizing s with
  | zero => rfl
  | succ steps ih =>
    unfold advance? advance
    rw [step?_eq h hs]
    simp only [Option.bind_eq_bind, Option.bind_some]
    cases hstep : step scheme settings s with
    | running t => exact ih (hs.next hstep)
    | ended r => rfl

/-- A search below a root misses nothing if its scheme does not. -/
theorem report?_eq (h : c.Mirrors scheme root) (steps : Nat) :
    c.report? settings steps root = some (Search.report steps scheme root settings) := by
  unfold report? Search.report
  rw [h.sense, advance?_eq h steps .start]
  simp only [Option.bind_eq_bind, Option.bind_some]
  cases advance scheme settings steps (.start scheme.sense root) with
  | running t => rfl
  | ended r => rfl

end CheckedScheme

/-! ## Points -/

/-- Every point of a tree has an entry for each of `n` variables. -/
structure SearchResult.Measures (r : SearchResult α) (n : Nat) : Prop where
  node : ∀ q ∈ r.nodes, q.objective.isSome → q.values.length = n
  best : r.bestObjective.isSome → r.bestValues.length = n

/-- A scheme whose points have `n` entries makes trees whose points do. -/
theorem Search.measures_of_tree [Scalar α] {scheme : Scheme α ν} {settings : Settings α} {root : ν}
    {n : Nat} (hfailures : ∀ node failure, scheme.BreaksAt node failure →
      tree? (.error failure) = none)
    (hlength : ∀ {node b}, scheme.Reachable root node →
      scheme.evaluate node = .ok (.bounded b) → b.values.length = n) {steps : Nat}
    {answer : Except (Failure α) (SearchResult α)} {result : SearchResult α}
    (h : run steps scheme root settings = some answer) (htree : tree? answer = some result) :
    result.Measures n := by
  have hwell : result.WellFormed := by
    obtain ⟨s, status, hs, rfl⟩ := exists_state_of_tree hfailures h htree
    exact (wellFormed_of_visited hs).result _ _
  have hnode : ∀ q ∈ result.nodes, q.objective.isSome → q.values.length = n := by
    intro q hq hobjective
    have hpoint : q.status.HasPoint := by
      by_contra hnone
      rw [((hwell.recorded q hq).absent hnone).2.1] at hobjective
      cases hobjective
    have hexamined : q.status ≠ .created := by
      intro hcreated
      rw [hcreated] at hpoint
      exact hpoint
    obtain ⟨node, evaluation, hdescends, -, hevaluate, houtcome, -⟩ :=
      descends_of_tree hfailures h htree hq hexamined
    obtain ⟨b, rfl⟩ := Node.bounded_of_outcome houtcome hpoint
    rw [Node.values_of_outcome houtcome]
    exact hlength hdescends.reachable hevaluate
  refine ⟨hnode, fun hbest => ?_⟩
  cases hback : result.incumbents.back? with
  | none =>
    rw [(hwell.found.nothing (Array.back?_eq_none_iff.mp hback)).1] at hbest
    cases hbest
  | some d =>
    obtain ⟨q, hq, hobjective, hvalues⟩ := hwell.found.best d hback
    rw [hvalues]
    exact hnode q (Array.mem_of_getElem? hq) (hobjective ▸ hbest)

end IntegerProgramming
