import IntegerProgramming.Proofs.Number.Negation
import IntegerProgramming.Search.Run

/-! # Searches for the opposite

    Minimizing an objective is maximizing its negation.  For a search this says:
    if two schemes agree on everything except that one wants the opposite and
    negates every bound and every objective (`Scheme.Flips`), their searches
    take the same steps, and the trees, the answers and the events are the same
    with all bounds and objectives negated (`report_flip`).

    The two arms of every comparison with the incumbent are each other's mirror
    image, the tolerance included; nothing else looks at the sense. -/

namespace IntegerProgramming

/-! ## Flipping -/

/-- The other direction. -/
def Sense.flip : Sense → Sense
  | .maximize => .minimize
  | .minimize => .maximize

section flips

variable {α : Type} [Scalar α]

/-- The same point for the opposite objective. -/
def Bounded.flip (b : Bounded α) : Bounded α where
  bound := -b.bound
  objective := -b.objective
  values := b.values

def Evaluation.flip : Evaluation α → Evaluation α
  | .infeasible reason => .infeasible reason
  | .unbounded => .unbounded
  | .bounded b => .bounded b.flip

def FathomReason.flip : FathomReason α → FathomReason α
  | .infeasible reason => .infeasible reason
  | .unbounded => .unbounded
  | .bound incumbent => .bound (-incumbent)
  | .integerSolution => .integerSolution

def NodeStatus.flip : NodeStatus α → NodeStatus α
  | .created => .created
  | .fathomed reason => .fathomed reason.flip
  | .branched => .branched

def Node.flip (n : Node α) : Node α where
  id := n.id
  parent := n.parent
  depth := n.depth
  branching := n.branching
  status := n.status.flip
  bound := n.bound.map (- ·)
  objective := n.objective.map (- ·)
  values := n.values

def Discovery.flip (d : Discovery α) : Discovery α := ⟨d.node, -d.objective⟩

/-- The same tree for the opposite objective. -/
def SearchResult.flip (r : SearchResult α) : SearchResult α where
  status := r.status
  bestObjective := r.bestObjective.map (- ·)
  bestValues := r.bestValues
  assignment := r.assignment
  rootBound := r.rootBound.map (- ·)
  nodes := r.nodes.map Node.flip
  explored := r.explored
  fathomed := r.fathomed
  branched := r.branched
  maxDepth := r.maxDepth
  incumbents := r.incumbents.map Discovery.flip

/-- A failure is the same, unless it holds an unfinished tree. -/
def Failure.flip : Failure α → Failure α
  | .unsupported cause => .unsupported cause
  | .misaligned cause => .misaligned cause
  | .pivotLimit limit trace => .pivotLimit limit trace
  | .nothingToBranch => .nothingToBranch
  | .nodeLimit limit explored unfinished => .nodeLimit limit explored unfinished.flip

def Event.flip : Event α → Event α
  | .solving engine variableCount constraintCount =>
    .solving engine variableCount constraintCount
  | .emptyRange reason => .emptyRange reason
  | .pivot step repairs => .pivot step repairs
  | .linearInfeasible reason pivots => .linearInfeasible reason pivots
  | .linearUnbounded pivots => .linearUnbounded pivots
  | .linearOptimal pivots objective => .linearOptimal pivots (objective.map (- ·))
  | .branching parent label => .branching parent label
  | .newIncumbent node objective => .newIncumbent node (-objective)
  | .fathomed node depth reason => .fathomed node depth reason.flip
  | .searchFinished status explored closed best =>
    .searchFinished status explored closed (best.map (- ·))

/-- A report for the opposite objective, if `f` turns the answers around. -/
def Report.flip {β : Type} (f : β → β) (r : Report α β) : Report α β where
  answer := (r.answer.map f).mapError Failure.flip
  events := r.events.map Event.flip

theorem Report.flip_silent {β : Type} {f : β → β} (answer : Except (Failure α) β) :
    ⟨(answer.map f).mapError Failure.flip, #[]⟩ = (⟨answer, #[]⟩ : Report α β).flip f :=
  congrArg (Report.mk _) Array.map_empty.symm

def Incumbent.flip (i : Incumbent α) : Incumbent α where
  sense := i.sense.flip
  objective := i.objective.map (- ·)
  values := i.values
  history := i.history.map Discovery.flip

end flips

/-! ## The incumbent -/

section incumbent

variable {α : Type} [Scalar α] [Scalar.Symmetric α] (i : Incumbent α)

theorem Incumbent.canImprove_flip (bound tolerance : α) :
    i.flip.CanImprove (-bound) tolerance ↔ i.CanImprove bound tolerance := by
  obtain ⟨sense, objective, values, history⟩ := i
  cases objective with
  | none => exact Iff.rfl
  | some best =>
    cases sense with
    | maximize => exact Scalar.neg_lt_neg_sub_iff bound best tolerance
    | minimize => exact Scalar.neg_add_lt_neg_iff bound best tolerance

theorem Incumbent.beaten_flip (objective : α) :
    i.flip.Beaten (-objective) ↔ i.Beaten objective := by
  obtain ⟨sense, best, values, history⟩ := i
  cases best with
  | none => exact Iff.rfl
  | some best =>
    cases sense with
    | maximize => exact Scalar.neg_lt_neg_iff objective best
    | minimize => exact Scalar.neg_lt_neg_iff best objective

theorem Incumbent.install_flip (objective : α) (values : List α) (node : Nat) :
    i.flip.install (-objective) values node = (i.install objective values node).flip := by
  unfold install
  rw [apply_ite Incumbent.flip]
  refine ite_congr (propext (i.beaten_flip objective)) (fun _ => ?_) fun _ => rfl
  simp [flip, Discovery.flip]

end incumbent

/-! ## States -/

namespace Search

section states

variable {α ν : Type} [Scalar α]

/-- A search for the opposite, if `f` turns the subproblems around. -/
def State.flip (f : ν → ν) (s : State α ν) : State α ν where
  nodes := s.nodes.map Node.flip
  frontier := s.frontier.map fun (id, node) => (id, f node)
  incumbent := s.incumbent.flip
  explored := s.explored
  fathomed := s.fathomed
  branched := s.branched
  maxDepth := s.maxDepth
  rootBound := s.rootBound.map (- ·)
  rootUnbounded := s.rootUnbounded
  events := s.events.map Event.flip

def Progress.flip (f : ν → ν) : Progress α ν → Progress α ν
  | .running s => .running (s.flip f)
  | .ended r => .ended (r.flip SearchResult.flip)

attribute [ext] State

namespace State

variable (f : ν → ν) (s : State α ν)

theorem start_flip (sense : Sense) (root : ν) :
    start sense.flip (f root) = (start sense root : State α ν).flip f := by
  simp [start, flip, Node.flip, NodeStatus.flip, Incumbent.flip]

/-- Nodes are written over alike. -/
theorem modify_flip (nodes : Array (Node α)) (id : Nat) (g g' : Node α → Node α)
    (h : ∀ n, g' n.flip = (g n).flip) :
    (nodes.map Node.flip).modify id g' = (nodes.modify id g).map Node.flip := by
  apply Array.ext_getElem?
  intro j
  rw [Array.getElem?_modify, Array.getElem?_map, Array.getElem?_map, Array.getElem?_modify]
  by_cases hj : id = j
  · rw [if_pos hj, if_pos hj, Option.map_map, Option.map_map]
    exact congrArg (fun k => Option.map k nodes[j]?) (funext h)
  · rw [if_neg hj, if_neg hj]

theorem depthOf_flip (id : Nat) : (s.flip f).depthOf id = s.depthOf id := by
  unfold depthOf flip
  rw [Array.getElem?_map, Option.map_map]
  rfl

theorem fathom_flip (id : Nat) (reason : FathomReason α) :
    (s.flip f).fathom id reason.flip = (s.fathom id reason).flip f := by
  have hnodes := modify_flip s.nodes id (fun n => { n with status := .fathomed reason })
    (fun n => { n with status := .fathomed reason.flip }) fun _ => rfl
  have hevents : (s.events.map Event.flip).push
      (.fathomed id ((s.flip f).depthOf id) reason.flip) =
      (s.events.push (.fathomed id (s.depthOf id) reason)).map Event.flip := by
    rw [depthOf_flip, Array.map_push]
    rfl
  exact State.ext hnodes rfl rfl rfl rfl rfl rfl rfl rfl hevents

theorem record_flip (id : Nat) (b : Bounded α) :
    (s.flip f).record id b.flip = (s.record id b).flip f := by
  have hnodes := modify_flip s.nodes id
    (fun n => { n with bound := some b.bound, objective := some b.objective, values := b.values })
    (fun n => { n with
      bound := some b.flip.bound, objective := some b.flip.objective, values := b.values })
    fun _ => rfl
  have hrootBound : (if id = 0 then some (-b.bound) else s.rootBound.map (- ·)) =
      (if id = 0 then some b.bound else s.rootBound).map (- ·) := by
    rw [apply_ite (Option.map (- ·))]
    rfl
  exact State.ext hnodes rfl rfl rfl rfl rfl rfl hrootBound rfl rfl

theorem install_flip [Scalar.Symmetric α] (id : Nat) (b : Bounded α) :
    (s.flip f).install id b.flip = (s.install id b).flip f := by
  have hincumbent := s.incumbent.install_flip b.objective b.values id
  have hevents : (if s.incumbent.flip.Beaten (-b.objective) then
        (s.events.map Event.flip).push (.newIncumbent id (-b.objective))
      else s.events.map Event.flip) =
      (if s.incumbent.Beaten b.objective then s.events.push (.newIncumbent id b.objective)
        else s.events).map Event.flip := by
    rw [apply_ite (Array.map Event.flip), Array.map_push]
    exact ite_congr (propext (s.incumbent.beaten_flip b.objective)) (fun _ => rfl) fun _ => rfl
  exact State.ext rfl rfl hincumbent rfl rfl rfl rfl rfl rfl hevents

theorem create_flip (parent : Nat) (label : Branching α) :
    (s.flip f).create parent label = (s.create parent label).flip f := by
  have hdepth := s.depthOf_flip f parent
  have hnodes : ((s.flip f).create parent label).nodes =
      (s.create parent label).nodes.map Node.flip := by
    unfold create
    rw [hdepth]
    simp [flip, Node.flip, NodeStatus.flip]
  have hevents : (s.events.map Event.flip).push (.branching parent label) =
      (s.events.push (.branching parent label)).map Event.flip := by
    rw [Array.map_push]
    rfl
  refine State.ext hnodes rfl rfl rfl rfl rfl ?_ rfl rfl hevents
  exact congrArg (fun depth => max s.maxDepth (depth + 1)) hdepth

theorem split_flip (traversal : Traversal) (id : Nat) (lower upper : Branching α × ν) :
    (s.flip f).split traversal id (lower.1, f lower.2) (upper.1, f upper.2) =
      (s.split traversal id lower upper).flip f := by
  have hsize : (s.flip f).nodes.size = s.nodes.size := Array.size_map
  have hnodes := modify_flip ((s.create id lower.1).create id upper.1).nodes id
    (fun n => { n with status := .branched }) (fun n => { n with status := .branched }) fun _ => rfl
  have hfrontier : traversal.extend (s.frontier.map fun (id, node) => (id, f node))
      (s.nodes.size, f lower.2) (s.nodes.size + 1, f upper.2) =
      (traversal.extend s.frontier (s.nodes.size, lower.2) (s.nodes.size + 1, upper.2)).map
        fun (id, node) => (id, f node) := by
    cases traversal with
    | breadthFirst =>
      unfold Traversal.extend
      rw [List.map_append]
      rfl
    | depthFirst => rfl
  unfold split
  rw [hsize, create_flip, create_flip]
  exact State.ext hnodes hfrontier rfl rfl rfl rfl rfl rfl rfl rfl

theorem verdict_flip : (s.flip f).verdict = s.verdict := by
  have hsome : (s.flip f).incumbent.objective.isSome = s.incumbent.objective.isSome :=
    Option.isSome_map
  unfold verdict
  rw [hsome]
  rfl

theorem result_flip (names : List String) (status : Status) :
    (s.flip f).result names status = (s.result names status).flip := rfl

end State

end states

end Search

/-! ## Steps -/

/-- Two schemes that agree on everything but the direction; `f` turns the
    subproblems of the first one around. -/
structure Scheme.Flips {α ν : Type} [Scalar α] (scheme scheme' : Scheme α ν) (f : ν → ν) :
    Prop where
  sense : scheme'.sense = scheme.sense.flip
  names : scheme'.names = scheme.names
  inspect (node : ν) : scheme'.inspect (f node) = (scheme.inspect node).flip Evaluation.flip
  isComplete (node : ν) (b : Bounded α) :
    scheme'.isComplete (f node) b.flip = scheme.isComplete node b
  branch (node : ν) (b : Bounded α) : scheme'.branch (f node) b.flip =
    ((scheme.branch node b).map fun (lower, upper) =>
      ((lower.1, f lower.2), (upper.1, f upper.2))).mapError Failure.flip

namespace Search

section steps

variable {α ν : Type} [Scalar α] [Scalar.Symmetric α] {scheme scheme' : Scheme α ν} {f : ν → ν}
  (settings : Settings α)

theorem settle_flip (h : scheme.Flips scheme' f) (s : State α ν) (id : Nat) (node : ν)
    (b : Bounded α) : settle scheme' settings (s.flip f) id (f node) b.flip =
      (settle scheme settings s id node b).flip f := by
  have hcan : ((s.record id b).flip f).incumbent.CanImprove b.flip.bound settings.tolerance ↔
      (s.record id b).incumbent.CanImprove b.bound settings.tolerance :=
    (s.record id b).incumbent.canImprove_flip b.bound settings.tolerance
  unfold settle
  rw [State.record_flip, h.isComplete, h.branch]
  dsimp only
  by_cases himprove : (s.record id b).incumbent.CanImprove b.bound settings.tolerance
  · rw [if_neg (not_not.mpr (hcan.mpr himprove)), if_neg (not_not.mpr himprove)]
    cases scheme.isComplete node b with
    | true =>
      have hinstalled := ((s.record id b).install id b).fathom_flip f id .integerSolution
      rw [if_pos rfl, if_pos rfl, State.install_flip]
      exact congrArg Progress.running hinstalled
    | false =>
      rw [if_neg Bool.false_ne_true, if_neg Bool.false_ne_true]
      cases scheme.branch node b with
      | error failure => rfl
      | ok children =>
        exact congrArg Progress.running ((s.record id b).split_flip f settings.traversal id _ _)
  · -- The reason names the incumbent, or the bound if there is none.
    have hreason : ((s.record id b).flip f).incumbent.objective.getD b.flip.bound =
        -(s.record id b).incumbent.objective.getD b.bound := by
      show ((s.record id b).incumbent.objective.map (- ·)).getD (-b.bound) = _
      exact Option.getD_map ..
    rw [if_pos (mt hcan.mp himprove), if_pos himprove, hreason]
    exact congrArg Progress.running
      ((s.record id b).fathom_flip f id (.bound ((s.record id b).incumbent.objective.getD b.bound)))

theorem examine_flip (h : scheme.Flips scheme' f) (s : State α ν) (id : Nat) (node : ν) :
    examine scheme' settings (s.flip f) id (f node) =
      (examine scheme settings s id node).flip f := by
  have hevents : (s.flip f).events ++ (scheme.inspect node).events.map Event.flip =
      (s.events ++ (scheme.inspect node).events).map Event.flip := (Array.map_append ..).symm
  unfold examine
  rw [h.inspect]
  unfold Report.flip
  dsimp only
  rw [hevents]
  cases (scheme.inspect node).answer with
  | error failure => rfl
  | ok evaluation =>
    cases evaluation with
    | infeasible reason =>
      exact congrArg Progress.running (State.fathom_flip f { s with
        explored := s.explored + 1
        events := s.events ++ (scheme.inspect node).events } id (.infeasible reason))
    | unbounded =>
      exact congrArg Progress.running (State.fathom_flip f { s with
        explored := s.explored + 1
        rootUnbounded := s.rootUnbounded || id == 0
        events := s.events ++ (scheme.inspect node).events } id .unbounded)
    | bounded b => exact settle_flip settings h { s with
        explored := s.explored + 1
        events := s.events ++ (scheme.inspect node).events } id node b

omit [Scalar.Symmetric α] in
theorem finish_flip (h : scheme.Flips scheme' f) (s : State α ν) :
    finish scheme' (s.flip f) = (finish scheme s).flip SearchResult.flip := by
  have hevents : (s.flip f).events.push (.searchFinished s.verdict s.explored s.fathomed
      (s.incumbent.objective.map (- ·))) =
      (s.events.push (.searchFinished s.verdict s.explored s.fathomed
        s.incumbent.objective)).map Event.flip := by
    rw [Array.map_push]
    rfl
  unfold finish
  rw [State.verdict_flip, h.names, State.result_flip]
  exact congrArg (Report.mk _) hevents

theorem step_flip (h : scheme.Flips scheme' f) (s : State α ν) :
    step scheme' settings (s.flip f) = (step scheme settings s).flip f := by
  obtain ⟨nodes, frontier, incumbent, explored, fathomed, branched, maxDepth, rootBound,
    rootUnbounded, events⟩ := s
  cases frontier with
  | nil => exact congrArg Progress.ended (finish_flip h _)
  | cons front rest =>
    obtain ⟨id, node⟩ := front
    unfold step State.flip
    dsimp only [List.map_cons]
    cases settings.reachedLimit? explored with
    | some limit =>
      rw [h.names]
      rfl
    | none =>
      exact examine_flip settings h ⟨nodes, rest, incumbent, explored, fathomed, branched, maxDepth,
        rootBound, rootUnbounded, events⟩ id node

theorem advance_flip (h : scheme.Flips scheme' f) (steps : Nat) (s : State α ν) :
    advance scheme' settings steps (s.flip f) = (advance scheme settings steps s).flip f := by
  induction steps generalizing s with
  | zero => rfl
  | succ steps ih =>
    unfold advance
    rw [step_flip settings h]
    cases step scheme settings s with
    | running t => exact ih t
    | ended r => rfl

/-- A search for the opposite gives the same report, turned around. -/
theorem report_flip (h : scheme.Flips scheme' f) (steps : Nat) (root : ν) :
    report steps scheme' (f root) settings =
      (report steps scheme root settings).map (Report.flip SearchResult.flip) := by
  unfold report
  rw [h.sense, State.start_flip, advance_flip settings h]
  cases advance scheme settings steps (.start scheme.sense root) with
  | running t => rfl
  | ended r => rfl

end steps

end Search

end IntegerProgramming
