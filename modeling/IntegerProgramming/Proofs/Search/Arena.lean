import IntegerProgramming.Proofs.Search.Soundness

/-! # The arena of a search

    The nodes of a search are kept in the order of their creation.  A node is
    written once more when it is examined, and it keeps its place in the tree:
    its number, parent, depth and label.  All that a result says beside the
    nodes follows from them: the counters count nodes, the incumbents are
    nodes, and the best point is the point of the last incumbent
    (`SearchResult.WellFormed`).

    Every state that a search passes through is well-formed, and its open nodes
    are exactly the nodes that have not been examined (`State.WellFormed`).
    This holds for every scheme and for all numbers: nothing is assumed about
    what a scheme answers. -/

namespace IntegerProgramming

variable {α ν : Type}

/-! ## Rewriting one entry of an array -/

section arrays

variable {β : Type} {xs : Array β} {i : Nat} {x : β}

theorem modify_eq_set {f : β → β} (hi : i < xs.size) :
    xs.modify i f = xs.set i (f xs[i]) hi := by
  refine Array.ext_getElem? fun j => ?_
  rw [Array.getElem?_modify, Array.getElem?_set]
  by_cases hij : i = j
  · subst hij
    rw [if_pos rfl, if_pos rfl, Array.getElem?_eq_getElem hi, Option.map_some]
  · rw [if_neg hij, if_neg hij]

theorem modify_modify (f g : β → β) :
    (xs.modify i f).modify i g = xs.modify i fun x => g (f x) := by
  refine Array.ext_getElem? fun j => ?_
  simp only [Array.getElem?_modify]
  by_cases hij : i = j
  · rw [if_pos hij, if_pos hij, if_pos hij, Option.map_map]
    rfl
  · rw [if_neg hij, if_neg hij, if_neg hij]

/-- Rewriting an old entry and adding a new one do not interfere. -/
theorem modify_push {f : β → β} {y : β} (hi : i < xs.size) :
    (xs.push y).modify i f = (xs.modify i f).push y := by
  refine Array.ext_getElem? fun j => ?_
  rw [Array.getElem?_modify, Array.getElem?_push, Array.getElem?_push, Array.size_modify,
    Array.getElem?_modify]
  by_cases hj : j = xs.size
  · rw [if_pos hj, if_pos hj, if_neg (by omega)]
  · rw [if_neg hj, if_neg hj]

/-- The count changes by what the entry itself counts before and after. -/
theorem countP_modify {p : β → Bool} {f : β → β} (hx : xs[i]? = some x) :
    (xs.modify i f).countP p + (if p x then 1 else 0) =
      xs.countP p + if p (f x) then 1 else 0 := by
  obtain ⟨hi, rfl⟩ := Array.getElem?_eq_some_iff.mp hx
  rw [modify_eq_set hi, Array.countP_set]
  have hle : (if p xs[i] then 1 else 0) ≤ xs.countP p := by
    split
    · rename_i hp
      exact Array.countP_pos_iff.mpr ⟨_, Array.getElem_mem hi, hp⟩
    · exact Nat.zero_le _
  omega

end arrays

/-! ## Well-formed results -/

namespace NodeStatus

def isCreated : NodeStatus α → Bool
  | .created => true
  | .fathomed _ | .branched => false

def isFathomed : NodeStatus α → Bool
  | .fathomed _ => true
  | .created | .branched => false

def isBranched : NodeStatus α → Bool
  | .branched => true
  | .created | .fathomed _ => false

/-- Examining the node has shown a point. -/
def HasPoint : NodeStatus α → Prop
  | .created | .fathomed (.infeasible _) | .fathomed .unbounded => False
  | .fathomed (.bound _) | .fathomed .integerSolution | .branched => True

end NodeStatus

/-- A node has a bound, an objective and a point of its own exactly if
    examining it has shown a point. -/
structure Node.Recorded (n : Node α) : Prop where
  absent : ¬ n.status.HasPoint → n.bound = none ∧ n.objective = none ∧ n.values = []
  present : n.status.HasPoint → n.bound.isSome ∧ n.objective.isSome

/-- The nodes form a binary tree in the order of their creation. -/
structure IsTree (nodes : Array (Node α)) : Prop where
  number {i : Nat} {n : Node α} (hn : nodes[i]? = some n) : n.id = i
  root : ∃ n, nodes[0]? = some n ∧ n.parent = none ∧ n.depth = 0
  /-- Every other node is one level below a node that was split before. -/
  parent {i : Nat} {n : Node α} (hn : nodes[i]? = some n) (hi : i ≠ 0) :
    ∃ p q, n.parent = some p ∧ p < i ∧ nodes[p]? = some q ∧ q.status = .branched ∧
      n.depth = q.depth + 1 ∧ n.branching.isSome
  /-- A node that was split has two children, created one after the other. -/
  children {i : Nat} {n : Node α} (hn : nodes[i]? = some n) (hb : n.status = .branched) :
    ∃ k, k + 1 < nodes.size ∧
      ∀ c q, nodes[c]? = some q → (q.parent = some i ↔ c = k ∨ c = k + 1)

/-- The solutions that were found are nodes, and the last one is the best. -/
structure Found (nodes : Array (Node α)) (found : Array (Discovery α)) (objective : Option α)
    (values : List α) : Prop where
  distinct : (found.toList.map (·.node)).Nodup
  solution : ∀ d ∈ found, ∃ n, nodes[d.node]? = some n ∧
    n.status = .fathomed .integerSolution ∧ n.objective = some d.objective
  nothing : found = #[] → objective = none ∧ values = []
  best : ∀ d, found.back? = some d → ∃ n, nodes[d.node]? = some n ∧
    objective = n.objective ∧ values = n.values

/-- All that a result says is in accord with its nodes. -/
structure SearchResult.WellFormed (r : SearchResult α) : Prop where
  tree : IsTree r.nodes
  recorded : ∀ n ∈ r.nodes, n.Recorded
  explored : r.explored = r.nodes.countP fun n => !n.status.isCreated
  fathomed : r.fathomed = r.nodes.countP fun n => n.status.isFathomed
  branched : r.branched = r.nodes.countP fun n => n.status.isBranched
  explored_eq : r.explored = r.fathomed + r.branched
  size : r.nodes.size = 1 + 2 * r.branched
  depth_le : ∀ n ∈ r.nodes, n.depth ≤ r.maxDepth
  deepest : ∃ n ∈ r.nodes, n.depth = r.maxDepth
  rootBound : r.rootBound = r.nodes[0]?.bind (·.bound)
  found : Found r.nodes r.incumbents r.bestObjective r.bestValues

namespace Search

/-- The state describes a tree, and its open nodes are those that have not been
    examined, each once. -/
structure State.WellFormed (s : State α ν) : Prop where
  result : ∀ names status, (s.result names status).WellFormed
  nodup : (s.frontier.map Prod.fst).Nodup
  mem_open : ∀ i, i ∈ s.frontier.map Prod.fst ↔ ∃ n, s.nodes[i]? = some n ∧ n.status = .created

end Search

/-! ## Nodes that are written -/

/-- A node after it has been examined, with what was found out about it. -/
def Node.settled (status : NodeStatus α) (b : Option (Bounded α)) (n : Node α) : Node α :=
  match b with
  | none => { n with status }
  | some b =>
    { n with status, bound := some b.bound, objective := some b.objective, values := b.values }

/-- A node that has just been created. -/
def Node.fresh (id parent depth : Nat) (label : Branching α) : Node α :=
  { id, parent := some parent, depth, branching := some label }

section settled

variable (status : NodeStatus α) (b : Option (Bounded α)) (n : Node α)

@[simp] theorem Node.settled_id : (n.settled status b).id = n.id := by
  cases b <;> rfl

@[simp] theorem Node.settled_parent : (n.settled status b).parent = n.parent := by
  cases b <;> rfl

@[simp] theorem Node.settled_depth : (n.settled status b).depth = n.depth := by
  cases b <;> rfl

@[simp] theorem Node.settled_branching : (n.settled status b).branching = n.branching := by
  cases b <;> rfl

@[simp] theorem Node.settled_status : (n.settled status b).status = status := by
  cases b <;> rfl

theorem Node.settled_bound :
    (n.settled status b).bound = (b.map (·.bound)).or n.bound := by
  cases b <;> rfl

end settled

/-- An examined node is recorded if a point comes with exactly the statuses
    that call for one. -/
theorem Node.Recorded.settled {n : Node α} (h : n.Recorded) (hn : n.status = .created)
    {status : NodeStatus α} {b : Option (Bounded α)} (hb : b.isSome ↔ status.HasPoint) :
    (n.settled status b).Recorded := by
  cases b with
  | none =>
    -- Nothing was written before, and nothing is written now.
    have hnothing := h.absent (by rw [hn]; exact not_false)
    refine ⟨fun _ => hnothing, fun hpoint => ?_⟩
    rw [Node.settled_status] at hpoint
    exact absurd (hb.mpr hpoint) Bool.false_ne_true
  | some b =>
    refine ⟨fun hpoint => ?_, fun _ => ⟨rfl, rfl⟩⟩
    rw [Node.settled_status] at hpoint
    exact absurd (hb.mp rfl) hpoint

theorem Node.recorded_fresh (i parent depth : Nat) (label : Branching α) :
    (Node.fresh i parent depth label).Recorded :=
  ⟨fun _ => ⟨rfl, rfl, rfl⟩, fun h => h.elim⟩

/-! ## Growing the tree -/

/-- The arena after a node has been examined: the node is written where it
    stands, and its children are added at the end. -/
def grown (nodes : Array (Node α)) (id : Nat) (n : Node α) (status : NodeStatus α)
    (b : Option (Bounded α)) (kids : List (Branching α)) : Array (Node α) :=
  nodes.modify id (Node.settled status b) ++
    (kids.mapIdx fun k label => Node.fresh (nodes.size + k) id (n.depth + 1) label).toArray

section grown

variable {nodes : Array (Node α)} {id : Nat} {n : Node α} {status : NodeStatus α}
  {b : Option (Bounded α)} {kids : List (Branching α)}

theorem size_grown : (grown nodes id n status b kids).size = nodes.size + kids.length := by
  simp [grown]

/-- What stands at a place: the node itself, another old node, or a child. -/
theorem getElem?_grown (hn : nodes[id]? = some n) {i : Nat} {q : Node α} :
    (grown nodes id n status b kids)[i]? = some q ↔
      (i = id ∧ q = n.settled status b) ∨ (i ≠ id ∧ nodes[i]? = some q) ∨
        ∃ k label, i = nodes.size + k ∧ kids[k]? = some label ∧
          q = .fresh i id (n.depth + 1) label := by
  have hid : id < nodes.size := (Array.getElem?_eq_some_iff.mp hn).1
  unfold grown
  rw [Array.getElem?_append, Array.size_modify, Array.getElem?_modify]
  by_cases hi : i < nodes.size
  · -- An old node stands before the end.
    have hold : ¬ ∃ k label, i = nodes.size + k ∧ kids[k]? = some label ∧
        q = .fresh i id (n.depth + 1) label := by
      rintro ⟨k, -, rfl, -⟩
      omega
    rw [if_pos hi, or_iff_left_of_imp (fun h => (hold h).elim) (a := _ ∧ nodes[i]? = some q)]
    by_cases hii : id = i
    · subst hii
      simp [hn, eq_comm]
    · rw [if_neg hii]
      simp [Ne.symm hii]
  · -- Beyond the end stand the children.
    have hne : i ≠ id := by omega
    have hnone : nodes[i]? = none := Array.getElem?_eq_none (Nat.not_lt.mp hi)
    rw [if_neg hi, hnone]
    simp only [hne, false_and, ne_eq, not_false_eq_true, true_and, reduceCtorEq, false_or]
    rw [List.getElem?_toArray, List.getElem?_mapIdx, Option.map_eq_some_iff]
    constructor
    · rintro ⟨label, hlabel, rfl⟩
      exact ⟨i - nodes.size, label, by omega, hlabel, by congr 1; omega⟩
    · rintro ⟨k, label, rfl, hlabel, rfl⟩
      exact ⟨label, by rwa [Nat.add_sub_cancel_left], by congr 1; omega⟩

theorem mem_grown (hn : nodes[id]? = some n) {q : Node α}
    (hq : q ∈ grown nodes id n status b kids) :
    q = n.settled status b ∨ q ∈ nodes ∨
      ∃ i label, label ∈ kids ∧ q = .fresh i id (n.depth + 1) label := by
  obtain ⟨i, hi⟩ := Array.mem_iff_getElem?.mp hq
  rcases (getElem?_grown hn).mp hi with ⟨-, hself⟩ | ⟨-, hold⟩ | ⟨k, label, -, hlabel, hkid⟩
  · exact .inl hself
  · exact .inr (.inl (Array.mem_iff_getElem?.mpr ⟨i, hold⟩))
  · exact .inr (.inr ⟨i, label, List.mem_of_getElem? hlabel, hkid⟩)

/-- A node that was examined before stays what it is. -/
theorem grown_keeps (hn : nodes[id]? = some n) (hopen : n.status = .created) {i : Nat}
    {q : Node α} (hq : nodes[i]? = some q) (hexamined : q.status ≠ .created) :
    (grown nodes id n status b kids)[i]? = some q := by
  have hne : i ≠ id := by
    intro hi
    rw [hi, hn, Option.some.injEq] at hq
    exact hexamined (hq ▸ hopen)
  exact (getElem?_grown hn).mpr (.inr (.inl ⟨hne, hq⟩))

/-- Only the examined node changes its status, and the children are open. -/
theorem countP_grown (p : NodeStatus α → Bool) (hp : p .created = false)
    (hn : nodes[id]? = some n) (hopen : n.status = .created) :
    (grown nodes id n status b kids).countP (fun q => p q.status) =
      nodes.countP (fun q => p q.status) + if p status then 1 else 0 := by
  have hkids : ((kids.mapIdx fun k label =>
      Node.fresh (nodes.size + k) id (n.depth + 1) label).toArray).countP
        (fun q => p q.status) = 0 := by
    rw [Array.countP_eq_zero]
    intro q hq
    obtain ⟨k, hk, rfl⟩ := List.mem_mapIdx.mp (List.mem_toArray.mp hq)
    show ¬ p .created = true
    rw [hp]
    exact Bool.false_ne_true
  have hself := countP_modify (p := fun q => p q.status) (f := Node.settled status b) hn
  rw [hopen, hp, Node.settled_status] at hself
  rw [grown, Array.countP_append, hkids]
  simpa using hself

end grown

namespace NodeStatus

theorem isBranched_eq {status : NodeStatus α} :
    status.isBranched = true ↔ status = .branched := by
  cases status <;> simp [isBranched]

end NodeStatus

namespace IsTree

variable {nodes : Array (Node α)}

/-- No node has an open node above it. -/
theorem parent_ne (h : IsTree nodes) {i j : Nat} {n q : Node α} (hn : nodes[i]? = some n)
    (hopen : n.status = .created) (hq : nodes[j]? = some q) : q.parent ≠ some i := by
  intro hparent
  by_cases hj : j = 0
  · subst hj
    obtain ⟨r, hr, hnone, -⟩ := h.root
    have hqr : q = r := Option.some.inj (hq.symm.trans hr)
    rw [hqr, hnone] at hparent
    cases hparent
  · obtain ⟨p, r, hp, -, hr, hbranched, -⟩ := h.parent hq hj
    have hpi : p = i := Option.some.inj (hp.symm.trans hparent)
    subst hpi
    have hrn : r = n := Option.some.inj (hr.symm.trans hn)
    rw [hrn, hopen] at hbranched
    cases hbranched

/-- An open node that is examined leaves a tree: it is split into two children,
    or it is closed without any. -/
theorem grown (h : IsTree nodes) {i : Nat} {n : Node α} {status : NodeStatus α}
    {b : Option (Bounded α)} {kids : List (Branching α)} (hn : nodes[i]? = some n)
    (hopen : n.status = .created) (hkids : kids.length = if status.isBranched then 2 else 0) :
    IsTree (grown nodes i n status b kids) := by
  have hi : i < nodes.size := (Array.getElem?_eq_some_iff.mp hn).1
  -- A node that was split before is not the one that is examined now.
  have hkeep : ∀ (p : Nat) (q : Node α), nodes[p]? = some q → q.status = .branched →
      (IntegerProgramming.grown nodes i n status b kids)[p]? = some q := by
    intro p q hq hbranched
    apply grown_keeps hn hopen hq
    rw [hbranched]
    exact nofun
  refine ⟨?_, ?_, ?_, ?_⟩
  · intro j q hq
    rcases (getElem?_grown hn).mp hq with ⟨rfl, rfl⟩ | ⟨-, hold⟩ | ⟨k, label, -, -, rfl⟩
    · rw [Node.settled_id]
      exact h.number hn
    · exact h.number hold
    · rfl
  · obtain ⟨r, hr, hparent, hdepth⟩ := h.root
    by_cases hzero : 0 = i
    · subst hzero
      have hrn : r = n := Option.some.inj (hr.symm.trans hn)
      refine ⟨n.settled status b, (getElem?_grown hn).mpr (.inl ⟨rfl, rfl⟩), ?_, ?_⟩
      · rw [Node.settled_parent, ← hrn, hparent]
      · rw [Node.settled_depth, ← hrn, hdepth]
    · exact ⟨r, (getElem?_grown hn).mpr (.inr (.inl ⟨hzero, hr⟩)), hparent, hdepth⟩
  · intro j q hq hj
    rcases (getElem?_grown hn).mp hq with ⟨rfl, rfl⟩ | ⟨-, hold⟩ | ⟨k, label, rfl, hlabel, rfl⟩
    · obtain ⟨p, r, hp, hlt, hr, hbranched, hdepth, hlabel⟩ := h.parent hn hj
      refine ⟨p, r, ?_, hlt, hkeep p r hr hbranched, hbranched, ?_, ?_⟩
      · rw [Node.settled_parent, hp]
      · rw [Node.settled_depth, hdepth]
      · rw [Node.settled_branching]
        exact hlabel
    · obtain ⟨p, r, hp, hlt, hr, hbranched, hdepth, hlabel⟩ := h.parent hold hj
      exact ⟨p, r, hp, hlt, hkeep p r hr hbranched, hbranched, hdepth, hlabel⟩
    · -- Only a node that is split has children.
      have hk : k < kids.length := (List.getElem?_eq_some_iff.mp hlabel).1
      have hbranched : status = .branched := by
        rw [← NodeStatus.isBranched_eq]
        by_contra hne
        rw [if_neg hne] at hkids
        omega
      refine ⟨i, n.settled status b, rfl, by omega, ?_, ?_, ?_, rfl⟩
      · exact (getElem?_grown hn).mpr (.inl ⟨rfl, rfl⟩)
      · rw [Node.settled_status, hbranched]
      · rw [Node.settled_depth]
        rfl
  · intro j q hq hbranched
    rcases (getElem?_grown hn).mp hq with ⟨rfl, rfl⟩ | ⟨hne, hold⟩ | ⟨k, label, -, -, rfl⟩
    · -- The node itself: its children are the two new nodes.
      rw [Node.settled_status] at hbranched
      rw [if_pos (NodeStatus.isBranched_eq.mpr hbranched)] at hkids
      refine ⟨nodes.size, by rw [size_grown, hkids]; omega, fun c q hc => ?_⟩
      rcases (getElem?_grown hn).mp hc with ⟨rfl, rfl⟩ | ⟨-, hold⟩ | ⟨k, label, rfl, hlabel, rfl⟩
      · have hnot := h.parent_ne hn hopen hn
        rw [Node.settled_parent]
        exact ⟨fun hp => absurd hp hnot, fun hc => by omega⟩
      · have hlt : c < nodes.size := (Array.getElem?_eq_some_iff.mp hold).1
        exact ⟨fun hp => absurd hp (h.parent_ne hn hopen hold), fun hc => by omega⟩
      · have hk : k < kids.length := (List.getElem?_eq_some_iff.mp hlabel).1
        exact ⟨fun _ => by omega, fun _ => rfl⟩
    · -- A node that was split before: it gets no new children.
      obtain ⟨k, hk, hiff⟩ := h.children hold hbranched
      refine ⟨k, by rw [size_grown]; omega, fun c r hc => ?_⟩
      rcases (getElem?_grown hn).mp hc with ⟨rfl, rfl⟩ | ⟨-, hc⟩ | ⟨l, label, rfl, -, rfl⟩
      · rw [Node.settled_parent]
        exact hiff c n hn
      · exact hiff c r hc
      · have hparent : (Node.fresh (nodes.size + l) i (n.depth + 1) label).parent = some i := rfl
        rw [hparent, Option.some.injEq]
        exact ⟨fun hij => absurd hij.symm hne, fun hc => by omega⟩
    · cases hbranched

end IsTree

/-! ## What a step writes -/

namespace Search

/-- What a step writes: the node in front gets its status and what was found
    out about it, and its children join the open nodes. -/
structure Written [Scalar α] (s s' : State α ν) (id : Nat) (rest : List (Nat × ν)) (n : Node α)
    (status : NodeStatus α) (b : Option (Bounded α)) (kids : List (Branching α)) : Prop where
  nodes : s'.nodes = grown s.nodes id n status b kids
  examined : status.isCreated = false
  point : b.isSome ↔ status.HasPoint
  children : kids.length = if status.isBranched then 2 else 0
  explored : s'.explored = s.explored + 1
  fathomed : s'.fathomed = s.fathomed + if status.isFathomed then 1 else 0
  branched : s'.branched = s.branched + if status.isBranched then 1 else 0
  maxDepth : s'.maxDepth =
    if status.isBranched then max s.maxDepth (n.depth + 1) else s.maxDepth
  rootBound : s'.rootBound = (if id = 0 then b.map (·.bound) else none).or s.rootBound
  frontier : (s'.frontier.map Prod.fst).Perm
    (rest.map Prod.fst ++ List.range' s.nodes.size kids.length)
  incumbent : s'.incumbent = s.incumbent ∨ ∃ own, b = some own ∧
    status = .fathomed .integerSolution ∧
      s'.incumbent = s.incumbent.install own.objective own.values id

namespace State

variable (s : State α ν) (id : Nat) {n : Node α}

theorem fathom_nodes (reason : FathomReason α) :
    (s.fathom id reason).nodes = s.nodes.modify id (Node.settled (.fathomed reason) none) := rfl

theorem record_nodes (b : Bounded α) :
    (s.record id b).nodes = s.nodes.modify id fun n =>
      { n with bound := some b.bound, objective := some b.objective, values := b.values } := rfl

theorem create_nodes (label : Branching α) :
    (s.create id label).nodes =
      s.nodes.push (.fresh s.nodes.size id (s.depthOf id + 1) label) := rfl

theorem split_nodes (traversal : Traversal) (lower upper : Branching α × ν) :
    (s.split traversal id lower upper).nodes =
      ((s.create id lower.1).create id upper.1).nodes.modify id (Node.settled .branched none) :=
  rfl

theorem fathom_record_nodes (reason : FathomReason α) (b : Bounded α) :
    ((s.record id b).fathom id reason).nodes =
      s.nodes.modify id (Node.settled (.fathomed reason) (some b)) := by
  rw [fathom_nodes, record_nodes, modify_modify]
  rfl

theorem depthOf_eq (hn : s.nodes[id]? = some n) : s.depthOf id = n.depth := by
  rw [depthOf, hn]
  rfl

@[simp] theorem depthOf_record (b : Bounded α) (i : Nat) :
    (s.record id b).depthOf i = s.depthOf i := by
  unfold depthOf
  rw [record_nodes, Array.getElem?_modify]
  split
  · rw [Option.map_map]
    rfl
  · rfl

/-- A new node does not change the depth of an old one. -/
theorem depthOf_create (label : Branching α) (hid : id < s.nodes.size) :
    (s.create id label).depthOf id = s.depthOf id := by
  unfold depthOf
  rw [create_nodes, Array.getElem?_push, if_neg (by omega)]

variable {s id}

theorem split_record_nodes (hn : s.nodes[id]? = some n) (traversal : Traversal) (b : Bounded α)
    (lower upper : Branching α × ν) :
    ((s.record id b).split traversal id lower upper).nodes =
      grown s.nodes id n .branched (some b) [lower.1, upper.1] := by
  have hid : id < s.nodes.size := (Array.getElem?_eq_some_iff.mp hn).1
  have hsize : id < (s.record id b).nodes.size := by rwa [record_size]
  have hdepth : (s.record id b).depthOf id = n.depth := by rw [depthOf_record, depthOf_eq s id hn]
  have hnext : ((s.record id b).create id lower.1).depthOf id = n.depth := by
    rw [depthOf_create _ _ _ hsize, hdepth]
  have hsizes : id < ((s.record id b).create id lower.1).nodes.size := by
    rw [create_nodes, Array.size_push]
    omega
  rw [split_nodes, create_nodes, modify_push hsizes, create_nodes, modify_push hsize, hnext,
    hdepth, Array.size_push, record_size, record_nodes, modify_modify]
  rfl

theorem split_record_maxDepth (hn : s.nodes[id]? = some n) (traversal : Traversal)
    (b : Bounded α) (lower upper : Branching α × ν) :
    ((s.record id b).split traversal id lower upper).maxDepth = max s.maxDepth (n.depth + 1) := by
  have hid : id < s.nodes.size := (Array.getElem?_eq_some_iff.mp hn).1
  have hdepth : (s.record id b).depthOf id = n.depth := by rw [depthOf_record, depthOf_eq s id hn]
  have hnext : ((s.record id b).create id lower.1).depthOf id = n.depth := by
    rw [depthOf_create _ _ _ (by rwa [record_size]), hdepth]
  show max (max s.maxDepth ((s.record id b).depthOf id + 1))
    (((s.record id b).create id lower.1).depthOf id + 1) = _
  rw [hdepth, hnext]
  omega

end State

theorem extend_perm {β : Type} (traversal : Traversal) (frontier : List β) (lower upper : β) :
    (traversal.extend frontier lower upper).Perm (frontier ++ [lower, upper]) := by
  cases traversal with
  | breadthFirst => exact .refl _
  | depthFirst =>
    show ([lower, upper] ++ frontier).Perm (frontier ++ [lower, upper])
    exact List.perm_append_comm

variable [Scalar α] {scheme : Scheme α ν} {settings : Settings α}

/-- A node that is closed has no children. -/
theorem Written.closed {s s' : State α ν} {id : Nat} {rest : List (Nat × ν)} {n : Node α}
    {reason : FathomReason α} {b : Option (Bounded α)}
    (hpoint : b.isSome ↔ (NodeStatus.fathomed reason).HasPoint)
    (hnodes : s'.nodes = s.nodes.modify id (.settled (.fathomed reason) b))
    (hcounters : s'.explored = s.explored + 1 ∧ s'.fathomed = s.fathomed + 1 ∧
      s'.branched = s.branched ∧ s'.maxDepth = s.maxDepth)
    (hroot : s'.rootBound = (if id = 0 then b.map (·.bound) else none).or s.rootBound)
    (hfrontier : s'.frontier = rest)
    (hincumbent : s'.incumbent = s.incumbent ∨ ∃ own, b = some own ∧
      reason = .integerSolution ∧
        s'.incumbent = s.incumbent.install own.objective own.values id) :
    Written s s' id rest n (.fathomed reason) b [] where
  nodes := by
    rw [hnodes]
    exact (Array.append_empty).symm
  examined := rfl
  point := hpoint
  children := rfl
  explored := hcounters.1
  fathomed := hcounters.2.1
  branched := hcounters.2.2.1
  maxDepth := hcounters.2.2.2
  rootBound := hroot
  frontier := by
    rw [hfrontier]
    exact .of_eq (List.append_nil _).symm
  incumbent := by
    refine hincumbent.imp_right ?_
    rintro ⟨own, hown, rfl, hinstall⟩
    exact ⟨own, hown, rfl, hinstall⟩

/-- What becomes of a node: the answers of the scheme and the incumbent decide
    on its status, on what is found out about it, on its children, and on the
    incumbent afterwards. -/
inductive Ruled (scheme : Scheme α ν) (settings : Settings α) (incumbent : Incumbent α) (id : Nat)
    (node : ν) : NodeStatus α → Option (Bounded α) → List (Branching α × ν) → Incumbent α →
      Prop where
  | infeasible {reason : Infeasibility α}
      (h : scheme.evaluate node = .ok (.infeasible reason)) :
      Ruled scheme settings incumbent id node (.fathomed (.infeasible reason)) none [] incumbent
  | unbounded (h : scheme.evaluate node = .ok .unbounded) :
      Ruled scheme settings incumbent id node (.fathomed .unbounded) none [] incumbent
  | pruned {b : Bounded α} (h : scheme.evaluate node = .ok (.bounded b))
      (hbound : ¬ incumbent.CanImprove b.bound settings.tolerance) :
      Ruled scheme settings incumbent id node
        (.fathomed (.bound (incumbent.objective.getD b.bound))) (some b) [] incumbent
  | complete {b : Bounded α} (h : scheme.evaluate node = .ok (.bounded b))
      (hbound : incumbent.CanImprove b.bound settings.tolerance)
      (hcomplete : scheme.isComplete node b = true) :
      Ruled scheme settings incumbent id node (.fathomed .integerSolution) (some b) []
        (incumbent.install b.objective b.values id)
  | split {b : Bounded α} {lower upper : Branching α × ν}
      (h : scheme.evaluate node = .ok (.bounded b))
      (hbound : incumbent.CanImprove b.bound settings.tolerance)
      (hcomplete : scheme.isComplete node b = false)
      (hbranch : scheme.branch node b = .ok (lower, upper)) :
      Ruled scheme settings incumbent id node .branched (some b) [lower, upper] incumbent

/-- The open nodes after a node has been examined: its children get the next
    numbers. -/
def reopen {β : Type} (traversal : Traversal) (rest : List (Nat × ν)) (size : Nat) :
    List (β × ν) → List (Nat × ν)
  | [lower, upper] => traversal.extend rest (size, lower.2) (size + 1, upper.2)
  | _ => rest

theorem Examined.written {s s' : State α ν} {id : Nat} {node : ν} {rest : List (Nat × ν)}
    {events : Array (Event α)} {n : Node α} (hn : s.nodes[id]? = some n)
    (h : Examined scheme settings (s.take rest events) id node s') :
    ∃ status b children, Written s s' id rest n status b (children.map Prod.fst) ∧
      Ruled scheme settings s.incumbent id node status b children s'.incumbent ∧
      s'.frontier = reopen settings.traversal rest s.nodes.size children := by
  -- Without a point the root bound stays, with one it is written at the root.
  have habsent : (if id = 0 then none else none).or s.rootBound = s.rootBound := by
    rw [ite_self, Option.none_or]
  have hpresent : ∀ b : Bounded α, (if id = 0 then some b.bound else s.rootBound) =
      (if id = 0 then some b.bound else none).or s.rootBound := by
    intro b
    split
    · rfl
    · exact (Option.none_or).symm
  cases h with
  | infeasible hevaluate =>
    exact ⟨_, none, [], .closed (by simp [NodeStatus.HasPoint]) (State.fathom_nodes _ _ _)
      ⟨rfl, rfl, rfl, rfl⟩ habsent.symm rfl (.inl rfl), .infeasible hevaluate, rfl⟩
  | unbounded hevaluate =>
    exact ⟨_, none, [], .closed (by simp [NodeStatus.HasPoint]) (State.fathom_nodes _ _ _)
      ⟨rfl, rfl, rfl, rfl⟩ habsent.symm rfl (.inl rfl), .unbounded hevaluate, rfl⟩
  | @pruned b hevaluate hbound =>
    exact ⟨_, some b, [], .closed (by simp [NodeStatus.HasPoint])
      (State.fathom_record_nodes _ _ _ _) ⟨rfl, rfl, rfl, rfl⟩ (hpresent b) rfl (.inl rfl),
      .pruned hevaluate hbound, rfl⟩
  | @complete b hevaluate hbound hcomplete =>
    exact ⟨_, some b, [], .closed (by simp [NodeStatus.HasPoint])
      (State.fathom_record_nodes _ _ _ _) ⟨rfl, rfl, rfl, rfl⟩ (hpresent b) rfl
      (.inr ⟨b, rfl, rfl, rfl⟩), .complete hevaluate hbound hcomplete, rfl⟩
  | @split b lower upper hevaluate hbound hcomplete hbranch =>
    refine ⟨.branched, some b, [lower, upper], ?_, .split hevaluate hbound hcomplete hbranch, ?_⟩
    · exact {
        nodes := State.split_record_nodes hn settings.traversal b lower upper
        examined := rfl
        point := by simp [NodeStatus.HasPoint]
        children := rfl
        explored := rfl
        fathomed := rfl
        branched := rfl
        maxDepth := State.split_record_maxDepth hn settings.traversal b lower upper
        rootBound := hpresent b
        frontier := by
          have hperm := (extend_perm settings.traversal rest (s.nodes.size, lower.2)
            (s.nodes.size + 1, upper.2)).map Prod.fst
          rw [List.map_append] at hperm
          rw [State.split_frontier, State.record_size]
          exact hperm
        incumbent := .inl rfl }
    · rw [State.split_frontier, State.record_size]
      rfl

end Search

/-! ## The discoveries -/

namespace Found

variable {nodes nodes' : Array (Node α)} {found : Array (Discovery α)} {objective : Option α}
  {values : List α}

/-- Solutions stay where they are when examined nodes do. -/
theorem mono (h : Found nodes found objective values)
    (hkeep : ∀ (i : Nat) (q : Node α), nodes[i]? = some q → q.status ≠ .created →
      nodes'[i]? = some q) :
    Found nodes' found objective values where
  distinct := h.distinct
  solution d hd := by
    obtain ⟨n, hn, hstatus, hobjective⟩ := h.solution d hd
    have hexamined : n.status ≠ .created := by
      rw [hstatus]
      exact nofun
    exact ⟨n, hkeep _ _ hn hexamined, hstatus, hobjective⟩
  nothing := h.nothing
  best d hd := by
    obtain ⟨n, hn, hobjective, hvalues⟩ := h.best d hd
    -- The last solution is one of the solutions, so its node was examined.
    obtain ⟨q, hq, hstatus, -⟩ := h.solution d (Array.mem_of_back? hd)
    have hexamined : n.status ≠ .created := by
      rw [Option.some.inj (hn.symm.trans hq), hstatus]
      exact nofun
    exact ⟨n, hkeep _ _ hn hexamined, hobjective, hvalues⟩

/-- A node that has not been found before becomes the last solution. -/
theorem push (h : Found nodes found objective values) {id : Nat} {n : Node α} {best : α}
    (hn : nodes[id]? = some n) (hstatus : n.status = .fathomed .integerSolution)
    (hbest : n.objective = some best) (hnew : ∀ d ∈ found, d.node ≠ id) :
    Found nodes (found.push ⟨id, best⟩) (some best) n.values where
  distinct := by
    rw [Array.toList_push, List.map_append, List.nodup_append]
    refine ⟨h.distinct, List.nodup_singleton _, ?_⟩
    intro i hi j hj
    obtain ⟨d, hd, rfl⟩ := List.mem_map.mp hi
    rw [List.mem_singleton.mp hj]
    exact hnew d (Array.mem_toList_iff.mp hd)
  solution d hd := by
    rcases Array.mem_push.mp hd with hold | rfl
    · exact h.solution d hold
    · exact ⟨n, hn, hstatus, hbest⟩
  nothing hempty := absurd hempty (Array.push_ne_empty)
  best d hd := by
    rw [Array.back?_push, Option.some.injEq] at hd
    subst hd
    exact ⟨n, hn, hbest.symm, rfl⟩

end Found

namespace Search

/-! ## Steps keep states well-formed -/

/-- The node that is taken next is in the arena, and it has not been examined. -/
theorem State.WellFormed.front {s : State α ν} (h : s.WellFormed) {id : Nat} {node : ν}
    {rest : List (Nat × ν)} (hfrontier : s.frontier = (id, node) :: rest) :
    ∃ n, s.nodes[id]? = some n ∧ n.status = .created := by
  apply (h.mem_open id).mp
  rw [hfrontier]
  exact List.mem_cons_self

namespace Written

variable [Scalar α] {s s' : State α ν} {id : Nat} {node : ν} {rest : List (Nat × ν)}
  {n : Node α} {status : NodeStatus α} {b : Option (Bounded α)} {kids : List (Branching α)}

theorem getElem?_iff (hw : Written s s' id rest n status b kids) (hn : s.nodes[id]? = some n)
    {i : Nat} {q : Node α} :
    s'.nodes[i]? = some q ↔
      (i = id ∧ q = n.settled status b) ∨ (i ≠ id ∧ s.nodes[i]? = some q) ∨
        ∃ k label, i = s.nodes.size + k ∧ kids[k]? = some label ∧
          q = .fresh i id (n.depth + 1) label := by
  rw [hw.nodes]
  exact getElem?_grown hn

/-- A node that was examined before stays what it is. -/
theorem keeps (hw : Written s s' id rest n status b kids) (hn : s.nodes[id]? = some n)
    (hopen : n.status = .created) {i : Nat} {q : Node α} (hq : s.nodes[i]? = some q)
    (hexamined : q.status ≠ .created) : s'.nodes[i]? = some q := by
  rw [hw.nodes]
  exact grown_keeps hn hopen hq hexamined

theorem status_ne (hw : Written s s' id rest n status b kids) : status ≠ .created := by
  intro hcreated
  have hexamined := hw.examined
  rw [hcreated] at hexamined
  cases hexamined

theorem children_of_mem (hw : Written s s' id rest n status b kids) {label : Branching α}
    (hlabel : label ∈ kids) : status.isBranched = true := by
  by_contra hne
  have hlength := hw.children
  rw [if_neg hne] at hlength
  rw [List.length_eq_zero_iff.mp hlength] at hlabel
  cases hlabel

/-- A closed node is fathomed, and a node that is not closed is split. -/
theorem isFathomed_eq (hw : Written s s' id rest n status b kids) :
    status.isFathomed = !status.isBranched := by
  have hexamined := hw.examined
  cases status with
  | created => cases hexamined
  | fathomed reason => rfl
  | branched => rfl

theorem depth_le (hw : Written s s' id rest n status b kids) (hn : s.nodes[id]? = some n)
    (hle : ∀ q ∈ s.nodes, q.depth ≤ s.maxDepth) (q : Node α) (hq : q ∈ s'.nodes) :
    q.depth ≤ s'.maxDepth := by
  have hgrow : s.maxDepth ≤ s'.maxDepth := by
    rw [hw.maxDepth]
    split <;> omega
  rw [hw.nodes] at hq
  rcases mem_grown hn hq with rfl | hold | ⟨i, label, hlabel, rfl⟩
  · rw [Node.settled_depth]
    exact (hle n (Array.mem_of_getElem? hn)).trans hgrow
  · exact (hle q hold).trans hgrow
  · -- A child is at most one level deeper than anything before.
    have hmax := hw.maxDepth
    rw [if_pos (hw.children_of_mem hlabel)] at hmax
    show n.depth + 1 ≤ s'.maxDepth
    omega

theorem deepest (hw : Written s s' id rest n status b kids) (hn : s.nodes[id]? = some n)
    (hdeep : ∃ q ∈ s.nodes, q.depth = s.maxDepth) :
    ∃ q ∈ s'.nodes, q.depth = s'.maxDepth := by
  have hkept : ∀ q ∈ s.nodes, ∃ r ∈ s'.nodes, r.depth = q.depth := by
    intro q hq
    obtain ⟨i, hi⟩ := Array.mem_iff_getElem?.mp hq
    by_cases hid : i = id
    · subst hid
      have hqn : q = n := Option.some.inj (hi.symm.trans hn)
      refine ⟨n.settled status b, ?_, by rw [Node.settled_depth, hqn]⟩
      exact Array.mem_of_getElem? ((hw.getElem?_iff hn).mpr (.inl ⟨rfl, rfl⟩))
    · exact ⟨q, Array.mem_of_getElem? ((hw.getElem?_iff hn).mpr (.inr (.inl ⟨hid, hi⟩))), rfl⟩
  obtain ⟨q, hq, hdepth⟩ := hdeep
  have hmax := hw.maxDepth
  by_cases hbranched : status.isBranched = true
  · rw [if_pos hbranched] at hmax
    by_cases hdeeper : s.maxDepth < n.depth + 1
    · -- The children are on a new level.
      have hlength := hw.children
      rw [if_pos hbranched] at hlength
      obtain ⟨label, hlabel⟩ : ∃ label, kids[0]? = some label :=
        ⟨kids[0], List.getElem?_eq_getElem (by omega)⟩
      refine ⟨.fresh s.nodes.size id (n.depth + 1) label, ?_, ?_⟩
      · exact Array.mem_of_getElem?
          ((hw.getElem?_iff hn).mpr (.inr (.inr ⟨0, label, rfl, hlabel, rfl⟩)))
      · show n.depth + 1 = s'.maxDepth
        omega
    · obtain ⟨r, hr, hrq⟩ := hkept q hq
      exact ⟨r, hr, by omega⟩
  · rw [if_neg hbranched] at hmax
    obtain ⟨r, hr, hrq⟩ := hkept q hq
    exact ⟨r, hr, by omega⟩

/-- The root bound is written when the root is, and never again. -/
theorem rootBound_eq (hw : Written s s' id rest n status b kids) (hn : s.nodes[id]? = some n)
    (htree : IsTree s.nodes) (hroot : s.rootBound = s.nodes[0]?.bind (·.bound)) :
    s'.rootBound = s'.nodes[0]?.bind (·.bound) := by
  rw [hw.rootBound, hroot]
  by_cases hid : id = 0
  · subst hid
    have hnode : s'.nodes[0]? = some (n.settled status b) :=
      (hw.getElem?_iff hn).mpr (.inl ⟨rfl, rfl⟩)
    rw [if_pos rfl, hn, hnode, Option.bind_some, Option.bind_some, Node.settled_bound]
  · obtain ⟨r, hr, -⟩ := htree.root
    have hnode : s'.nodes[0]? = some r :=
      (hw.getElem?_iff hn).mpr (.inr (.inl ⟨Ne.symm hid, hr⟩))
    rw [if_neg hid, hr, hnode, Option.none_or]

theorem found (hw : Written s s' id rest n status b kids) (hn : s.nodes[id]? = some n)
    (hopen : n.status = .created)
    (hfound : Found s.nodes s.incumbent.history s.incumbent.objective s.incumbent.values) :
    Found s'.nodes s'.incumbent.history s'.incumbent.objective s'.incumbent.values := by
  have hkept : Found s'.nodes s.incumbent.history s.incumbent.objective s.incumbent.values :=
    hfound.mono fun i q hq hexamined => hw.keeps hn hopen hq hexamined
  rcases hw.incumbent with hsame | ⟨own, hown, hstatus, hinstall⟩
  · rw [hsame]
    exact hkept
  · rw [hinstall, Incumbent.install]
    split
    · -- The node has not been found before: it was open until now.
      have hnew : ∀ d ∈ s.incumbent.history, d.node ≠ id := by
        intro d hd hid
        obtain ⟨q, hq, hsolution, -⟩ := hfound.solution d hd
        rw [hid, hn, Option.some.injEq] at hq
        rw [← hq, hopen] at hsolution
        cases hsolution
      have hnode : s'.nodes[id]? = some (n.settled status b) :=
        (hw.getElem?_iff hn).mpr (.inl ⟨rfl, rfl⟩)
      subst hown
      exact hkept.push hnode ((Node.settled_status _ _ _).trans hstatus) rfl hnew
    · exact hkept

theorem nodup (hw : Written s s' id rest n status b kids) (h : s.WellFormed)
    (hfrontier : s.frontier = (id, node) :: rest) : (s'.frontier.map Prod.fst).Nodup := by
  have hnodup := h.nodup
  rw [hfrontier, List.map_cons, List.nodup_cons] at hnodup
  rw [hw.frontier.nodup_iff, List.nodup_append]
  refine ⟨hnodup.2, List.nodup_range', ?_⟩
  -- Old nodes are in the arena, and the children are not.
  intro i hi j hj hij
  have hmem : i ∈ s.frontier.map Prod.fst := by
    rw [hfrontier]
    exact List.mem_cons_of_mem _ hi
  obtain ⟨q, hq, -⟩ := (h.mem_open i).mp hmem
  have hlt : i < s.nodes.size := (Array.getElem?_eq_some_iff.mp hq).1
  have hle : s.nodes.size ≤ j := (List.mem_range'_1.mp hj).1
  omega

theorem mem_open (hw : Written s s' id rest n status b kids) (hn : s.nodes[id]? = some n)
    (h : s.WellFormed) (hfrontier : s.frontier = (id, node) :: rest) (i : Nat) :
    i ∈ s'.frontier.map Prod.fst ↔ ∃ q, s'.nodes[i]? = some q ∧ q.status = .created := by
  have hnodup := h.nodup
  rw [hfrontier, List.map_cons, List.nodup_cons] at hnodup
  have hold : ∀ j, j ∈ rest.map Prod.fst ↔
      j ≠ id ∧ ∃ q, s.nodes[j]? = some q ∧ q.status = .created := by
    intro j
    rw [← h.mem_open j, hfrontier, List.map_cons, List.mem_cons]
    constructor
    · intro hj
      exact ⟨fun hid => hnodup.1 (hid ▸ hj), .inr hj⟩
    · rintro ⟨hne, hj⟩
      exact hj.resolve_left hne
  rw [hw.frontier.mem_iff, List.mem_append, hold, List.mem_range'_1]
  constructor
  · rintro (⟨hne, q, hq, hcreated⟩ | ⟨hle, hlt⟩)
    · exact ⟨q, (hw.getElem?_iff hn).mpr (.inr (.inl ⟨hne, hq⟩)), hcreated⟩
    · have hk : i - s.nodes.size < kids.length := by omega
      refine ⟨.fresh i id (n.depth + 1) kids[i - s.nodes.size], ?_, rfl⟩
      exact (hw.getElem?_iff hn).mpr
        (.inr (.inr ⟨_, _, by omega, List.getElem?_eq_getElem hk, rfl⟩))
  · rintro ⟨q, hq, hcreated⟩
    rcases (hw.getElem?_iff hn).mp hq with ⟨-, rfl⟩ | ⟨hne, hq⟩ | ⟨k, label, rfl, hlabel, -⟩
    · rw [Node.settled_status] at hcreated
      exact absurd hcreated hw.status_ne
    · exact .inl ⟨hne, q, hq, hcreated⟩
    · have hk : k < kids.length := (List.getElem?_eq_some_iff.mp hlabel).1
      exact .inr (by omega)

/-- What a step writes keeps the state well-formed. -/
theorem wellFormed (hw : Written s s' id rest n status b kids) (hn : s.nodes[id]? = some n)
    (hopen : n.status = .created) (h : s.WellFormed)
    (hfrontier : s.frontier = (id, node) :: rest) : s'.WellFormed where
  nodup := hw.nodup h hfrontier
  mem_open := hw.mem_open hn h hfrontier
  result names verdict := by
    have hbefore := h.result names verdict
    -- Each counter goes up exactly if the node is one of those it counts.
    have hexamined : s'.explored = s'.nodes.countP fun q => !q.status.isCreated := by
      have hcount : (grown s.nodes id n status b kids).countP (fun q => !q.status.isCreated) =
          s.nodes.countP (fun q => !q.status.isCreated) + if !status.isCreated then 1 else 0 :=
        countP_grown (fun status => !status.isCreated) rfl hn hopen
      rw [hw.examined] at hcount
      rw [hw.nodes, hcount, hw.explored]
      exact congrArg (· + 1) hbefore.explored
    have hfathomed : s'.fathomed = s'.nodes.countP fun q => q.status.isFathomed := by
      rw [hw.nodes, countP_grown NodeStatus.isFathomed rfl hn hopen, hw.fathomed]
      exact congrArg (· + _) hbefore.fathomed
    have hbranched : s'.branched = s'.nodes.countP fun q => q.status.isBranched := by
      rw [hw.nodes, countP_grown NodeStatus.isBranched rfl hn hopen, hw.branched]
      exact congrArg (· + _) hbefore.branched
    have hexplored : s'.explored = s'.fathomed + s'.branched := by
      have heq : s.explored = s.fathomed + s.branched := hbefore.explored_eq
      rw [hw.explored, hw.fathomed, hw.branched, hw.isFathomed_eq, heq]
      cases status.isBranched with
      | true => exact rfl
      | false => exact Nat.add_right_comm _ _ _
    have hsize : s'.nodes.size = 1 + 2 * s'.branched := by
      have heq : s.nodes.size = 1 + 2 * s.branched := hbefore.size
      rw [hw.nodes, size_grown, hw.children, hw.branched, heq]
      split <;> omega
    have htree : IsTree s'.nodes := by
      rw [hw.nodes]
      exact hbefore.tree.grown hn hopen hw.children
    have hrecorded : ∀ q ∈ s'.nodes, q.Recorded := by
      intro q hq
      rw [hw.nodes] at hq
      rcases mem_grown hn hq with rfl | hold | ⟨i, label, -, rfl⟩
      · exact (hbefore.recorded n (Array.mem_of_getElem? hn)).settled hopen hw.point
      · exact hbefore.recorded q hold
      · exact Node.recorded_fresh _ _ _ _
    exact {
      tree := htree
      recorded := hrecorded
      explored := hexamined
      fathomed := hfathomed
      branched := hbranched
      explored_eq := hexplored
      size := hsize
      depth_le := hw.depth_le hn hbefore.depth_le
      deepest := hw.deepest hn hbefore.deepest
      rootBound := hw.rootBound_eq hn hbefore.tree hbefore.rootBound
      found := hw.found hn hopen hbefore.found }

end Written

/-! ## Runs -/

/-- A search starts with its root as the only node. -/
theorem start_wellFormed (sense : Sense) (root : ν) :
    (State.start sense root : State α ν).WellFormed := by
  have honly : ∀ (i : Nat) (n : Node α),
      (State.start sense root : State α ν).nodes[i]? = some n →
        i = 0 ∧ n = { id := 0, parent := none, depth := 0, branching := none } := by
    intro i n hn
    obtain ⟨hi, hget⟩ := Array.getElem?_eq_some_iff.mp hn
    have hzero : i = 0 := Nat.lt_one_iff.mp hi
    subst hzero
    exact ⟨rfl, hget.symm⟩
  refine ⟨fun names status => ?_, List.nodup_singleton 0, fun i => ?_⟩
  · have htree : IsTree (State.start sense root : State α ν).nodes := by
      refine ⟨?_, ⟨_, rfl, rfl, rfl⟩, ?_, ?_⟩
      · intro i n hn
        obtain ⟨rfl, rfl⟩ := honly i n hn
        rfl
      · intro i n hn hi
        exact absurd (honly i n hn).1 hi
      · intro i n hn hbranched
        obtain ⟨-, rfl⟩ := honly i n hn
        cases hbranched
    have hmem : ∀ n ∈ (State.start sense root : State α ν).nodes,
        n = { id := 0, parent := none, depth := 0, branching := none } :=
      fun n hn => List.mem_singleton.mp (Array.mem_def.mp hn)
    exact {
      tree := htree
      recorded := fun n hn => by
        rw [hmem n hn]
        exact ⟨fun _ => ⟨rfl, rfl, rfl⟩, fun h => h.elim⟩
      explored := rfl
      fathomed := rfl
      branched := rfl
      explored_eq := rfl
      size := rfl
      depth_le := fun n hn => by
        rw [hmem n hn]
        exact le_rfl
      deepest := ⟨_, Array.mem_def.mpr List.mem_cons_self, rfl⟩
      rootBound := rfl
      found := ⟨List.nodup_nil, nofun, fun _ => ⟨rfl, rfl⟩, nofun⟩ }
  · show i ∈ [0] ↔ _
    rw [List.mem_singleton]
    constructor
    · rintro rfl
      exact ⟨_, rfl, rfl⟩
    · rintro ⟨n, hn, -⟩
      exact (honly i n hn).1

section runs

variable [Scalar α] {scheme : Scheme α ν} {settings : Settings α} {root : ν}

/-- A step examines the node in front and writes it down. -/
theorem step_wellFormed {s s' : State α ν} (h : s.WellFormed)
    (hstep : step scheme settings s = .running s') : s'.WellFormed := by
  obtain ⟨id, node, rest, hfrontier, -, hexamined⟩ := step_running hstep
  obtain ⟨n, hn, hopen⟩ := h.front hfrontier
  obtain ⟨status, b, children, hwritten, -⟩ := hexamined.written hn
  exact hwritten.wellFormed hn hopen h hfrontier

/-- Every state that a search passes through is well-formed. -/
theorem wellFormed_of_visited {s : State α ν} (h : Visited scheme settings root s) :
    s.WellFormed := by
  induction h with
  | start => exact start_wellFormed scheme.sense root
  | next _ hstep ih => exact step_wellFormed ih hstep

theorem tree_of_visited {s : State α ν} (h : Visited scheme settings root s) : IsTree s.nodes :=
  ((wellFormed_of_visited h).result scheme.names .error).tree

/-- The states of a search, its answer and what is left of it at a node limit
    are well-formed, whatever the scheme answers.  Only a tree that the scheme
    itself has put into the failure that ends the search is none of its own. -/
theorem arena_wellFormed (scheme : Scheme α ν) (settings : Settings α) (root : ν) :
    (∀ s, Visited scheme settings root s → s.WellFormed) ∧
      (∀ steps result, run steps scheme root settings = some (.ok result) → result.WellFormed) ∧
      ∀ steps limit explored cut,
        run steps scheme root settings = some (.error (.nodeLimit limit explored cut)) →
          cut.WellFormed ∨ EndsInScheme scheme settings root (.nodeLimit limit explored cut) := by
  refine ⟨fun s hs => wellFormed_of_visited hs, fun steps result h => ?_,
    fun steps limit explored cut h => ?_⟩
  · obtain ⟨s, hs, -, rfl⟩ := run_ok h
    exact (wellFormed_of_visited hs).result _ _
  · rcases run_failed h with ⟨s, limit', hs, -, hfailure⟩ | hends
    · cases hfailure
      exact .inl ((wellFormed_of_visited hs).result _ _)
    · exact .inr hends

end runs

theorem halving_arena : ∃ result cut : SearchResult Exact,
    run 20 halving (0, 3) { tolerance := .rational 0 } = some (.ok result) ∧
      result.WellFormed ∧
      run 20 halving (0, 3) { tolerance := .rational 0, nodeLimit := some 2 } =
        some (.error (.nodeLimit 2 2 cut)) ∧
      cut.WellFormed := by
  have hfinds : (run 20 halving (0, 3) { tolerance := .rational 0 }).map
      (·.toOption.isSome) = some true := by
    decide +kernel
  have hlimit : (run 20 halving (0, 3) { tolerance := .rational 0, nodeLimit := some 2 }).map
      (fun answer => match answer with
        | .error (.nodeLimit limit explored _) => some (limit, explored)
        | _ => none) = some (some (2, 2)) := by
    decide +kernel
  cases hrun : run 20 halving (0, 3) { tolerance := .rational 0 } with
  | none => rw [hrun] at hfinds; cases hfinds
  | some answer =>
    rw [hrun] at hfinds
    cases answer with
    | error failure => cases hfinds
    | ok result =>
      have hresult := (arena_wellFormed halving { tolerance := .rational 0 } (0, 3)).2.1 _ _ hrun
      cases hcut : run 20 halving (0, 3) { tolerance := .rational 0, nodeLimit := some 2 } with
      | none => rw [hcut] at hlimit; cases hlimit
      | some answer =>
        rw [hcut] at hlimit
        cases answer with
        | ok _ => cases hlimit
        | error failure =>
          cases failure with
          | nodeLimit limit explored cut =>
            cases hlimit
            have hwell := (arena_wellFormed halving
              { tolerance := .rational 0, nodeLimit := some 2 } (0, 3)).2.2 _ _ _ _ hcut
            exact ⟨result, cut, rfl, hresult, rfl,
              hwell.resolve_right (halving_not_endsInScheme _ _ _)⟩
          | _ => cases hlimit

end Search

end IntegerProgramming
