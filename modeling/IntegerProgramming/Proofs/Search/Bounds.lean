import IntegerProgramming.Proofs.Search.Certificate

/-! # Bounds on the way down

    A scheme tightens if a child is never promised more than its parent, and a
    solution is never worth more than the bound of its own node
    (`Scheme.Tightens`).  Then no solution beats any bound on its path, and the
    best one does not beat the bound of the root
    (`SearchResult.Tightening`).

    The scheme speaks of subproblems, and the tree of records.  The two meet at
    open nodes: the record of the parent is about a subproblem that the open
    one was split off from (`origin_of_open`). -/

namespace IntegerProgramming

variable {α ν : Type} [Scalar α]

/-- No bound below a root improves on the way down, and the objective of a
    solution does not improve on its bound. -/
structure Scheme.Tightens (s : Scheme α ν) (root : ν) : Prop where
  child {parent child : ν} {above below : Bounded α} (hn : s.Reachable root parent)
    (hchild : s.IsChild parent child) (habove : s.evaluate parent = .ok (.bounded above))
    (hbelow : s.evaluate child = .ok (.bounded below)) :
    s.sense.AtLeastAsGood above.bound below.bound
  complete {node : ν} {b : Bounded α} (hn : s.Reachable root node)
    (h : s.evaluate node = .ok (.bounded b)) (hc : s.isComplete node b = true) :
    s.sense.AtLeastAsGood b.bound b.objective

/-- There is a node with a bound that is at least as good as a number. -/
def BoundedBy (nodes : Array (Node α)) (sense : Sense) (i : Nat) (x : α) : Prop :=
  ∃ n bound, nodes[i]? = some n ∧ n.bound = some bound ∧ sense.AtLeastAsGood bound x

/-- The bounds of a tree only tighten, and its solutions keep to them. -/
structure SearchResult.Tightening (sense : Sense) (r : SearchResult α) : Prop where
  /-- The parent of a node with a bound has one that is at least as good. -/
  parent {n : Node α} (hn : n ∈ r.nodes) {p : Nat} (hp : n.parent = some p) {bound : α}
    (hbound : n.bound = some bound) : BoundedBy r.nodes sense p bound
  /-- A solution beats no bound on the way to it. -/
  path {d : Discovery α} (hd : d ∈ r.incumbents) {k : Nat} (hk : k ∈ r.pathTo d.node) :
    BoundedBy r.nodes sense k d.objective
  /-- The best solution does not beat the bound of the root. -/
  best {x : α} (hx : r.bestObjective = some x) :
    ∃ bound, r.rootBound = some bound ∧ sense.AtLeastAsGood bound x

namespace Search

/-! ## Records and subproblems -/

section ruled

variable {scheme : Scheme α ν} {settings : Settings α} {i i' : Incumbent α} {id : Nat} {node : ν}
  {status : NodeStatus α} {b : Option (Bounded α)} {children : List (Branching α × ν)}

/-- A status that calls for a point comes with what the scheme has answered. -/
theorem Ruled.of_hasPoint (h : Ruled scheme settings i id node status b children i')
    (hpoint : status.HasPoint) :
    ∃ own, b = some own ∧ scheme.evaluate node = .ok (.bounded own) := by
  cases h with
  | infeasible | unbounded => exact hpoint.elim
  | pruned hevaluate | complete hevaluate | split hevaluate => exact ⟨_, rfl, hevaluate⟩

/-- A node with children was split, and its record has the bound. -/
theorem Ruled.of_mem_children (h : Ruled scheme settings i id node status b children i')
    {child : Branching α × ν} (hchild : child ∈ children) :
    status = .branched ∧ ∃ own, b = some own ∧ scheme.evaluate node = .ok (.bounded own) := by
  cases h with
  | split hevaluate => exact ⟨rfl, _, rfl, hevaluate⟩
  | _ => cases hchild

/-- A node whose own point was a solution is complete. -/
theorem Ruled.isComplete {b : Bounded α}
    (h : Ruled scheme settings i id node (.fathomed .integerSolution) (some b) children i') :
    scheme.isComplete node b = true := by
  cases h with
  | complete _ _ hcomplete => exact hcomplete

end ruled

section origin

variable {scheme : Scheme α ν} {settings : Settings α} {root : ν} {s : State α ν}

/-- The parent of an open node has been examined, and what its record says is
    the bound of a subproblem that was split. -/
theorem origin_of_open (h : Visited scheme settings root s) {p : Nat × ν} (hp : p ∈ s.frontier)
    {n : Node α} (hn : s.nodes[p.1]? = some n) {k : Nat} (hk : n.parent = some k) :
    ∃ q parent b, s.nodes[k]? = some q ∧ q.status ≠ .created ∧ q.bound = some b.bound ∧
      scheme.Reachable root parent ∧ scheme.evaluate parent = .ok (.bounded b) ∧
      scheme.IsChild parent p.2 := by
  induction h generalizing p n with
  | start =>
    -- The root has no parent.
    rw [List.mem_singleton.mp hp] at hn
    cases hn
    cases hk
  | @next s s' hs hstep ih =>
    have hwell := wellFormed_of_visited hs
    have hgrows := grows_of_step hwell hstep
    obtain ⟨id, node, rest, hfrontier, -, hexamined⟩ := step_running hstep
    obtain ⟨m, hm, -⟩ := hwell.front hfrontier
    obtain ⟨status, b, children, hwritten, hruled, hreopen⟩ := hexamined.written hm
    rw [hreopen] at hp
    rcases mem_reopen hp with hold | ⟨i, child, hchild, rfl⟩
    · have hmem : p ∈ s.frontier := hfrontier ▸ List.mem_cons_of_mem _ hold
      obtain ⟨n', hn', -⟩ := (hwell.mem_open p.1).mp (List.mem_map_of_mem hmem)
      obtain ⟨n'', hn'', -, hparent, -⟩ := hgrows.place hn'
      rw [hn, Option.some.injEq] at hn''
      subst hn''
      obtain ⟨q, parent, b', hq, hdone, hrest⟩ := ih hmem hn' (hparent ▸ hk)
      exact ⟨q, parent, b', hgrows.examined hq hdone, hdone, hrest⟩
    · -- A new node was split off from the one that has just been examined.
      have hlabel : (children.map Prod.fst)[i]? = some child.1 := by
        rw [List.getElem?_map, hchild]
        rfl
      have hfresh : s'.nodes[s.nodes.size + i]? =
          some (.fresh (s.nodes.size + i) id (m.depth + 1) child.1) :=
        (hwritten.getElem?_iff hm).mpr (.inr (.inr ⟨i, child.1, rfl, hlabel, rfl⟩))
      rw [hn, Option.some.injEq] at hfresh
      subst hfresh
      cases hk
      have hmem := List.mem_of_getElem? hchild
      obtain ⟨rfl, own, rfl, hevaluate⟩ := hruled.of_mem_children hmem
      refine ⟨m.settled .branched (some own), node, own,
        (hwritten.getElem?_iff hm).mpr (.inl ⟨rfl, rfl⟩), nofun, rfl,
        reachable_of_open hs (hfrontier ▸ List.mem_cons_self), hevaluate, ?_⟩
      obtain ⟨own', lower, upper, hown, hcomplete, hbranch, hside⟩ := hruled.child hmem
      exact ⟨own', lower, upper, hown, hcomplete, hbranch,
        hside.imp (congrArg Prod.snd) (congrArg Prod.snd)⟩

/-- A node with a bound was examined, and the bound is that of an open
    subproblem of that moment. -/
theorem examining_of_bound (h : Visited scheme settings root s) {i : Nat} {n : Node α}
    (hn : s.nodes[i]? = some n) {bound : α} (hbound : n.bound = some bound) :
    ∃ t t' node m b children,
      Examining scheme settings root t t' i node m n.status (some b) children ∧
        n = m.settled n.status (some b) ∧ t'.Grows s ∧ b.bound = bound ∧
        scheme.evaluate node = .ok (.bounded b) := by
  have hpoint : n.status.HasPoint := by
    by_contra hnone
    have hrecorded := ((wellFormed_of_visited h).result [] .optimal).recorded n
      (Array.mem_of_getElem? hn)
    rw [(hrecorded.absent hnone).1] at hbound
    cases hbound
  have hexamined : n.status ≠ .created := by
    intro hopen
    rw [hopen] at hpoint
    exact hpoint
  obtain ⟨t, t', node, m, b, children, hexamining, hsettled, hlater⟩ :=
    examining_of_examined h hn hexamined
  obtain ⟨own, rfl, hevaluate⟩ := hexamining.ruled.of_hasPoint hpoint
  refine ⟨t, t', node, m, own, children, hexamining, hsettled, hlater, ?_, hevaluate⟩
  rw [hsettled] at hbound
  exact Option.some.inj hbound

end origin

/-! ## Trees -/

section trees

variable {scheme : Scheme α ν} {settings : Settings α} {root : ν} {s : State α ν}
  (htightens : scheme.Tightens root)

include htightens

/-- The bound of a node is no better than the bound of its parent. -/
theorem boundedBy_parent (h : Visited scheme settings root s) {i : Nat} {n : Node α}
    (hn : s.nodes[i]? = some n) {p : Nat} (hp : n.parent = some p) {bound : α}
    (hbound : n.bound = some bound) : BoundedBy s.nodes scheme.sense p bound := by
  obtain ⟨t, t', node, m, b, children, hexamining, hsettled, hlater, rfl, hown⟩ :=
    examining_of_bound h hn hbound
  rw [hsettled, Node.settled_parent] at hp
  obtain ⟨q, parent, above, hq, hdone, habove, hreachable, hevaluate, hchild⟩ :=
    origin_of_open hexamining.visited hexamining.mem_frontier hexamining.before hp
  have hgrows := hexamining.grows.trans hlater
  refine ⟨q, above.bound, hgrows.examined hq hdone, habove, ?_⟩
  exact htightens.child hreachable hchild hevaluate hown

/-- The objective of a solution is no better than the bound of its node. -/
theorem boundedBy_solution (h : Visited scheme settings root s) {i : Nat} {n : Node α}
    (hn : s.nodes[i]? = some n) (hstatus : n.status = .fathomed .integerSolution) {x : α}
    (hx : n.objective = some x) : BoundedBy s.nodes scheme.sense i x := by
  have hexamined : n.status ≠ .created := by
    rw [hstatus]
    exact nofun
  obtain ⟨t, t', node, m, b, children, hexamining, hsettled, -⟩ :=
    examining_of_examined h hn hexamined
  have hreachable := reachable_of_open hexamining.visited hexamining.mem_frontier
  have hruled := hexamining.ruled
  rw [hstatus] at hruled
  obtain ⟨own, rfl, hevaluate, -⟩ := hruled.of_integerSolution
  rw [hsettled] at hx
  cases hx
  refine ⟨n, own.bound, hn, ?_, htightens.complete hreachable hevaluate hruled.isComplete⟩
  rw [hsettled]
  rfl

variable [Scalar.Ordered α]

/-- What one node is bounded by, its ancestors are bounded by as well. -/
theorem boundedBy_ancestors (h : Visited scheme settings root s) (names : List String)
    (status : Status) {x : α} {length : Nat} {i : Nat}
    (hi : BoundedBy s.nodes scheme.sense i x) :
    ∀ k ∈ (s.result names status).ancestors length i, BoundedBy s.nodes scheme.sense k x := by
  induction length generalizing i with
  | zero =>
    intro k hk
    rw [SearchResult.ancestors, List.mem_singleton] at hk
    rwa [hk]
  | succ length ih =>
    intro k hk
    unfold SearchResult.ancestors at hk
    split at hk
    · rw [List.mem_singleton] at hk
      rwa [hk]
    · rename_i p hparent
      rw [List.mem_append, List.mem_singleton] at hk
      rcases hk with hk | rfl
      · -- The parent has a bound, and it is at least as good.
        obtain ⟨n, bound, hn, hbound, hgood⟩ := hi
        obtain ⟨n', hn', hp⟩ := Option.bind_eq_some_iff.mp hparent
        obtain rfl : n = n' := Option.some.inj (hn.symm.trans hn')
        obtain ⟨q, above, hq, habove, habove'⟩ := boundedBy_parent htightens h hn hp hbound
        exact ih ⟨q, above, hq, habove, habove'.trans hgood⟩ k hk
      · exact hi

/-- What one node is bounded by, the root is bounded by. -/
theorem boundedBy_root (h : Visited scheme settings root s) {x : α} {i : Nat}
    (hi : BoundedBy s.nodes scheme.sense i x) : BoundedBy s.nodes scheme.sense 0 x := by
  -- A parent comes before its children.
  induction i using Nat.strongRecOn with
  | ind i ih =>
    by_cases hzero : i = 0
    · exact hzero ▸ hi
    · obtain ⟨n, bound, hn, hbound, hgood⟩ := hi
      obtain ⟨p, -, hp, hlt, -⟩ := (tree_of_visited h).parent hn hzero
      obtain ⟨q, above, hq, habove, habove'⟩ := boundedBy_parent htightens h hn hp hbound
      exact ih p hlt ⟨q, above, hq, habove, habove'.trans hgood⟩

theorem tightening_of_visited (h : Visited scheme settings root s) (status : Status) :
    (s.result scheme.names status).Tightening scheme.sense := by
  have hwell := (wellFormed_of_visited h).result scheme.names status
  have hsolution : ∀ d ∈ s.incumbent.history,
      BoundedBy s.nodes scheme.sense d.node d.objective := by
    intro d hd
    obtain ⟨n, hn, hsolved, hobjective⟩ := hwell.found.solution d hd
    exact boundedBy_solution htightens h hn hsolved hobjective
  refine ⟨fun hn _ hp _ hbound => ?_, fun hd _ hk => ?_, fun {x} hx => ?_⟩
  · obtain ⟨i, hi⟩ := Array.mem_iff_getElem?.mp hn
    exact boundedBy_parent htightens h hi hp hbound
  · exact boundedBy_ancestors htightens h _ _ (hsolution _ hd) _ hk
  · -- The best solution is the last one found.
    have hbest : s.incumbent.objective = some x := hx
    cases hlast : s.incumbent.history.back? with
    | none =>
      have hnothing := (hwell.found.nothing (Array.back?_eq_none_iff.mp hlast)).1
      rw [hnothing] at hx
      cases hx
    | some d =>
      have hmem := Array.mem_of_back? hlast
      obtain ⟨n, hn, hobjective, -⟩ := hwell.found.best d hlast
      obtain ⟨n', hn', -, hown⟩ := hwell.found.solution d hmem
      obtain rfl : n = n' := Option.some.inj (hn.symm.trans hn')
      obtain rfl : d.objective = x := by
        have hsame : some x = n.objective := hx.symm.trans hobjective
        rw [hown, Option.some.injEq] at hsame
        exact hsame.symm
      obtain ⟨r, bound, hr, hbound, hgood⟩ := boundedBy_root htightens h (hsolution d hmem)
      refine ⟨bound, ?_, hgood⟩
      rw [hwell.rootBound]
      exact Option.bind_eq_some_iff.mpr ⟨r, hr, hbound⟩

/-- The bounds of every tree tighten, finished or cut short by the limit, unless
    it comes with a failure of the scheme itself. -/
theorem tightening_of_tree (hfailures : ∀ node failure, scheme.BreaksAt node failure →
      tree? (.error failure) = none) {steps : Nat} {answer : Except (Failure α) (SearchResult α)}
    {result : SearchResult α} (h : run steps scheme root settings = some answer)
    (htree : tree? answer = some result) : result.Tightening scheme.sense := by
  obtain ⟨s, status, hs, rfl⟩ := exists_state_of_tree hfailures h htree
  exact tightening_of_visited htightens hs status

end trees

end Search

end IntegerProgramming
