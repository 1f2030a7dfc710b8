import IntegerProgramming.Proofs.Search.Runs

/-! # The tree describes itself

    A label says which decision created a node.  The labels on the path to a
    node are all that its subproblem depends on: following them from the root,
    by the splits of the scheme, leads to the subproblem
    (`Scheme.Descends`), and examining it shows what the tree records
    (`Node.outcome?`).

    The search keeps labels and subproblems apart, in the arena and in the
    frontier, and only the numbers of the nodes tie them together.  A number is
    given out twice at every split, once to the arena and once to the frontier,
    in each of the two orders; the invariant is that both speak of one node
    (`descends_of_open`). -/

namespace IntegerProgramming

variable {α ν : Type}

/-! ## Records and labels -/

/-- The point of a node with its bound, if they have been written down. -/
def Node.bounded? (n : Node α) : Option (Bounded α) :=
  match n.bound, n.objective with
  | some bound, some objective => some ⟨bound, objective, n.values⟩
  | _, _ => none

/-- What examining a node has shown, read off its record. -/
def Node.outcome? (n : Node α) : Option (Evaluation α) :=
  match n.status with
  | .created => none
  | .fathomed (.infeasible reason) => some (.infeasible reason)
  | .fathomed .unbounded => some .unbounded
  | .fathomed (.bound _) | .fathomed .integerSolution | .branched => n.bounded?.map .bounded

theorem Node.values_of_outcome {n : Node α} {b : Bounded α}
    (h : n.outcome? = some (.bounded b)) : n.values = b.values := by
  have hbounded : n.bounded? = some b := by
    unfold outcome? at h
    split at h
    · cases h
    · cases h
    · cases h
    · simpa using h
    · simpa using h
    · simpa using h
  unfold bounded? at hbounded
  split at hbounded
  · cases hbounded
    rfl
  · cases hbounded

/-- Examining a node that shows a point shows a bound. -/
theorem Node.bounded_of_outcome {n : Node α} {evaluation : Evaluation α}
    (h : n.outcome? = some evaluation) (hpoint : n.status.HasPoint) :
    ∃ b, evaluation = .bounded b := by
  have hmap : n.bounded?.map Evaluation.bounded = some evaluation := by
    unfold outcome? at h
    cases hstatus : n.status with
    | created => rw [hstatus] at h; cases h
    | branched => rwa [hstatus] at h
    | fathomed reason =>
      rw [hstatus] at h hpoint
      cases reason with
      | infeasible | unbounded => exact hpoint.elim
      | bound | integerSolution => exact h
  obtain ⟨b, -, rfl⟩ := Option.map_eq_some_iff.mp hmap
  exact ⟨b, rfl⟩

/-- The decisions on the way from the root to a node. -/
def SearchResult.labels (r : SearchResult α) (id : Nat) : List (Branching α) :=
  (r.pathTo id).filterMap fun i => r.nodes[i]?.bind (·.branching)

/-- The node has two children, made by the two decisions, and no others. -/
def HasChildren (nodes : Array (Node α)) (id : Nat) (down up : Branching α) : Prop :=
  ∃ k lower upper, nodes[k]? = some lower ∧ nodes[k + 1]? = some upper ∧
    lower.branching = some down ∧ upper.branching = some up ∧
    ∀ c q, nodes[c]? = some q → (q.parent = some id ↔ c = k ∨ c = k + 1)

/-! ## Lineages -/

/-- The labels of a node and of its ancestors, the oldest one first. -/
inductive Lineage (nodes : Array (Node α)) : Nat → List (Branching α) → Prop where
  | root {n : Node α} (hn : nodes[0]? = some n) (hparent : n.parent = none)
      (hlabel : n.branching = none) : Lineage nodes 0 []
  | child {i p : Nat} {n : Node α} {labels : List (Branching α)} {label : Branching α}
      (hn : nodes[i]? = some n) (hparent : n.parent = some p) (hlabel : n.branching = some label)
      (h : Lineage nodes p labels) : Lineage nodes i (labels ++ [label])

namespace Lineage

variable {nodes nodes' : Array (Node α)} {i : Nat} {labels : List (Branching α)}

/-- Nodes that keep their places keep their lineages. -/
theorem mono (h : Lineage nodes i labels)
    (hplace : ∀ (j : Nat) (n : Node α), nodes[j]? = some n →
      ∃ q, nodes'[j]? = some q ∧ q.parent = n.parent ∧ q.branching = n.branching) :
    Lineage nodes' i labels := by
  induction h with
  | root hn hparent hlabel =>
    obtain ⟨q, hq, hp, hl⟩ := hplace _ _ hn
    exact .root hq (hp.trans hparent) (hl.trans hlabel)
  | child hn hparent hlabel _ ih =>
    obtain ⟨q, hq, hp, hl⟩ := hplace _ _ hn
    exact .child hq (hp.trans hparent) (hl.trans hlabel) ih

theorem grow {s t : Search.State α ν} (h : Lineage s.nodes i labels) (hgrows : s.Grows t) :
    Lineage t.nodes i labels := by
  apply h.mono
  intro j n hn
  obtain ⟨q, hq, -, hparent, -, hlabel⟩ := hgrows.place hn
  exact ⟨q, hq, hparent, hlabel⟩

/-- In a tree, a parent comes before its children. -/
theorem lt_of_parent (htree : IsTree nodes) {p : Nat} {n : Node α} (hn : nodes[i]? = some n)
    (hparent : n.parent = some p) : p < i := by
  by_cases hi : i = 0
  · subst hi
    obtain ⟨r, hr, hnone, -⟩ := htree.root
    rw [hn, Option.some.injEq] at hr
    rw [hr, hnone] at hparent
    cases hparent
  · obtain ⟨p', -, hp', hlt, -⟩ := htree.parent hn hi
    rw [hparent, Option.some.injEq] at hp'
    omega

/-- The path to a node of a tree runs through its whole lineage. -/
theorem labels_eq {r : SearchResult α} (htree : IsTree r.nodes) (h : Lineage r.nodes i labels) :
    r.labels i = labels := by
  -- Any number of ancestors will do that reaches back to the root.
  have hancestors : ∀ length, i ≤ length →
      (r.ancestors length i).filterMap (fun j => r.nodes[j]?.bind (·.branching)) = labels := by
    induction h with
    | root hn hparent hlabel =>
      intro length _
      have hroot : r.ancestors length 0 = [0] := by
        cases length with
        | zero => rfl
        | succ length => simp [SearchResult.ancestors, SearchResult.parent?, hn, hparent]
      simp [hroot, hn, hlabel]
    | @child i p n labels label hn hparent hlabel _ ih =>
      intro length hlength
      have hlt := lt_of_parent htree hn hparent
      cases length with
      | zero => omega
      | succ length =>
        have hstep : r.ancestors (length + 1) i = r.ancestors length p ++ [i] := by
          simp [SearchResult.ancestors, SearchResult.parent?, hn, hparent]
        rw [hstep, List.filterMap_append, ih length (by omega)]
        simp [hn, hlabel]
  have hi : i < r.nodes.size := by
    cases h with
    | root hn => exact (Array.getElem?_eq_some_iff.mp hn).1
    | child hn => exact (Array.getElem?_eq_some_iff.mp hn).1
  exact hancestors r.nodes.size hi.le

/-- A node has as many labels above it as it is deep. -/
theorem length_eq (htree : IsTree nodes) (h : Lineage nodes i labels) {n : Node α}
    (hn : nodes[i]? = some n) : labels.length = n.depth := by
  induction h generalizing n with
  | root hr =>
    obtain ⟨q, hq, -, hdepth⟩ := htree.root
    rw [hn, Option.some.injEq] at hq
    rw [hq, hdepth]
    rfl
  | @child i p m labels label hm hparent _ _ ih =>
    obtain rfl : n = m := Option.some.inj (hn.symm.trans hm)
    have hlt := lt_of_parent htree hn hparent
    obtain ⟨p', q, hp', -, hq, -, hdepth, -⟩ := htree.parent hn (by omega)
    rw [hparent, Option.some.injEq] at hp'
    subst hp'
    rw [List.length_append, ih hq, hdepth]
    rfl

end Lineage

/-! ## Descents -/

/-- The labels lead from the root to a node, by splits of the scheme. -/
inductive Scheme.Descends (s : Scheme α ν) (root : ν) : List (Branching α) → ν → Prop where
  | root : s.Descends root [] root
  | child {labels : List (Branching α)} {parent : ν} {b : Bounded α}
      {lower upper child : Branching α × ν} (h : s.Descends root labels parent)
      (hevaluate : s.evaluate parent = .ok (.bounded b))
      (hcomplete : s.isComplete parent b = false)
      (hbranch : s.branch parent b = .ok (lower, upper)) (hside : child = lower ∨ child = upper) :
      s.Descends root (labels ++ [child.1]) child.2

/-- Whoever descends arrives at a node of the search. -/
theorem Scheme.Descends.reachable {s : Scheme α ν} {root node : ν} {labels : List (Branching α)}
    (h : s.Descends root labels node) : s.Reachable root node := by
  induction h with
  | root => exact .refl
  | child _ hevaluate hcomplete hbranch hside ih =>
    refine ih.tail ⟨_, _, _, hevaluate, hcomplete, hbranch, ?_⟩
    exact hside.imp (congrArg Prod.snd) (congrArg Prod.snd)

namespace Search

/-- The open nodes after a step: those behind the front, and the children with
    the numbers that they have in the arena. -/
theorem mem_reopen {traversal : Traversal} {rest : List (Nat × ν)} {size : Nat}
    {children : List (Branching α × ν)} {p : Nat × ν}
    (h : p ∈ reopen traversal rest size children) :
    p ∈ rest ∨ ∃ k child, children[k]? = some child ∧ p = (size + k, child.2) := by
  unfold reopen at h
  split at h
  · rw [mem_extend] at h
    rcases h with h | rfl | rfl
    · exact .inl h
    · exact .inr ⟨0, _, rfl, rfl⟩
    · exact .inr ⟨1, _, rfl, rfl⟩
  · exact .inl h

variable [Scalar α] {scheme : Scheme α ν} {settings : Settings α} {root : ν}

/-- Children come from a split. -/
theorem Ruled.child {i i' : Incumbent α} {id : Nat} {node : ν} {status : NodeStatus α}
    {b : Option (Bounded α)} {children : List (Branching α × ν)} {child : Branching α × ν}
    (h : Ruled scheme settings i id node status b children i') (hchild : child ∈ children) :
    ∃ own lower upper, scheme.evaluate node = .ok (.bounded own) ∧
      scheme.isComplete node own = false ∧ scheme.branch node own = .ok (lower, upper) ∧
      (child = lower ∨ child = upper) := by
  cases h with
  | split hevaluate _ hcomplete hbranch =>
    refine ⟨_, _, _, hevaluate, hcomplete, hbranch, ?_⟩
    rwa [List.mem_cons, List.mem_singleton] at hchild
  | _ => cases hchild

/-- The record of a node says what the scheme has answered. -/
theorem Ruled.outcome {i i' : Incumbent α} {id : Nat} {node : ν} {status : NodeStatus α}
    {b : Option (Bounded α)} {children : List (Branching α × ν)}
    (h : Ruled scheme settings i id node status b children i') (n : Node α) :
    ∃ evaluation, scheme.evaluate node = .ok evaluation ∧
      (n.settled status b).outcome? = some evaluation := by
  cases h with
  | infeasible hevaluate => exact ⟨_, hevaluate, rfl⟩
  | unbounded hevaluate => exact ⟨_, hevaluate, rfl⟩
  | pruned hevaluate => exact ⟨_, hevaluate, rfl⟩
  | complete hevaluate => exact ⟨_, hevaluate, rfl⟩
  | split hevaluate => exact ⟨_, hevaluate, rfl⟩

/-- A node that was split has the children that the scheme made of it. -/
theorem Ruled.of_branched {i i' : Incumbent α} {id : Nat} {node : ν}
    {b : Option (Bounded α)} {children : List (Branching α × ν)}
    (h : Ruled scheme settings i id node .branched b children i') :
    ∃ own lower upper, scheme.evaluate node = .ok (.bounded own) ∧
      scheme.branch node own = .ok (lower, upper) ∧ children = [lower, upper] := by
  cases h with
  | split hevaluate _ _ hbranch => exact ⟨_, _, _, hevaluate, hbranch, rfl⟩

/-- The children of a node stay in every later tree what they were when the
    node was split. -/
theorem Examining.hasChildren {s t t' : State α ν} (h : Visited scheme settings root s)
    {i : Nat} {node : ν} {n m : Node α} {b : Option (Bounded α)} {lower upper : Branching α × ν}
    (hexamining : Examining scheme settings root t t' i node m .branched b [lower, upper])
    (hlater : t'.Grows s) (hn : s.nodes[i]? = some n) (hbranched : n.status = .branched) :
    HasChildren s.nodes i lower.1 upper.1 := by
  have hchild : ∀ k label, [lower.1, upper.1][k]? = some label →
      ∃ q, s.nodes[t.nodes.size + k]? = some q ∧ q.parent = some i ∧
        q.branching = some label := by
    intro k label hlabel
    have hnew : t'.nodes[t.nodes.size + k]? =
        some (.fresh (t.nodes.size + k) i (m.depth + 1) label) := by
      rw [hexamining.after]
      exact (getElem?_grown hexamining.before).mpr (.inr (.inr ⟨k, label, rfl, hlabel, rfl⟩))
    obtain ⟨q, hq, -, hparent, -, hbranching⟩ := hlater.place hnew
    exact ⟨q, hq, hparent, hbranching⟩
  obtain ⟨q, hq, hqparent, hqlabel⟩ := hchild 0 lower.1 rfl
  obtain ⟨r, hr, hrparent, hrlabel⟩ := hchild 1 upper.1 rfl
  -- The tree has two children of the node, which are these two.
  obtain ⟨k, -, hiff⟩ := (tree_of_visited h).children hn hbranched
  have hlow := (hiff _ q hq).mp hqparent
  have hhigh := (hiff _ r hr).mp hrparent
  obtain rfl : t.nodes.size = k := by omega
  exact ⟨t.nodes.size, q, r, hq, hr, hqlabel, hrlabel, hiff⟩

/-- The labels above an open node lead from the root to its subproblem. -/
theorem descends_of_open {s : State α ν} (h : Visited scheme settings root s) {p : Nat × ν}
    (hp : p ∈ s.frontier) :
    ∃ labels, Lineage s.nodes p.1 labels ∧ scheme.Descends root labels p.2 := by
  induction h generalizing p with
  | start =>
    rw [List.mem_singleton.mp hp]
    exact ⟨[], .root rfl rfl rfl, .root⟩
  | @next s s' hs hstep ih =>
    have hwell := wellFormed_of_visited hs
    have hgrows := grows_of_step hwell hstep
    obtain ⟨id, node, rest, hfrontier, -, hexamined⟩ := step_running hstep
    obtain ⟨n, hn, -⟩ := hwell.front hfrontier
    obtain ⟨status, b, children, hwritten, hruled, hreopen⟩ := hexamined.written hn
    rw [hreopen] at hp
    rcases mem_reopen hp with hold | ⟨k, child, hchild, rfl⟩
    · obtain ⟨labels, hlineage, hdescends⟩ := ih (hfrontier ▸ List.mem_cons_of_mem _ hold)
      exact ⟨labels, hlineage.grow hgrows, hdescends⟩
    · -- A child continues the lineage of the node that was split.
      obtain ⟨labels, hlineage, hdescends⟩ := ih (hfrontier ▸ List.mem_cons_self)
      obtain ⟨own, lower, upper, hevaluate, hcomplete, hbranch, hside⟩ :=
        hruled.child (List.mem_of_getElem? hchild)
      have hlabel : (children.map Prod.fst)[k]? = some child.1 := by
        rw [List.getElem?_map, hchild]
        rfl
      have hnode : s'.nodes[s.nodes.size + k]? =
          some (.fresh (s.nodes.size + k) id (n.depth + 1) child.1) :=
        (hwritten.getElem?_iff hn).mpr (.inr (.inr ⟨k, child.1, rfl, hlabel, rfl⟩))
      refine ⟨labels ++ [child.1], ?_, hdescends.child hevaluate hcomplete hbranch hside⟩
      exact .child hnode rfl rfl (hlineage.grow hgrows)

/-- The open nodes of a search are nodes below its root. -/
theorem reachable_of_open {s : State α ν} (h : Visited scheme settings root s) {p : Nat × ν}
    (hp : p ∈ s.frontier) : scheme.Reachable root p.2 := by
  obtain ⟨labels, -, hdescends⟩ := descends_of_open h hp
  exact hdescends.reachable

/-- The labels above a node that was examined lead from the root to a
    subproblem that shows what the tree records, and whose split made the
    children of the node. -/
theorem descends_of_examined {s : State α ν} (h : Visited scheme settings root s) {i : Nat}
    {n : Node α} (hn : s.nodes[i]? = some n) (hexamined : n.status ≠ .created) :
    ∃ labels node evaluation, Lineage s.nodes i labels ∧ scheme.Descends root labels node ∧
      scheme.evaluate node = .ok evaluation ∧ n.outcome? = some evaluation ∧
      (n.status = .branched → ∃ b lower upper, evaluation = .bounded b ∧
        scheme.branch node b = .ok (lower, upper) ∧ HasChildren s.nodes i lower.1 upper.1) := by
  obtain ⟨t, t', node, m, b, children, hexamining, hsettled, hlater⟩ :=
    examining_of_examined h hn hexamined
  have hgrows := hexamining.grows.trans hlater
  obtain ⟨labels, hlineage, hdescends⟩ :=
    descends_of_open hexamining.visited hexamining.mem_frontier
  obtain ⟨evaluation, hevaluate, houtcome⟩ := hexamining.ruled.outcome m
  rw [← hsettled] at houtcome
  refine ⟨labels, node, evaluation, hlineage.grow hgrows, hdescends, hevaluate, houtcome, ?_⟩
  intro hbranched
  have hruled := hexamining.ruled
  rw [hbranched] at hruled hexamining
  obtain ⟨own, lower, upper, hown, hbranch, rfl⟩ := hruled.of_branched
  rw [hown, Except.ok.injEq] at hevaluate
  exact ⟨own, lower, upper, hevaluate.symm, hbranch,
    hexamining.hasChildren h hlater hn hbranched⟩

/-- All nodes of a tree, open or examined, are reached by their labels. -/
theorem descends_of_mem {s : State α ν} (h : Visited scheme settings root s) {i : Nat}
    {n : Node α} (hn : s.nodes[i]? = some n) :
    ∃ labels node, Lineage s.nodes i labels ∧ scheme.Descends root labels node := by
  by_cases hopen : n.status = .created
  · have hmem := ((wellFormed_of_visited h).mem_open i).mpr ⟨n, hn, hopen⟩
    obtain ⟨p, hp, rfl⟩ := List.mem_map.mp hmem
    obtain ⟨labels, hlineage, hdescends⟩ := descends_of_open h hp
    exact ⟨labels, p.2, hlineage, hdescends⟩
  · obtain ⟨labels, node, -, hlineage, hdescends, -⟩ := descends_of_examined h hn hopen
    exact ⟨labels, node, hlineage, hdescends⟩

/-- In the tree of an answer the labels on the path to an examined node lead to
    its subproblem, if no failure of the scheme itself brings a tree. -/
theorem descends_of_tree (hfailures : ∀ node failure, scheme.BreaksAt node failure →
      tree? (.error failure) = none) {steps : Nat} {answer : Except (Failure α) (SearchResult α)}
    {result : SearchResult α} (h : run steps scheme root settings = some answer)
    (htree : tree? answer = some result) {n : Node α} (hn : n ∈ result.nodes)
    (hexamined : n.status ≠ .created) :
    ∃ node evaluation, scheme.Descends root (result.labels n.id) node ∧
      (result.labels n.id).length = n.depth ∧ scheme.evaluate node = .ok evaluation ∧
      n.outcome? = some evaluation ∧
      (n.status = .branched → ∃ b lower upper, evaluation = .bounded b ∧
        scheme.branch node b = .ok (lower, upper) ∧
        HasChildren result.nodes n.id lower.1 upper.1) := by
  obtain ⟨s, status, hs, rfl⟩ := exists_state_of_tree hfailures h htree
  have hnodes : IsTree s.nodes := tree_of_visited hs
  obtain ⟨i, hi⟩ := Array.mem_iff_getElem?.mp hn
  obtain rfl : n.id = i := hnodes.number hi
  obtain ⟨labels, node, evaluation, hlineage, hdescends, hevaluate, houtcome, hchildren⟩ :=
    descends_of_examined hs hi hexamined
  have hlabels : (s.result scheme.names status).labels n.id = labels :=
    Lineage.labels_eq hnodes hlineage
  rw [hlabels]
  exact ⟨node, evaluation, hdescends, hlineage.length_eq hnodes hi, hevaluate, houtcome,
    hchildren⟩

end Search

end IntegerProgramming
