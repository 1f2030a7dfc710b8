import IntegerProgramming.Proofs.Search.Lineage

/-! # The order of exploration

    Open nodes are taken off the front of a list, and the traversal decides
    where the children of a node join it.

    Breadth-first they join at the end.  The open nodes are then in the order
    of their numbers, so the nodes are examined in that order, and no node is
    above one that was created before it (`State.Queued`).

    Depth-first they join in front, and all that is below a node comes before
    what was behind the node when it was taken (`below_first`).  Behind the
    next node there is at most one open node on every level (`Stacked`), which
    bounds the number of open nodes by the depth of the tree.

    Nothing is assumed about the scheme or the numbers. -/

namespace IntegerProgramming

variable {α ν : Type}

/-! ## Nodes below a node -/

/-- The second node is the first one or stands somewhere below it. -/
inductive Below (nodes : Array (Node α)) (top : Nat) : Nat → Prop where
  | self : Below nodes top top
  | child {i p : Nat} {n : Node α} (h : Below nodes top p) (hn : nodes[i]? = some n)
      (hparent : n.parent = some p) : Below nodes top i

namespace Below

variable {nodes : Array (Node α)} {top middle i : Nat}

theorem trans (h : Below nodes top middle) (h' : Below nodes middle i) : Below nodes top i := by
  induction h' with
  | self => exact h
  | child _ hn hparent ih => exact ih.child hn hparent

theorem exists_node (h : Below nodes top i) (htop : ∃ n, nodes[top]? = some n) :
    ∃ n, nodes[i]? = some n := by
  cases h with
  | self => exact htop
  | child _ hn _ => exact ⟨_, hn⟩

theorem grow {s t : Search.State α ν} (h : Below s.nodes top i) (hgrows : s.Grows t) :
    Below t.nodes top i := by
  induction h with
  | self => exact .self
  | child _ hn hparent ih =>
    obtain ⟨q, hq, -, hp, -⟩ := hgrows.place hn
    exact ih.child hq (hp.trans hparent)

/-- What is below a node in a later tree was there before, if it existed. -/
theorem of_grow {s t : Search.State α ν} (h : Below t.nodes top i) (hgrows : s.Grows t)
    (htree : IsTree t.nodes) (hi : i < s.nodes.size) : Below s.nodes top i := by
  induction h with
  | self => exact .self
  | @child i p n _ hn hparent ih =>
    have hlt := Lineage.lt_of_parent htree hn hparent
    obtain ⟨q, hq, -, hp, -⟩ := hgrows.place (Array.getElem?_eq_getElem hi)
    have hnq : n = q := Option.some.inj (hn.symm.trans hq)
    subst hnq
    exact (ih (hlt.trans hi)).child (Array.getElem?_eq_getElem hi) (hp.symm.trans hparent)

/-- Below an open node there is nothing else. -/
theorem eq_of_open (h : Below nodes top i) (htree : IsTree nodes) {n : Node α}
    (hn : nodes[top]? = some n) (hopen : n.status = .created) : i = top := by
  induction h with
  | self => rfl
  | child _ hq hparent ih =>
    rw [ih] at hparent
    exact absurd hparent (htree.parent_ne hn hopen hq)

end Below

namespace Search

/-! ## Taking nodes -/

namespace State

/-- The node is the next one to be examined. -/
def Takes (s : State α ν) (id : Nat) : Prop := ∃ node rest, s.frontier = (id, node) :: rest

/-- The node is open, and another one is examined before it. -/
def Waits (s : State α ν) (id : Nat) : Prop := id ∈ s.frontier.tail.map Prod.fst

/-- The node has been examined. -/
def HasExamined (s : State α ν) (id : Nat) : Prop :=
  ∃ n, s.nodes[id]? = some n ∧ n.status ≠ .created

theorem HasExamined.grow {s t : State α ν} {id : Nat} (h : s.HasExamined id) (hgrows : s.Grows t) :
    t.HasExamined id := by
  obtain ⟨n, hn, hexamined⟩ := h
  exact ⟨n, hgrows.examined hn hexamined, hexamined⟩

/-- An open node has not been examined. -/
theorem HasExamined.not_mem {s : State α ν} {id : Nat} (h : s.HasExamined id)
    (hwell : s.WellFormed) : id ∉ s.frontier.map Prod.fst := by
  intro hmem
  obtain ⟨n, hn, hexamined⟩ := h
  obtain ⟨q, hq, hopen⟩ := (hwell.mem_open id).mp hmem
  rw [hn, Option.some.injEq] at hq
  rw [hq] at hexamined
  exact hexamined hopen

theorem Takes.mem {s : State α ν} {id : Nat} (h : s.Takes id) : id ∈ s.frontier.map Prod.fst := by
  obtain ⟨node, rest, hfrontier⟩ := h
  rw [hfrontier]
  exact List.mem_cons_self

theorem Waits.mem {s : State α ν} {id : Nat} (h : s.Waits id) : id ∈ s.frontier.map Prod.fst := by
  obtain ⟨p, hp, rfl⟩ := List.mem_map.mp h
  exact List.mem_map_of_mem (List.mem_of_mem_tail hp)

theorem Takes.not_waits {s : State α ν} {id : Nat} (h : s.Takes id) (hwell : s.WellFormed) :
    ¬ s.Waits id := by
  obtain ⟨node, rest, hfrontier⟩ := h
  have hnodup := hwell.nodup
  unfold Waits
  rw [hfrontier, List.map_cons, List.nodup_cons] at hnodup
  rw [hfrontier]
  exact hnodup.1

end State

section turns

variable [Scalar α] {scheme : Scheme α ν} {settings : Settings α} {root : ν}

theorem Ruled.children_cases {i i' : Incumbent α} {id : Nat} {node : ν} {status : NodeStatus α}
    {b : Option (Bounded α)} {children : List (Branching α × ν)}
    (h : Ruled scheme settings i id node status b children i') :
    children = [] ∨ ∃ lower upper, children = [lower, upper] := by
  cases h with
  | split => exact .inr ⟨_, _, rfl⟩
  | _ => exact .inl rfl

/-- How a step changes the list of open nodes: the node in front is written
    down, and its two children join the others, if it has any. -/
theorem turn_of_step {s s' : State α ν} (hs : Visited scheme settings root s)
    (h : step scheme settings s = .running s') :
    ∃ id node rest n status b kids, s.frontier = (id, node) :: rest ∧ s.nodes[id]? = some n ∧
      Written s s' id rest n status b kids ∧
      (kids = [] ∧ s'.frontier = rest ∨ kids.length = 2 ∧ ∃ lower upper, s'.frontier =
        settings.traversal.extend rest (s.nodes.size, lower) (s.nodes.size + 1, upper)) := by
  obtain ⟨id, node, rest, hfrontier, -, hexamined⟩ := step_running h
  obtain ⟨n, hn, -⟩ := (wellFormed_of_visited hs).front hfrontier
  obtain ⟨status, b, children, hwritten, hruled, hreopen⟩ := hexamined.written hn
  refine ⟨id, node, rest, n, status, b, _, hfrontier, hn, hwritten, ?_⟩
  rw [hreopen]
  obtain rfl | ⟨lower, upper, rfl⟩ := hruled.children_cases
  · exact .inl ⟨rfl, rfl⟩
  · exact .inr ⟨rfl, lower.2, upper.2, rfl⟩

/-- A state is known by the number of nodes that have been examined. -/
theorem visited_unique {s t : State α ν} (hs : Visited scheme settings root s)
    (ht : Visited scheme settings root t) (h : s.explored = t.explored) : s = t := by
  have hadvance := advance_of_visited hs
  rw [h, advance_of_visited ht] at hadvance
  cases hadvance
  rfl

theorem grows_of_le {s t : State α ν} (hs : Visited scheme settings root s)
    (ht : Visited scheme settings root t) (h : s.explored ≤ t.explored) : s.Grows t := by
  obtain ⟨u, hu, hexplored, hgrows, -⟩ := visited_between ht h
  rw [visited_unique hs hu hexplored.symm]
  exact hgrows

/-- A node that is taken has been examined in all later states. -/
theorem examined_of_takes {s t : State α ν} (hs : Visited scheme settings root s)
    (ht : Visited scheme settings root t) {id : Nat} (htakes : s.Takes id)
    (h : s.explored < t.explored) : t.HasExamined id := by
  induction ht with
  | start => exact absurd h (Nat.not_lt_zero _)
  | @next t t' ht hstep ih =>
    have hone := step_explored hstep
    by_cases hlast : s.explored = t.explored
    · obtain rfl := visited_unique hs ht hlast
      obtain ⟨id', node, rest, n, status, b, kids, hfrontier, hn, hwritten, -⟩ :=
        turn_of_step ht hstep
      obtain ⟨node', rest', hfront⟩ := htakes
      rw [hfrontier] at hfront
      obtain rfl : id' = id := congrArg Prod.fst (List.cons.inj hfront).1
      refine ⟨n.settled status b, (hwritten.getElem?_iff hn).mpr (.inl ⟨rfl, rfl⟩), ?_⟩
      rw [Node.settled_status]
      exact hwritten.status_ne
    · have hexamined := ih (by omega)
      exact hexamined.grow (grows_of_step (wellFormed_of_visited ht) hstep)

/-- No node is taken twice. -/
theorem takes_unique {s t : State α ν} (hs : Visited scheme settings root s)
    (ht : Visited scheme settings root t) {id : Nat} (h : s.Takes id) (h' : t.Takes id) :
    s = t := by
  apply visited_unique hs ht
  rcases Nat.lt_trichotomy s.explored t.explored with hlt | heq | hgt
  · exact absurd h'.mem ((examined_of_takes hs ht h hlt).not_mem (wellFormed_of_visited ht))
  · exact heq
  · exact absurd h.mem ((examined_of_takes ht hs h' hgt).not_mem (wellFormed_of_visited hs))

end turns

/-! ## Breadth-first -/

section breadth

/-- The depths never decrease along the arena. -/
def ByLevel (nodes : Array (Node α)) : Prop :=
  ∀ (i j : Nat) (n q : Node α), nodes[i]? = some n → nodes[j]? = some q → i ≤ j →
    n.depth ≤ q.depth

/-- The open nodes are those with the highest numbers, in order, and the arena is
    sorted by depth. -/
structure State.Queued (s : State α ν) : Prop where
  order : s.frontier.map Prod.fst = List.range' s.explored (s.nodes.size - s.explored)
  sorted : ByLevel s.nodes
  /-- No node is more than one level below the next one. -/
  reach {j : Nat} {n q : Node α} (hn : s.nodes[s.explored]? = some n) (hq : s.nodes[j]? = some q) :
    q.depth ≤ n.depth + 1

theorem start_queued (sense : Sense) (root : ν) : (State.start sense root : State α ν).Queued := by
  have honly : ∀ (i : Nat) (n : Node α),
      (State.start sense root : State α ν).nodes[i]? = some n → n.depth = 0 := by
    intro i n hn
    have hmem : n ∈ #[_] := Array.mem_of_getElem? hn
    rw [Array.mem_singleton] at hmem
    rw [hmem]
  refine ⟨rfl, fun i j n q hn hq _ => ?_, fun hn hq => ?_⟩
  · rw [honly _ _ hn]
    exact Nat.zero_le _
  · rw [honly _ _ hq]
    exact Nat.zero_le _

/-- The next node is the one with the number of nodes examined before. -/
theorem State.Queued.takes_eq {s : State α ν} (h : s.Queued) {id : Nat} (htakes : s.Takes id) :
    id = s.explored := by
  obtain ⟨node, rest, hfrontier⟩ := htakes
  have horder := h.order
  rw [hfrontier] at horder
  cases hlength : s.nodes.size - s.explored with
  | zero => rw [hlength] at horder; cases horder
  | succ k =>
    rw [hlength, List.range'_succ] at horder
    exact (List.cons.inj horder).1

/-- The nodes that have been examined are the first ones. -/
theorem State.Queued.examined_iff {s : State α ν} (h : s.Queued) (hwell : s.WellFormed) (i : Nat) :
    s.HasExamined i ↔ i < s.explored := by
  have hsize : s.explored ≤ s.nodes.size := by
    have hcount : s.explored = s.nodes.countP fun n => !n.status.isCreated :=
      (hwell.result [] .error).explored
    rw [hcount]
    exact Array.countP_le_size
  have hopen := hwell.mem_open i
  rw [h.order, List.mem_range'_1] at hopen
  constructor
  · rintro ⟨n, hn, hexamined⟩
    have hi : i < s.nodes.size := (Array.getElem?_eq_some_iff.mp hn).1
    by_contra hge
    obtain ⟨q, hq, hcreated⟩ := hopen.mp ⟨not_lt.mp hge, by omega⟩
    rw [hn, Option.some.injEq] at hq
    rw [hq] at hexamined
    exact hexamined hcreated
  · intro hi
    have hn := Array.getElem?_eq_getElem (hi.trans_le hsize)
    refine ⟨_, hn, fun hcreated => ?_⟩
    have hle := (hopen.mpr ⟨_, hn, hcreated⟩).1
    omega

variable [Scalar α] {scheme : Scheme α ν} {settings : Settings α} {root : ν}

/-- An entry of the arena after a step is an old one at its depth, or a child. -/
theorem Written.depth_cases {s s' : State α ν} {id : Nat} {rest : List (Nat × ν)} {n : Node α}
    {status : NodeStatus α} {b : Option (Bounded α)} {kids : List (Branching α)}
    (hw : Written s s' id rest n status b kids) (hn : s.nodes[id]? = some n) {i : Nat} {q : Node α}
    (hq : s'.nodes[i]? = some q) :
    (∃ r, s.nodes[i]? = some r ∧ q.depth = r.depth) ∨
      s.nodes.size ≤ i ∧ q.depth = n.depth + 1 := by
  rcases (hw.getElem?_iff hn).mp hq with ⟨rfl, rfl⟩ | ⟨-, hold⟩ | ⟨k, label, rfl, -, rfl⟩
  · exact .inl ⟨n, hn, Node.settled_depth _ _ _⟩
  · exact .inl ⟨q, hold, rfl⟩
  · exact .inr ⟨Nat.le_add_right _ _, rfl⟩

theorem queued_step (hbreadth : settings.traversal = .breadthFirst) {s s' : State α ν}
    (hs : Visited scheme settings root s) (hqueued : s.Queued)
    (h : step scheme settings s = .running s') : s'.Queued := by
  obtain ⟨id, node, rest, n, status, b, kids, hfrontier, hn, hwritten, hjoin⟩ :=
    turn_of_step hs h
  have hid : id < s.nodes.size := (Array.getElem?_eq_some_iff.mp hn).1
  have hsize : s'.nodes.size = s.nodes.size + kids.length := by
    rw [hwritten.nodes, size_grown]
  -- The node in front is the first one of the queue.
  have horder := hqueued.order
  obtain ⟨k, hk⟩ : ∃ k, s.nodes.size - s.explored = k + 1 := by
    cases hlength : s.nodes.size - s.explored with
    | zero => rw [hfrontier, hlength] at horder; cases horder
    | succ k => exact ⟨k, rfl⟩
  rw [hfrontier, hk, List.range'_succ, List.map_cons] at horder
  obtain ⟨hfront, hrest⟩ := List.cons.inj horder
  have hfront : id = s.explored := hfront
  have hdepths : ∀ {i : Nat} {q : Node α}, s'.nodes[i]? = some q → q.depth ≤ n.depth + 1 := by
    intro i q hq
    rcases hwritten.depth_cases hn hq with ⟨r, hr, hdepth⟩ | ⟨-, hdepth⟩
    · rw [hdepth]
      exact hqueued.reach (hfront ▸ hn) hr
    · exact hdepth.le
  have hlater : ∀ {i : Nat} {q : Node α}, s'.nodes[i]? = some q → id ≤ i → n.depth ≤ q.depth := by
    intro i q hq hi
    rcases hwritten.depth_cases hn hq with ⟨r, hr, hdepth⟩ | ⟨-, hdepth⟩
    · rw [hdepth]
      exact hqueued.sorted _ _ _ _ hn hr hi
    · omega
  refine ⟨?_, fun i j p q hp hq hij => ?_, fun {j p q} hp hq => ?_⟩
  · have hjoined : s'.frontier.map Prod.fst =
        rest.map Prod.fst ++ List.range' s.nodes.size kids.length := by
      rcases hjoin with ⟨rfl, hsame⟩ | ⟨hlength, lower, upper, hboth⟩
      · rw [hsame]
        exact (List.append_nil _).symm
      · rw [hboth, hbreadth, hlength]
        exact List.map_append
    have hnext : s.nodes.size = s.explored + 1 + 1 * k := by omega
    rw [hjoined, hrest, hwritten.explored, hsize, hnext, List.range'_append]
    congr 1
    omega
  · rcases hwritten.depth_cases hn hq with ⟨r, hr, hdepth⟩ | ⟨-, hdepth⟩
    · -- Both are old: a child has a higher number.
      have hj : j < s.nodes.size := (Array.getElem?_eq_some_iff.mp hr).1
      rcases hwritten.depth_cases hn hp with ⟨r', hr', hdepth'⟩ | ⟨hge, -⟩
      · rw [hdepth, hdepth']
        exact hqueued.sorted _ _ _ _ hr' hr hij
      · omega
    · rw [hdepth]
      exact hdepths hp
  · have hbefore := hlater hp (by rw [hwritten.explored, hfront]; exact Nat.le_succ _)
    have hbound := hdepths hq
    omega

theorem queued_of_visited (hbreadth : settings.traversal = .breadthFirst) {s : State α ν}
    (h : Visited scheme settings root s) : s.Queued := by
  induction h with
  | start => exact start_queued scheme.sense root
  | next hs hstep ih => exact queued_step hbreadth hs ih hstep

end breadth

/-! ## Depth-first -/

section subtrees

/-- All that is below the node has been examined. -/
def State.Finished (s : State α ν) (top : Nat) : Prop :=
  ∀ i, Below s.nodes top i → s.HasExamined i

/-- Nothing that waits is below the node that is taken. -/
theorem not_below_of_waits {s : State α ν} (hwell : s.WellFormed) (htree : IsTree s.nodes)
    {top i : Nat} (htakes : s.Takes top) (hwaits : s.Waits i) : ¬ Below s.nodes top i := by
  intro hbelow
  obtain ⟨n, hn, hopen⟩ := (hwell.mem_open top).mp htakes.mem
  rw [hbelow.eq_of_open htree hn hopen] at hwaits
  exact htakes.not_waits hwell hwaits

/-- With only nodes open that are not below the node, it is finished. -/
theorem finished_of_frontier {s : State α ν} (hwell : s.WellFormed) {top : Nat}
    (htop : ∃ n, s.nodes[top]? = some n)
    (hopen : ∀ p ∈ s.frontier, ¬ Below s.nodes top p.1) : s.Finished top := by
  intro i hi
  obtain ⟨n, hn⟩ := hi.exists_node htop
  refine ⟨n, hn, fun hcreated => ?_⟩
  obtain ⟨p, hp, rfl⟩ := List.mem_map.mp ((hwell.mem_open i).mpr ⟨n, hn, hcreated⟩)
  exact hopen p hp hi

variable [Scalar α] {scheme : Scheme α ν} {settings : Settings α} {root : ν}

/-- A node that has been examined gets no more children. -/
theorem child_lt_size {s t : State α ν} (hs : Visited scheme settings root s)
    (ht : Visited scheme settings root t) (hgrows : s.Grows t) {p i : Nat} {n : Node α}
    (hp : s.HasExamined p) (hn : t.nodes[i]? = some n) (hparent : n.parent = some p) :
    i < s.nodes.size := by
  have htree := tree_of_visited ht
  obtain ⟨q, hq, hexamined⟩ := hp
  have hqt := hgrows.examined hq hexamined
  have hi : i ≠ 0 := by
    intro hzero
    subst hzero
    have hlt := Lineage.lt_of_parent htree hn hparent
    omega
  obtain ⟨p', q', hp', -, hq', hbranched, -⟩ := htree.parent hn hi
  obtain rfl : p = p' := Option.some.inj (hparent.symm.trans hp')
  obtain rfl : q = q' := Option.some.inj (hqt.symm.trans hq')
  -- Its two children are in the earlier tree, and the later one has no others.
  obtain ⟨k, hk, hiff⟩ := (tree_of_visited hs).children hq hbranched
  obtain ⟨l, -, hiff'⟩ := htree.children hqt hbranched
  have hchild : ∀ c, c = k ∨ c = k + 1 → c = l ∨ c = l + 1 := by
    intro c hc
    have hsize : c < s.nodes.size := by omega
    have hc' := (hiff c _ (Array.getElem?_eq_getElem hsize)).mpr hc
    obtain ⟨r, hr, -, hsame, -⟩ := hgrows.place (Array.getElem?_eq_getElem hsize)
    exact (hiff' c r hr).mp (hsame.trans hc')
  have hlow := hchild k (.inl rfl)
  have hhigh := hchild (k + 1) (.inr rfl)
  have hown := (hiff' i n hn).mp hparent
  omega

/-- Below a node that is finished no tree of the search has anything that has
    not been examined yet. -/
theorem State.Finished.covers {s t : State α ν} (hs : Visited scheme settings root s)
    (ht : Visited scheme settings root t) {top : Nat} (h : s.Finished top) {i : Nat}
    (hi : Below t.nodes top i) : s.HasExamined i := by
  by_cases hle : t.explored ≤ s.explored
  · exact h i (hi.grow (grows_of_le ht hs hle))
  · have hgrows := grows_of_le hs ht (by omega)
    -- By induction on the way down: an examined node has its children already.
    induction hi with
    | self => exact h top .self
    | child hbelow hn hparent ih =>
      have hsize := child_lt_size hs ht hgrows ih hn hparent
      exact h _ ((hbelow.child hn hparent).of_grow hgrows (tree_of_visited ht) hsize)

/-- The stages of a search from the moment on when it takes a node: it works
    below the node, in front of what was behind it, until all of this has been
    examined. -/
inductive Stage (rest : List (Nat × ν)) (top : Nat) (s : State α ν) : Prop where
  | working (front : List (Nat × ν)) (hne : front ≠ []) (hfrontier : s.frontier = front ++ rest)
      (hbelow : ∀ p ∈ front, Below s.nodes top p.1) : Stage rest top s
  | finished (h : s.Finished top) : Stage rest top s

theorem stage_step (hdepth : settings.traversal = .depthFirst) {s s' : State α ν}
    (hs : Visited scheme settings root s) (h : step scheme settings s = .running s')
    {rest : List (Nat × ν)} {top : Nat} (htop : ∃ n, s.nodes[top]? = some n)
    (hrest : ∀ p ∈ rest, ¬ Below s'.nodes top p.1) (hstage : Stage rest top s) :
    Stage rest top s' := by
  have hgrows := grows_of_step (wellFormed_of_visited hs) h
  have hs' := hs.next h
  cases hstage with
  | finished hfinished =>
    exact .finished fun i hi => (hfinished.covers hs hs' hi).grow hgrows
  | working front hne hfrontier hbelow =>
    obtain ⟨⟨id, node⟩, front, rfl⟩ := List.exists_cons_of_ne_nil hne
    obtain ⟨id', node', behind, n, status, b, kids, hfront, hn, hwritten, hjoin⟩ :=
      turn_of_step hs h
    rw [hfrontier] at hfront
    obtain ⟨hid, rfl⟩ := List.cons.inj hfront
    obtain ⟨rfl, rfl⟩ := Prod.mk.inj hid
    have hold : ∀ p ∈ front, Below s'.nodes top p.1 :=
      fun p hp => (hbelow p (List.mem_cons_of_mem _ hp)).grow hgrows
    rcases hjoin with ⟨-, hsame⟩ | ⟨hlength, lower, upper, hboth⟩
    · by_cases hlast : front = []
      · subst hlast
        refine .finished (finished_of_frontier (wellFormed_of_visited hs') ?_ ?_)
        · obtain ⟨q, hq⟩ := htop
          obtain ⟨r, hr, -⟩ := hgrows.place hq
          exact ⟨r, hr⟩
        · rw [hsame]
          exact hrest
      · exact .working front hlast hsame hold
    · -- The children stand below the node that was taken.
      have hchild : ∀ k, k < 2 → Below s'.nodes top (s.nodes.size + k) := by
        intro k hk
        have hlabel := List.getElem?_eq_getElem (hlength ▸ hk)
        have hparent := (hbelow _ List.mem_cons_self).grow hgrows
        exact hparent.child
          ((hwritten.getElem?_iff hn).mpr (.inr (.inr ⟨k, _, rfl, hlabel, rfl⟩))) rfl
      refine .working ((s.nodes.size, lower) :: (s.nodes.size + 1, upper) :: front) nofun ?_ ?_
      · rw [hboth, hdepth]
        rfl
      · intro p hp
        rw [List.mem_cons, List.mem_cons] at hp
        rcases hp with rfl | rfl | hp
        · exact hchild 0 (by omega)
        · exact hchild 1 (by omega)
        · exact hold p hp

theorem stage_of_visited (hdepth : settings.traversal = .depthFirst) {s t : State α ν}
    (hs : Visited scheme settings root s) {top : Nat} {node : ν} {rest : List (Nat × ν)}
    (hfrontier : s.frontier = (top, node) :: rest) (ht : Visited scheme settings root t)
    (hle : s.explored ≤ t.explored) : Stage rest top t := by
  have hwell := wellFormed_of_visited hs
  have htakes : s.Takes top := ⟨node, rest, hfrontier⟩
  obtain ⟨n, hn, -⟩ := hwell.front hfrontier
  have hfirst : Stage rest top s := by
    refine .working [(top, node)] nofun hfrontier fun p hp => ?_
    rw [List.mem_singleton.mp hp]
    exact .self
  induction ht with
  | start =>
    have hzero : s.explored = 0 := Nat.le_zero.mp hle
    rw [← visited_unique hs .start hzero]
    exact hfirst
  | @next t t' ht hstep ih =>
    by_cases hlast : s.explored = t'.explored
    · rw [← visited_unique hs (ht.next hstep) hlast]
      exact hfirst
    · have hone := step_explored hstep
      have hbefore : s.explored ≤ t.explored := by omega
      obtain ⟨q, hq, -⟩ := (grows_of_le hs ht hbefore).place hn
      refine stage_step hdepth ht hstep ⟨q, hq⟩ (fun p hp hbelow => ?_) (ih hbefore)
      -- What waited was not below the node then, so it is not now.
      have hwaits : s.Waits p.1 := by
        show p.1 ∈ s.frontier.tail.map Prod.fst
        rw [hfrontier]
        exact List.mem_map_of_mem hp
      obtain ⟨r, hr, -⟩ := (hwell.mem_open p.1).mp hwaits.mem
      have hsize : p.1 < s.nodes.size := (Array.getElem?_eq_some_iff.mp hr).1
      have hnext := ht.next hstep
      exact not_below_of_waits hwell (tree_of_visited hs) htakes hwaits
        (hbelow.of_grow (grows_of_le hs hnext hle) (tree_of_visited hnext) hsize)

/-- A node that waits is taken later. -/
theorem explored_lt_of_waits {s t : State α ν} (hs : Visited scheme settings root s)
    (ht : Visited scheme settings root t) {i : Nat} (hwaits : s.Waits i) (htakes : t.Takes i) :
    s.explored < t.explored := by
  have hwell := wellFormed_of_visited hs
  rcases Nat.lt_trichotomy s.explored t.explored with hlt | heq | hgt
  · exact hlt
  · rw [← visited_unique hs ht heq] at htakes
    exact absurd hwaits (htakes.not_waits hwell)
  · have hexamined := examined_of_takes ht hs htakes hgt
    exact absurd hwaits.mem (hexamined.not_mem hwell)

/-- Depth-first, what waits when a node is taken is taken only after all that
    is ever below the node has been examined. -/
theorem below_first (hdepth : settings.traversal = .depthFirst) {s t : State α ν}
    (hs : Visited scheme settings root s) (ht : Visited scheme settings root t) {top i : Nat}
    (htop : s.Takes top) (hwaits : s.Waits i) (htakes : t.Takes i) : t.Finished top := by
  have hlt := explored_lt_of_waits hs ht hwaits htakes
  obtain ⟨node, rest, hfrontier⟩ := htop
  have hbehind : i ∈ rest.map Prod.fst := by
    unfold State.Waits at hwaits
    rw [hfrontier] at hwaits
    exact hwaits
  cases stage_of_visited hdepth hs hfrontier ht hlt.le with
  | finished h => exact h
  | working front hne hfront _ =>
    -- The node would be in front and behind it at once.
    obtain ⟨p, front, rfl⟩ := List.exists_cons_of_ne_nil hne
    have hnot := htakes.not_waits (wellFormed_of_visited ht)
    refine absurd ?_ hnot
    show i ∈ t.frontier.tail.map Prod.fst
    rw [hfront, List.cons_append, List.tail_cons, List.map_append]
    exact List.mem_append_right _ hbehind

end subtrees

/-! ## The open nodes of a depth-first search -/

section stack

/-- Depths of open nodes: those behind the first one are on different levels
    below the root, the deepest one first, and none is deeper than the first. -/
def Stacked : List Nat → Prop
  | [] => True
  | d :: ds => (∀ e ∈ ds, 1 ≤ e ∧ e ≤ d) ∧ ds.Pairwise (· > ·)

theorem Stacked.tail {d : Nat} {ds : List Nat} (h : Stacked (d :: ds)) : Stacked ds := by
  cases ds with
  | nil => trivial
  | cons e es =>
    obtain ⟨hfirst, hrest⟩ := List.pairwise_cons.mp h.2
    refine ⟨fun f hf => ⟨(h.1 f (List.mem_cons_of_mem _ hf)).1, ?_⟩, hrest⟩
    exact Nat.le_of_lt (hfirst f hf)

/-- A node that is split makes room for two children, one level deeper. -/
theorem Stacked.split {d : Nat} {ds : List Nat} (h : Stacked (d :: ds)) :
    Stacked ((d + 1) :: (d + 1) :: ds) := by
  refine ⟨fun e he => ?_, List.pairwise_cons.mpr ⟨fun e he => ?_, h.2⟩⟩
  · rcases List.mem_cons.mp he with rfl | he
    · exact ⟨Nat.succ_pos d, le_rfl⟩
    · exact ⟨(h.1 e he).1, Nat.le_succ_of_le (h.1 e he).2⟩
  · exact Nat.lt_succ_of_le (h.1 e he).2

theorem Stacked.length_le {ds : List Nat} (h : Stacked ds) {bound : Nat}
    (hbound : ∀ d ∈ ds, d ≤ bound) : ds.length ≤ bound + 1 := by
  cases ds with
  | nil => exact Nat.zero_le _
  | cons d ds =>
    have hnodup : ds.Nodup := h.2.imp fun hgt => Nat.ne_of_gt hgt
    have hsubset : ds.toFinset ⊆ Finset.Icc 1 bound := by
      intro e he
      have hmem := List.mem_toFinset.mp he
      exact Finset.mem_Icc.mpr ⟨(h.1 e hmem).1, hbound e (List.mem_cons_of_mem _ hmem)⟩
    have hcard := Finset.card_le_card hsubset
    rw [List.toFinset_card_of_nodup hnodup, Nat.card_Icc, Nat.add_sub_cancel] at hcard
    exact Nat.succ_le_succ hcard

variable [Scalar α] {scheme : Scheme α ν} {settings : Settings α} {root : ν}

theorem stacked_of_visited (hdepth : settings.traversal = .depthFirst) {s : State α ν}
    (h : Visited scheme settings root s) : Stacked (s.frontier.map fun p => s.depthOf p.1) := by
  induction h with
  | start => exact ⟨nofun, .nil⟩
  | @next s s' hs hstep ih =>
    have hwell := wellFormed_of_visited hs
    obtain ⟨id, node, rest, n, status, b, kids, hfrontier, hn, hwritten, hjoin⟩ :=
      turn_of_step hs hstep
    have hkept : ∀ p ∈ rest, s'.depthOf p.1 = s.depthOf p.1 := by
      intro p hp
      have hmem : p.1 ∈ s.frontier.map Prod.fst := by
        rw [hfrontier]
        exact List.mem_map_of_mem (List.mem_cons_of_mem _ hp)
      obtain ⟨q, hq, -⟩ := (hwell.mem_open p.1).mp hmem
      obtain ⟨r, hr, -, -, hsame, -⟩ := (grows_of_step hwell hstep).place hq
      rw [s'.depthOf_eq _ hr, s.depthOf_eq _ hq, hsame]
    have hrest : (rest.map fun p => s'.depthOf p.1) = rest.map fun p => s.depthOf p.1 :=
      List.map_congr_left hkept
    rw [hfrontier, List.map_cons] at ih
    rcases hjoin with ⟨-, hsame⟩ | ⟨hlength, lower, upper, hboth⟩
    · rw [hsame, hrest]
      exact ih.tail
    · have hchild : ∀ k, k < 2 → s'.depthOf (s.nodes.size + k) = s.depthOf id + 1 := by
        intro k hk
        have hlabel := List.getElem?_eq_getElem (hlength ▸ hk)
        rw [s.depthOf_eq _ hn, s'.depthOf_eq _
          ((hwritten.getElem?_iff hn).mpr (.inr (.inr ⟨k, _, rfl, hlabel, rfl⟩)))]
        rfl
      have hnew : (s'.frontier.map fun p => s'.depthOf p.1) =
          (s.depthOf id + 1) :: (s.depthOf id + 1) :: rest.map fun p => s.depthOf p.1 := by
        have hlow : s'.depthOf s.nodes.size = s.depthOf id + 1 := hchild 0 (by omega)
        have hhigh : s'.depthOf (s.nodes.size + 1) = s.depthOf id + 1 := hchild 1 (by omega)
        rw [hboth, hdepth]
        show s'.depthOf s.nodes.size :: s'.depthOf (s.nodes.size + 1) ::
          rest.map (fun p => s'.depthOf p.1) = _
        rw [hlow, hhigh, hrest]
      rw [hnew]
      exact ih.split

end stack

/-! ## The law of exploration -/

section law

variable [Scalar α]

/-- The two children of a node that was split have the numbers from `k` on, in
    the order in which the scheme names them for the node. -/
structure Children (scheme : Scheme α ν) (settings : Settings α) (root : ν)
    (nodes : Array (Node α)) (p k : Nat) : Prop where
  named : ∃ t node own lower upper, Visited scheme settings root t ∧ (p, node) ∈ t.frontier ∧
    scheme.evaluate node = .ok (.bounded own) ∧ scheme.branch node own = .ok (lower, upper) ∧
    nodes[k]?.bind (·.branching) = some lower.1 ∧ nodes[k + 1]?.bind (·.branching) = some upper.1
  only : ∀ c q, nodes[c]? = some q → (q.parent = some p ↔ c = k ∨ c = k + 1)

/-- All that is below the node in any tree of the search has been examined. -/
def Exhausts (scheme : Scheme α ν) (settings : Settings α) (root : ν) (s : State α ν)
    (top : Nat) : Prop :=
  ∀ t, Visited scheme settings root t → ∀ i, Below t.nodes top i → s.HasExamined i

variable {scheme : Scheme α ν} {settings : Settings α} {root : ν}

/-- No search examines more nodes than its limit allows. -/
theorem explored_le_limit {limit : Nat} (hlimit : settings.nodeLimit = some limit)
    {s : State α ν} (h : Visited scheme settings root s) : s.explored ≤ limit := by
  cases h with
  | start => exact Nat.zero_le _
  | @next s s' hs hstep =>
    obtain ⟨-, -, -, -, hbelow, -⟩ := step_running hstep
    have hnone : (some limit).filter (· ≤ s.explored) = none := hlimit ▸ hbelow
    rw [step_explored hstep]
    simpa using hnone

/-- Depth-first, the first child of a node comes before the second one with all
    that is below it, and both do before what waited when the node was taken. -/
theorem subtrees_in_order (hdepth : settings.traversal = .depthFirst) {s : State α ν}
    (hs : Visited scheme settings root s) {p : Nat} {n : Node α} (hn : s.nodes[p]? = some n)
    (hbranched : n.status = .branched) :
    ∃ k, Children scheme settings root s.nodes p k ∧
      (∀ u, Visited scheme settings root u → u.Takes (k + 1) →
        Exhausts scheme settings root u k) ∧
      ∀ t u i, Visited scheme settings root t → t.Takes p → t.Waits i →
        Visited scheme settings root u → u.Takes i →
          Exhausts scheme settings root u k ∧ Exhausts scheme settings root u (k + 1) := by
  have hexamined : n.status ≠ .created := by
    rw [hbranched]
    exact nofun
  obtain ⟨t, t', node, m, b, children, hexamining, -, hlater⟩ :=
    examining_of_examined hs hn hexamined
  have hruled := hexamining.ruled
  rw [hbranched] at hruled hexamining
  obtain ⟨own, lower, upper, hown, hbranch, rfl⟩ := hruled.of_branched
  have ht := hexamining.visited
  have ht' := ht.next hexamining.next
  obtain ⟨rest, hfrontier, hjoined⟩ := hexamining.front
  rw [hdepth] at hjoined
  -- In the step that splits the node, its children get the next two numbers.
  have hchild : ∀ k label, [lower.1, upper.1][k]? = some label →
      t'.nodes[t.nodes.size + k]? =
        some (.fresh (t.nodes.size + k) p (m.depth + 1) label) := by
    intro k label hlabel
    rw [hexamining.after]
    exact (getElem?_grown hexamining.before).mpr (.inr (.inr ⟨k, label, rfl, hlabel, rfl⟩))
  obtain ⟨low, hlow, -, hlowparent, -, hlowlabel⟩ := hlater.place (hchild 0 lower.1 rfl)
  obtain ⟨high, hhigh, -, hhighparent, -, hhighlabel⟩ := hlater.place (hchild 1 upper.1 rfl)
  obtain ⟨k, -, honly⟩ := (tree_of_visited hs).children hn hbranched
  have hfirst := (honly _ low hlow).mp hlowparent
  have hsecond := (honly _ high hhigh).mp hhighparent
  obtain rfl : t.nodes.size = k := by omega
  have hopen := hexamining.mem_frontier
  refine ⟨t.nodes.size,
    ⟨⟨t, node, own, lower, upper, ht, hopen, hown, hbranch, ?_, ?_⟩, honly⟩,
    fun u hu htakes => ?_, fun v u i hv hparent hwaits hu htakes => ?_⟩
  · show s.nodes[t.nodes.size + 0]?.bind (·.branching) = some lower.1
    rw [hlow]
    exact hlowlabel
  · rw [hhigh]
    exact hhighlabel
  · -- The first child is in front of the second one.
    have hfinished : u.Finished t.nodes.size := by
      refine below_first hdepth ht' hu ⟨lower.2, _, hjoined⟩ ?_ htakes
      show t.nodes.size + 1 ∈ t'.frontier.tail.map Prod.fst
      rw [hjoined]
      exact List.mem_cons_self
    exact fun w hw i hi => hfinished.covers hu hw hi
  · obtain rfl := takes_unique hv ht hparent ⟨node, rest, hfrontier⟩
    have hfinished := below_first hdepth ht hu hparent hwaits htakes
    have hlt := explored_lt_of_waits ht hu hwaits htakes
    have hone := step_explored hexamining.next
    have hgrows := grows_of_le ht' hu (by omega)
    have hbelow : ∀ k label, [lower.1, upper.1][k]? = some label →
        u.Finished (v.nodes.size + k) := by
      intro k label hlabel j hj
      obtain ⟨q, hq, -, hqparent, -⟩ := hgrows.place (hchild k label hlabel)
      exact hfinished j ((Below.self.child hq hqparent).trans hj)
    exact ⟨fun w hw j hj => (hbelow 0 lower.1 rfl).covers hu hw hj,
      fun w hw j hj => (hbelow 1 upper.1 rfl).covers hu hw hj⟩

/-- Whatever the scheme answers: breadth-first, nodes are examined in the order
    of their numbers, the arena is sorted by depth, and a search that is stopped
    by its limit, and not by a failure of the scheme, has examined exactly the
    nodes with the numbers below it.
    Depth-first, subtrees are examined one after the other, and the open nodes
    are no more than the depth of the tree and one. -/
theorem exploration_order (scheme : Scheme α ν) (settings : Settings α) (root : ν) :
    (settings.traversal = .breadthFirst →
      (∀ s, Visited scheme settings root s →
        ByLevel s.nodes ∧ ∀ i, s.Takes i → i = s.explored) ∧
      (∀ steps result, run steps scheme root settings = some (.ok result) →
        ByLevel result.nodes) ∧
      ∀ steps limit explored cut,
        run steps scheme root settings = some (.error (.nodeLimit limit explored cut)) →
          (ByLevel cut.nodes ∧ explored = limit ∧
            ∀ i, (∃ n, cut.nodes[i]? = some n ∧ n.status ≠ .created) ↔ i < limit) ∨
          EndsInScheme scheme settings root (.nodeLimit limit explored cut)) ∧
    (settings.traversal = .depthFirst →
      (∀ s, Visited scheme settings root s → s.frontier.length ≤ s.maxDepth + 1) ∧
      ∀ s p n, Visited scheme settings root s → s.nodes[p]? = some n → n.status = .branched →
        ∃ k, Children scheme settings root s.nodes p k ∧
          (∀ u, Visited scheme settings root u → u.Takes (k + 1) →
            Exhausts scheme settings root u k) ∧
          ∀ t u i, Visited scheme settings root t → t.Takes p → t.Waits i →
            Visited scheme settings root u → u.Takes i →
              Exhausts scheme settings root u k ∧ Exhausts scheme settings root u (k + 1)) := by
  refine ⟨fun hbreadth => ⟨fun s hs => ?_, fun steps result h => ?_,
    fun steps limit explored cut h => ?_⟩, fun hdepth => ⟨fun s hs => ?_,
    fun s p n hs hn hbranched => subtrees_in_order hdepth hs hn hbranched⟩⟩
  · have hqueued := queued_of_visited hbreadth hs
    exact ⟨hqueued.sorted, fun i htakes => hqueued.takes_eq htakes⟩
  · obtain ⟨s, hs, -, rfl⟩ := run_ok h
    exact (queued_of_visited hbreadth hs).sorted
  · rcases run_failed h with ⟨s, limit', hs, hreached, hfailure⟩ | hends
    · cases hfailure
      have hqueued := queued_of_visited hbreadth hs
      obtain ⟨hlimit, hle⟩ := Option.filter_eq_some_iff.mp hreached
      have hbound := explored_le_limit hlimit hs
      have hexplored : s.explored = limit := by
        have hge : limit ≤ s.explored := of_decide_eq_true hle
        omega
      refine .inl ⟨hqueued.sorted, hexplored, fun i => ?_⟩
      rw [← hexplored]
      exact hqueued.examined_iff (wellFormed_of_visited hs) i
    · exact .inr hends
  · have hstacked := stacked_of_visited hdepth hs
    have hresult := (wellFormed_of_visited hs).result scheme.names .error
    rw [← List.length_map (f := fun p => s.depthOf p.1)]
    refine hstacked.length_le fun d hd => ?_
    obtain ⟨p, hp, rfl⟩ := List.mem_map.mp hd
    obtain ⟨q, hq, -⟩ := ((wellFormed_of_visited hs).mem_open p.1).mp (List.mem_map_of_mem hp)
    rw [s.depthOf_eq _ hq]
    exact hresult.depth_le q (Array.mem_of_getElem? hq)

end law

/-- Breadth-first, a search that stops after two nodes has examined the first
    two.  Depth-first, the second child of the root is taken after four steps,
    when all that is below the first one has been examined. -/
theorem halving_explored :
    (∃ cut : SearchResult Exact,
      run 20 halving (0, 3) { tolerance := .rational 0, nodeLimit := some 2 } =
          some (.error (.nodeLimit 2 2 cut)) ∧
        ∀ i, (∃ n, cut.nodes[i]? = some n ∧ n.status ≠ .created) ↔ i < 2) ∧
    ∃ s : State Exact (ℕ × ℕ),
      advance halving { tolerance := .rational 0, traversal := .depthFirst } 4
          (.start .maximize (0, 3)) = .running s ∧
        s.Takes 2 ∧ s.Finished 1 ∧ s.frontier.length ≤ s.maxDepth + 1 := by
  constructor
  · have hstops : (run 20 halving (0, 3) { tolerance := .rational 0, nodeLimit := some 2 }).map
        (·.isOk) = some false := by
      decide +kernel
    cases hcut : run 20 halving (0, 3) { tolerance := .rational 0, nodeLimit := some 2 } with
    | none => rw [hcut] at hstops; cases hstops
    | some answer =>
      rw [hcut] at hstops
      cases answer with
      | ok _ => cases hstops
      | error failure =>
        rcases run_failed hcut with ⟨s, limit, -, hreached, rfl⟩ | hends
        · obtain ⟨hlimit, -⟩ := Option.filter_eq_some_iff.mp hreached
          obtain rfl : 2 = limit := Option.some.inj hlimit
          have horder := (exploration_order halving
            { tolerance := .rational 0, nodeLimit := some 2 } (0, 3)).1 rfl
          obtain ⟨-, htwo, hexamined⟩ :=
            (horder.2.2 _ _ _ _ hcut).resolve_right (halving_not_endsInScheme _ _ _)
          rw [htwo]
          exact ⟨_, rfl, hexamined⟩
        · exact absurd hends (halving_not_endsInScheme _ _ _)
  · have hrun : (match advance halving { tolerance := .rational 0, traversal := .depthFirst } 4
        (.start .maximize (0, 3)) with
      | .running s => decide (s.frontier = [(2, (2, 3))] ∧
          s.nodes[0]?.map (·.status) = some .branched ∧
          s.nodes[1]?.map (·.parent) = some (some 0) ∧
          s.nodes[2]?.map (·.parent) = some (some 0))
      | .ended _ => false) = true := by
      decide +kernel
    cases hadvance : advance halving { tolerance := .rational 0, traversal := .depthFirst } 4
        (.start .maximize (0, 3)) with
    | ended r => rw [hadvance] at hrun; cases hrun
    | running s =>
      rw [hadvance] at hrun
      obtain ⟨hfrontier, hroot, hlow, hhigh⟩ := of_decide_eq_true hrun
      obtain ⟨n, hn, hbranched⟩ := Option.map_eq_some_iff.mp hroot
      obtain ⟨low, hlow, hlowparent⟩ := Option.map_eq_some_iff.mp hlow
      obtain ⟨high, hhigh, hhighparent⟩ := Option.map_eq_some_iff.mp hhigh
      have hs := (visited_of_advance .start hadvance).1
      have htakes : s.Takes 2 := ⟨_, _, hfrontier⟩
      obtain ⟨hlength, hlaw⟩ := (exploration_order halving
        { tolerance := .rational 0, traversal := .depthFirst } (0, 3)).2 rfl
      obtain ⟨k, hchildren, hfirst, -⟩ := hlaw s 0 n hs hn hbranched
      -- The nodes one and two are the children of the root.
      have hone := (hchildren.only 1 low hlow).mp hlowparent
      have htwo := (hchildren.only 2 high hhigh).mp hhighparent
      obtain rfl : k = 1 := by omega
      exact ⟨s, rfl, htakes, fun i hi => hfirst s hs htakes s hs i hi, hlength s hs⟩

end Search

end IntegerProgramming
