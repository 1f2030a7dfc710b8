import IntegerProgramming.Proofs.Search.Arena

/-! # Runs of the search

    A step examines one node, so a state is reached by as many steps as it has
    examined nodes (`advance_of_visited`), and a search whose states examine a
    bounded number of nodes comes to an end (`run_ends_of_bounded`).

    Along a run the tree only grows: a node keeps its place, an examined node
    is never written again, and no solution is forgotten (`State.Grows`). -/

namespace IntegerProgramming

variable {α ν : Type}

/-- No solution is dropped from the history of the incumbents. -/
theorem Incumbent.history_install [Scalar α] (i : Incumbent α) (objective : α) (values : List α)
    (id : Nat) : i.history.toList <+: (i.install objective values id).history.toList := by
  unfold install
  split
  · exact ⟨[⟨id, objective⟩], by rw [Array.toList_push]⟩
  · exact List.prefix_rfl

namespace Search

section runs

variable [Scalar α] {scheme : Scheme α ν} {settings : Settings α} {root : ν}

/-! ## The number of steps -/

/-- A search that goes on had a node to examine. -/
theorem frontier_ne_nil {s s' : State α ν} (h : step scheme settings s = .running s') :
    s.frontier ≠ [] := by
  obtain ⟨id, node, rest, hfrontier, -, -⟩ := step_running h
  rw [hfrontier]
  exact List.cons_ne_nil _ _

/-- One step more at the end of a run. -/
theorem advance_succ {k : Nat} {s t : State α ν}
    (h : advance scheme settings k s = .running t) :
    advance scheme settings (k + 1) s = step scheme settings t := by
  induction k generalizing s with
  | zero =>
    cases h
    unfold advance
    cases step scheme settings t <;> rfl
  | succ k ih =>
    unfold advance at h ⊢
    cases hstep : step scheme settings s with
    | ended r => rw [hstep] at h; cases h
    | running u =>
      rw [hstep] at h
      exact ih h

/-- A run that has ended does not go on. -/
theorem advance_add {k : Nat} {s : State α ν} {r : Report α (SearchResult α)}
    (h : advance scheme settings k s = .ended r) (l : Nat) :
    advance scheme settings (k + l) s = .ended r := by
  induction k generalizing s with
  | zero => cases h
  | succ k ih =>
    rw [Nat.succ_add]
    unfold advance at h ⊢
    cases hstep : step scheme settings s with
    | ended r' => rw [hstep] at h; exact h
    | running u =>
      rw [hstep] at h
      exact ih h

/-- The steps of a run are counted by the nodes that it examines. -/
theorem visited_of_advance {k : Nat} {s t : State α ν} (hs : Visited scheme settings root s)
    (h : advance scheme settings k s = .running t) :
    Visited scheme settings root t ∧ t.explored = s.explored + k := by
  induction k generalizing s with
  | zero => cases h; exact ⟨hs, rfl⟩
  | succ k ih =>
    unfold advance at h
    cases hstep : step scheme settings s with
    | ended r => rw [hstep] at h; cases h
    | running u =>
      rw [hstep] at h
      obtain ⟨ht, hexplored⟩ := ih (hs.next hstep) h
      have hone := step_explored hstep
      exact ⟨ht, by omega⟩

theorem advance_of_visited {s : State α ν} (h : Visited scheme settings root s) :
    advance scheme settings s.explored (.start scheme.sense root) = .running s := by
  induction h with
  | start => rfl
  | next _ hstep ih => rw [step_explored hstep, advance_succ ih, hstep]

/-- A search whose states have examined at most `bound` nodes ends. -/
theorem run_ends_of_bounded {bound : Nat}
    (h : ∀ s, Visited scheme settings root s → s.explored ≤ bound) {steps : Nat}
    (hsteps : bound < steps) : ∃ answer, run steps scheme root settings = some answer := by
  unfold run report
  cases hadvance : advance scheme settings steps (.start scheme.sense root) with
  | ended r => exact ⟨r.answer, rfl⟩
  | running t =>
    obtain ⟨ht, hexplored⟩ := visited_of_advance .start hadvance
    have hzero : (State.start scheme.sense root : State α ν).explored = 0 := rfl
    have hle := h t ht
    omega

/-! ## The last step -/

/-- A visited state from which the search ends gives the answer, to every run
    that has steps enough to reach it. -/
theorem run_of_visited {s : State α ν} {r : Report α (SearchResult α)}
    (hs : Visited scheme settings root s) (h : step scheme settings s = .ended r) {steps : Nat}
    (hsteps : s.explored < steps) : run steps scheme root settings = some r.answer := by
  have hend : advance scheme settings (s.explored + 1) (.start scheme.sense root) = .ended r := by
    rw [advance_succ (advance_of_visited hs), h]
  obtain ⟨l, rfl⟩ := Nat.exists_eq_add_of_le hsteps
  unfold run report
  rw [show s.explored.succ + l = s.explored + 1 + l from rfl, advance_add hend]
  rfl

/-- The tree that an answer comes with: finished, or cut short by the limit. -/
def tree? : Except (Failure α) (SearchResult α) → Option (SearchResult α)
  | .ok result => some result
  | .error (.nodeLimit _ _ cut) => some cut
  | .error _ => none

omit [Scalar α] in
/-- The tree that a run is known to leave, which passes a check. -/
theorem exists_tree_of_check (run : Option (Except (Failure α) (SearchResult α)))
    (check : SearchResult α → Bool)
    (h : run.map (fun answer => (tree? answer).map check) = some (some true)) :
    ∃ answer result, run = some answer ∧ tree? answer = some result ∧ check result = true := by
  obtain ⟨answer, hanswer, htree⟩ := Option.map_eq_some_iff.mp h
  obtain ⟨result, hresult, hcheck⟩ := Option.map_eq_some_iff.mp htree
  exact ⟨answer, result, hanswer, hresult, hcheck⟩

/-- The tree of an answer is that of a visited state, unless the search has
    ended in a failure of the scheme that brings one. -/
theorem visited_of_tree {steps : Nat} {answer : Except (Failure α) (SearchResult α)}
    {result : SearchResult α} (h : run steps scheme root settings = some answer)
    (htree : tree? answer = some result) :
    (∃ s status, Visited scheme settings root s ∧ result = s.result scheme.names status) ∨
      ∃ failure, answer = .error failure ∧ EndsInScheme scheme settings root failure := by
  cases answer with
  | ok finished =>
    cases htree
    obtain ⟨s, hs, -, rfl⟩ := run_ok h
    exact .inl ⟨s, _, hs, rfl⟩
  | error failure =>
    rcases run_failed h with ⟨s, limit, hs, -, rfl⟩ | hends
    · cases htree
      exact .inl ⟨s, _, hs, rfl⟩
    · exact .inr ⟨failure, rfl, hends⟩

/-- If no failure of the scheme brings a tree, every tree is that of a visited
    state. -/
theorem exists_state_of_tree (hfailures : ∀ node failure, scheme.BreaksAt node failure →
      tree? (.error failure) = none) {steps : Nat} {answer : Except (Failure α) (SearchResult α)}
    {result : SearchResult α} (h : run steps scheme root settings = some answer)
    (htree : tree? answer = some result) :
    ∃ s status, Visited scheme settings root s ∧ result = s.result scheme.names status := by
  rcases visited_of_tree h htree with hvisited | ⟨failure, rfl, hends⟩
  · exact hvisited
  · obtain ⟨node, hbreaks⟩ := hends.breaksAt
    rw [hfailures node failure hbreaks] at htree
    cases htree

end runs

/-! ## Growth -/

/-- The tree of the second state continues that of the first one. -/
structure State.Grows (s t : State α ν) : Prop where
  /-- A node keeps its place in the tree. -/
  place {i : Nat} {n : Node α} (hn : s.nodes[i]? = some n) :
    ∃ q, t.nodes[i]? = some q ∧ q.id = n.id ∧ q.parent = n.parent ∧ q.depth = n.depth ∧
      q.branching = n.branching
  /-- A node that has been examined is not written again. -/
  examined {i : Nat} {n : Node α} (hn : s.nodes[i]? = some n) (hexamined : n.status ≠ .created) :
    t.nodes[i]? = some n
  history : s.incumbent.history.toList <+: t.incumbent.history.toList

namespace State.Grows

variable {s t u : State α ν}

theorem refl (s : State α ν) : s.Grows s :=
  ⟨fun hn => ⟨_, hn, rfl, rfl, rfl, rfl⟩, fun hn _ => hn, List.prefix_rfl⟩

theorem trans (h : s.Grows t) (h' : t.Grows u) : s.Grows u where
  place hn := by
    obtain ⟨q, hq, hid, hparent, hdepth, hlabel⟩ := h.place hn
    obtain ⟨r, hr, hid', hparent', hdepth', hlabel'⟩ := h'.place hq
    exact ⟨r, hr, hid'.trans hid, hparent'.trans hparent, hdepth'.trans hdepth,
      hlabel'.trans hlabel⟩
  examined hn hexamined := h'.examined (h.examined hn hexamined) hexamined
  history := h.history.trans h'.history

theorem size_le (h : s.Grows t) : s.nodes.size ≤ t.nodes.size := by
  by_contra hlt
  have hi : t.nodes.size < s.nodes.size := Nat.lt_of_not_le hlt
  -- The first node that `t` lacks would be one that `s` has.
  obtain ⟨q, hq, -⟩ := h.place (Array.getElem?_eq_getElem hi)
  have hnone : t.nodes[t.nodes.size]? = none := Array.getElem?_eq_none le_rfl
  rw [hnone] at hq
  cases hq

end State.Grows

section growth

variable [Scalar α] {scheme : Scheme α ν} {settings : Settings α} {root : ν}

/-- A step writes the node in front, which was open, and adds nodes at the end. -/
theorem grows_of_step {s s' : State α ν} (hs : s.WellFormed)
    (h : step scheme settings s = .running s') : s.Grows s' := by
  obtain ⟨id, node, rest, hfrontier, -, hexamined⟩ := step_running h
  obtain ⟨n, hn, hopen⟩ := hs.front hfrontier
  obtain ⟨status, b, children, hwritten, -⟩ := hexamined.written hn
  refine ⟨fun {i q} hq => ?_, fun {i q} hq hdone => hwritten.keeps hn hopen hq hdone, ?_⟩
  · by_cases hi : i = id
    · subst hi
      have hqn : q = n := Option.some.inj (hq.symm.trans hn)
      subst hqn
      exact ⟨q.settled status b, (hwritten.getElem?_iff hn).mpr (.inl ⟨rfl, rfl⟩), by simp⟩
    · exact ⟨q, (hwritten.getElem?_iff hn).mpr (.inr (.inl ⟨hi, hq⟩)), rfl, rfl, rfl, rfl⟩
  · rcases hwritten.incumbent with hsame | ⟨own, -, -, hinstall⟩
    · rw [hsame]
    · rw [hinstall]
      exact s.incumbent.history_install _ _ _

/-- Every visited state is reached through states with each smaller number of
    examined nodes, and its tree continues theirs. -/
theorem visited_between {t : State α ν} (h : Visited scheme settings root t) {k : Nat}
    (hk : k ≤ t.explored) :
    ∃ s, Visited scheme settings root s ∧ s.explored = k ∧ s.Grows t ∧
      (k < t.explored → s.frontier ≠ []) := by
  induction h with
  | start =>
    have hzero : k = 0 := Nat.le_zero.mp hk
    subst hzero
    exact ⟨_, .start, rfl, .refl _, fun hlt => absurd hlt (Nat.lt_irrefl 0)⟩
  | @next t t' ht hstep ih =>
    have hone := step_explored hstep
    by_cases hlast : k = t'.explored
    · subst hlast
      exact ⟨t', ht.next hstep, rfl, .refl _, fun hlt => absurd hlt (Nat.lt_irrefl _)⟩
    · obtain ⟨s, hs, hexplored, hgrows, hmore⟩ := ih (by omega)
      refine ⟨s, hs, hexplored, hgrows.trans (grows_of_step (wellFormed_of_visited ht) hstep),
        fun _ => ?_⟩
      by_cases hkt : k < t.explored
      · exact hmore hkt
      · -- Both have made the same number of steps, so they are the same state.
        have hst : s.explored = t.explored := by omega
        have hadvance := advance_of_visited hs
        rw [hst, advance_of_visited ht] at hadvance
        cases hadvance
        exact frontier_ne_nil hstep

/-! ## Examined nodes -/

/-- The step of a search that examines a node: what the node was before, and
    what was found out about it. -/
structure Examining (scheme : Scheme α ν) (settings : Settings α) (root : ν) (t t' : State α ν)
    (i : Nat) (node : ν) (m : Node α) (status : NodeStatus α) (b : Option (Bounded α))
    (children : List (Branching α × ν)) : Prop where
  visited : Visited scheme settings root t
  next : step scheme settings t = .running t'
  front : ∃ rest, t.frontier = (i, node) :: rest ∧
    t'.frontier = reopen settings.traversal rest t.nodes.size children
  before : t.nodes[i]? = some m
  ruled : Ruled scheme settings t.incumbent i node status b children t'.incumbent
  after : t'.nodes = grown t.nodes i m status b (children.map Prod.fst)

/-- Examining a node continues the tree. -/
theorem Examining.grows {t t' : State α ν} {i : Nat} {node : ν} {m : Node α}
    {status : NodeStatus α} {b : Option (Bounded α)} {children : List (Branching α × ν)}
    (h : Examining scheme settings root t t' i node m status b children) : t.Grows t' :=
  grows_of_step (wellFormed_of_visited h.visited) h.next

/-- The node that is examined is open. -/
theorem Examining.mem_frontier {t t' : State α ν} {i : Nat} {node : ν} {m : Node α}
    {status : NodeStatus α} {b : Option (Bounded α)} {children : List (Branching α × ν)}
    (h : Examining scheme settings root t t' i node m status b children) :
    (i, node) ∈ t.frontier := by
  obtain ⟨rest, hfrontier, -⟩ := h.front
  rw [hfrontier]
  exact List.mem_cons_self

/-- Every node of a tree that is not open was examined by a step of the search,
    and the tree continues the one that this step left. -/
theorem examining_of_examined {s : State α ν} (h : Visited scheme settings root s) {i : Nat}
    {n : Node α} (hn : s.nodes[i]? = some n) (hexamined : n.status ≠ .created) :
    ∃ t t' node m b children,
      Examining scheme settings root t t' i node m n.status b children ∧
        n = m.settled n.status b ∧ t'.Grows s := by
  induction h with
  | start =>
    -- The root is the only node, and it is open.
    have hmem : n ∈ #[_] := Array.mem_of_getElem? hn
    rw [Array.mem_singleton] at hmem
    rw [hmem] at hexamined
    exact absurd rfl hexamined
  | @next s s' hs hstep ih =>
    have hwell := wellFormed_of_visited hs
    have hgrows := grows_of_step hwell hstep
    obtain ⟨id, node, rest, hfrontier, -, hstepped⟩ := step_running hstep
    obtain ⟨m, hm, -⟩ := hwell.front hfrontier
    obtain ⟨status, b, children, hwritten, hruled, hreopen⟩ := hstepped.written hm
    rcases (hwritten.getElem?_iff hm).mp hn with ⟨rfl, rfl⟩ | ⟨-, hold⟩ | ⟨k, label, -, -, rfl⟩
    · rw [Node.settled_status]
      exact ⟨s, s', node, m, b, children,
        ⟨hs, hstep, ⟨rest, hfrontier, hreopen⟩, hm, hruled, hwritten.nodes⟩, rfl, .refl s'⟩
    · obtain ⟨t, t', node', m', b', children', hexamining, hsettled, hbefore⟩ := ih hold
      exact ⟨t, t', node', m', b', children', hexamining, hsettled, hbefore.trans hgrows⟩
    · exact absurd rfl hexamined

end growth

end Search

end IntegerProgramming
