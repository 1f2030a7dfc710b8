import IntegerProgramming.Proofs.Search.Lineage

/-! # Paths in the tree

    `SearchResult.pathTo` climbs from a node to its parent as long as there is
    one.  On an arbitrary array of nodes that need not come to an end: a node
    could be its own grandparent.  The climb itself knows no bound
    (`SearchResult.Climbs`), and what ends it is the order of the arena: a
    child is created after its parent, so every move goes to a smaller number,
    and only the root has no parent.

    On the tree of a search the climb therefore ends, and the nodes that it
    met, read backwards, are the chain from the root to the node
    (`SearchResult.IsPath`).  This needs nothing of the scheme: it holds for
    every tree that a search leaves, finished or cut short by the limit. -/

namespace IntegerProgramming

variable {α ν : Type}

namespace SearchResult

/-! ## Climbing -/

/-- The climb that stands at a node and has met the given nodes, the last one
    first, returns the path. -/
inductive Climbs (r : SearchResult α) : Nat → List Nat → List Nat → Prop where
  | top {id : Nat} {met : List Nat} (h : r.parent? id = none) : Climbs r id met met
  | up {id p : Nat} {met path : List Nat} (h : r.parent? id = some p)
      (hrest : Climbs r p (p :: met) path) : Climbs r id met path

/-- The chain from the root to a node. -/
structure IsPath (r : SearchResult α) (id : Nat) (path : List Nat) : Prop where
  increasing : path.Pairwise (· < ·)
  first : path.head? = some 0
  last : path.getLast? = some id
  length : r.nodes[id]?.map (·.depth + 1) = some path.length
  linked : path.IsChain fun p i => r.parent? i = some p
  split : ∀ p ∈ path.dropLast, ∃ q, r.nodes[p]? = some q ∧ q.status = .branched

/-- Every climb ends, in one way only.  From a node of the tree it shows the
    chain from the root, and from elsewhere nothing. -/
structure HasPaths (r : SearchResult α) : Prop where
  climbs : ∀ id path, r.Climbs id [id] path ↔ path = r.pathTo id
  inside : ∀ id, id < r.nodes.size → r.IsPath id (r.pathTo id)
  outside : ∀ id, r.nodes.size ≤ id → r.pathTo id = [id]

variable {r : SearchResult α} {id p : Nat}

/-- What a climb returns is determined by where it starts. -/
theorem Climbs.unique {met path path' : List Nat} (h : r.Climbs id met path)
    (h' : r.Climbs id met path') : path = path' := by
  induction h with
  | top hnone =>
    cases h' with
    | top => rfl
    | up hsome => simp [hnone] at hsome
  | up hsome _ ih =>
    cases h' with
    | top hnone => simp [hnone] at hsome
    | up hsome' hrest =>
      rw [hsome, Option.some.injEq] at hsome'
      subst hsome'
      exact ih hrest

theorem ancestors_top (h : r.parent? id = none) (length : Nat) : r.ancestors length id = [id] := by
  cases length with
  | zero => rfl
  | succ length => simp [ancestors, h]

theorem ancestors_up (h : r.parent? id = some p) (length : Nat) :
    r.ancestors (length + 1) id = r.ancestors length p ++ [id] := by
  simp [ancestors, h]

/-- There is nothing above a number that is not in the tree. -/
theorem parent?_of_size_le (h : r.nodes.size ≤ id) : r.parent? id = none := by
  simp [parent?, Array.getElem?_eq_none h]

/-- A climb goes to a node that was created before. -/
theorem parent?_lt (htree : IsTree r.nodes) (h : r.parent? id = some p) : p < id := by
  obtain ⟨n, hn, hparent⟩ := Option.bind_eq_some_iff.mp h
  exact Lineage.lt_of_parent htree hn hparent

/-- A number of moves that would lead below the root is enough to end a climb. -/
theorem climbs_ancestors (htree : IsTree r.nodes) :
    ∀ (length id : Nat) (met : List Nat), id ≤ length →
      r.Climbs id (id :: met) (r.ancestors length id ++ met) := by
  intro length
  induction length with
  | zero =>
    intro id met hid
    have hnone : r.parent? id = none := by
      cases hparent : r.parent? id with
      | none => rfl
      | some p => have := parent?_lt htree hparent; omega
    exact .top hnone
  | succ length ih =>
    intro id met hid
    cases hparent : r.parent? id with
    | none =>
      rw [ancestors_top hparent]
      exact .top hparent
    | some p =>
      have hlt := parent?_lt htree hparent
      rw [ancestors_up hparent, List.append_assoc]
      exact .up hparent (ih p (id :: met) (by omega))

theorem pathTo_of_size_le (h : r.nodes.size ≤ id) : r.pathTo id = [id] :=
  ancestors_top (parent?_of_size_le h) _

/-- From everywhere the climb ends, and shows the path. -/
theorem climbs_pathTo (htree : IsTree r.nodes) (id : Nat) : r.Climbs id [id] (r.pathTo id) := by
  by_cases hid : r.nodes.size ≤ id
  · rw [pathTo_of_size_le hid]
    exact .top (parent?_of_size_le hid)
  · have hclimbs := climbs_ancestors htree r.nodes.size id [] (by omega)
    rwa [List.append_nil] at hclimbs

/-! ## Chains from the root -/

/-- No node on a path was created after its last one. -/
theorem IsPath.le_last {path : List Nat} (h : r.IsPath p path) : ∀ j ∈ path, j ≤ p := by
  intro j hj
  obtain ⟨above, rfl⟩ := List.getLast?_eq_some_iff.mp h.last
  rcases List.mem_append.mp hj with habove | hself
  · have hlt := (List.pairwise_append.mp h.increasing).2.2 j habove p (List.mem_singleton_self p)
    exact hlt.le
  · exact (List.mem_singleton.mp hself).le

theorem isPath_root (htree : IsTree r.nodes) : r.IsPath 0 [0] := by
  obtain ⟨n, hn, -, hdepth⟩ := htree.root
  exact {
    increasing := List.pairwise_singleton _ 0
    first := rfl
    last := rfl
    length := by simp [hn, hdepth]
    linked := .singleton 0
    split := by simp }

/-- The path to a node is the path to its parent and the node itself. -/
theorem IsPath.child (htree : IsTree r.nodes) {path : List Nat} (h : r.IsPath p path)
    {n : Node α} (hn : r.nodes[id]? = some n) (hparent : n.parent = some p) :
    r.IsPath id (path ++ [id]) := by
  have hlt : p < id := Lineage.lt_of_parent htree hn hparent
  obtain ⟨p', q, hp', -, hq, hbranched, hdepth, -⟩ := htree.parent hn (by omega)
  rw [hparent, Option.some.injEq] at hp'
  subst hp'
  have hlength : path.length = q.depth + 1 := by
    have := h.length
    rw [hq, Option.map_some, Option.some.injEq] at this
    exact this.symm
  exact {
    increasing := by
      refine List.pairwise_append.mpr ⟨h.increasing, List.pairwise_singleton _ id, ?_⟩
      intro j hj i hi
      rw [List.mem_singleton.mp hi]
      exact (h.le_last j hj).trans_lt hlt
    first := by simp [h.first]
    last := by simp
    length := by simp [hn, hdepth, hlength]
    linked := by
      refine h.linked.append (.singleton id) ?_
      intro j hj i hi
      rw [h.last, Option.mem_some_iff] at hj
      rw [List.head?_singleton, Option.mem_some_iff] at hi
      subst hj hi
      simp [parent?, hn, hparent]
    split := by
      intro j hj
      rw [List.dropLast_concat] at hj
      -- What stands before the node is its parent, or stands before the parent.
      obtain ⟨above, rfl⟩ := List.getLast?_eq_some_iff.mp h.last
      rcases List.mem_append.mp hj with habove | hself
      · exact h.split j (by rwa [List.dropLast_concat])
      · rw [List.mem_singleton.mp hself]
        exact ⟨q, hq, hbranched⟩ }

/-- Enough ancestors of a node are the path to it. -/
theorem isPath_ancestors (htree : IsTree r.nodes) :
    ∀ (length id : Nat) (n : Node α), id ≤ length → r.nodes[id]? = some n →
      r.IsPath id (r.ancestors length id) := by
  intro length
  induction length with
  | zero =>
    intro id n hid hn
    obtain rfl : id = 0 := Nat.le_zero.mp hid
    exact isPath_root htree
  | succ length ih =>
    intro id n hid hn
    by_cases hroot : id = 0
    · subst hroot
      obtain ⟨m, hm, hnone, -⟩ := htree.root
      rw [ancestors_top (by simp [parent?, hm, hnone])]
      exact isPath_root htree
    · obtain ⟨p, q, hparent, hlt, hq, -⟩ := htree.parent hn hroot
      rw [ancestors_up (p := p) (by simp [parent?, hn, hparent])]
      exact (ih p q (by omega) hq).child htree hn hparent

theorem hasPaths_of_tree (htree : IsTree r.nodes) : r.HasPaths where
  climbs := by
    intro id path
    constructor
    · intro h
      exact h.unique (climbs_pathTo htree id)
    · intro h
      rw [h]
      exact climbs_pathTo htree id
  inside := by
    intro id hid
    exact isPath_ancestors htree _ id _ hid.le (Array.getElem?_eq_getElem hid)
  outside := by
    intro id hid
    exact pathTo_of_size_le hid

end SearchResult

/-! ## The trees of searches -/

namespace Search

/-- The paths of every tree that a search leaves are the chains from its root,
    whatever the scheme answers.  Only a tree that the scheme itself has put
    into a failure is none of the search's. -/
theorem hasPaths_of_run [Scalar α] (scheme : Scheme α ν) (settings : Settings α) (root : ν)
    {steps : Nat} {answer : Except (Failure α) (SearchResult α)} {result : SearchResult α}
    (h : run steps scheme root settings = some answer) (htree : tree? answer = some result) :
    result.HasPaths ∨
      ∃ failure, answer = .error failure ∧ EndsInScheme scheme settings root failure := by
  rcases visited_of_tree h htree with ⟨s, status, hs, rfl⟩ | hends
  · exact .inl (SearchResult.hasPaths_of_tree (tree_of_visited hs))
  · exact .inr hends

/-- Halving an interval makes a tree of three levels; a limit of two nodes
    leaves the upper half closed. -/
theorem halving_hasPaths :
    (∃ answer result, run 20 halving (0, 3) { tolerance := .rational 0 } = some answer ∧
      tree? answer = some result ∧ result.HasPaths ∧ result.IsPath 5 [0, 2, 5] ∧
        result.pathTo 7 = [7]) ∧
    ∃ answer cut, run 20 halving (0, 3) { tolerance := .rational 0, nodeLimit := some 2 } =
        some answer ∧
      tree? answer = some cut ∧ cut.HasPaths ∧ cut.IsPath 4 [0, 1, 4] ∧ cut.pathTo 5 = [5] := by
  -- What is known of a tree of this search, whether it was finished or cut short.
  have hpaths : ∀ (settings : Settings Exact) answer (result : SearchResult Exact),
      run 20 halving (0, 3) settings = some answer → tree? answer = some result →
        result.HasPaths := by
    intro settings answer result hrun htree
    refine (hasPaths_of_run halving settings (0, 3) hrun htree).resolve_right ?_
    rintro ⟨failure, -, hends⟩
    exact halving_not_endsInScheme _ _ failure hends
  constructor
  · obtain ⟨answer, result, hrun, htree, hcheck⟩ := exists_tree_of_check
      (run 20 halving (0, 3) { tolerance := .rational 0 })
      (fun r => decide (r.nodes.size = 7 ∧ r.pathTo 5 = [0, 2, 5])) (by decide +kernel)
    obtain ⟨hsize, hpath⟩ := of_decide_eq_true hcheck
    have hhas := hpaths _ _ _ hrun htree
    refine ⟨answer, result, hrun, htree, hhas, ?_, hhas.outside 7 hsize.le⟩
    rw [← hpath]
    exact hhas.inside 5 (by omega)
  · obtain ⟨answer, cut, hrun, htree, hcheck⟩ := exists_tree_of_check
      (run 20 halving (0, 3) { tolerance := .rational 0, nodeLimit := some 2 })
      (fun r => decide (r.nodes.size = 5 ∧ r.pathTo 4 = [0, 1, 4])) (by decide +kernel)
    obtain ⟨hsize, hpath⟩ := of_decide_eq_true hcheck
    have hhas := hpaths _ _ _ hrun htree
    refine ⟨answer, cut, hrun, htree, hhas, ?_, hhas.outside 5 hsize.le⟩
    rw [← hpath]
    exact hhas.inside 4 (by omega)

end Search

end IntegerProgramming
