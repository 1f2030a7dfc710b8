import IntegerProgramming.Proofs.Search.Lineage

/-! # Shallow trees are small

    A node has at most two children, so a level of a tree has at most twice as
    many nodes as the one above it.  A search whose trees are nowhere deeper
    than a bound therefore examines a bounded number of nodes, and ends
    (`ends_of_depth_le`). -/

namespace IntegerProgramming

variable {α ν : Type}

/-! ## Levels -/

/-- The numbers of the nodes at a depth. -/
def level (nodes : Array (Node α)) (depth : Nat) : Finset Nat :=
  (Finset.range nodes.size).filter fun i => nodes[i]?.map (·.depth) = some depth

theorem mem_level {nodes : Array (Node α)} {depth i : Nat} :
    i ∈ level nodes depth ↔ ∃ n, nodes[i]? = some n ∧ n.depth = depth := by
  unfold level
  rw [Finset.mem_filter, Finset.mem_range, Option.map_eq_some_iff]
  constructor
  · exact fun h => h.2
  · intro h
    obtain ⟨n, hn, -⟩ := id h
    exact ⟨(Array.getElem?_eq_some_iff.mp hn).1, h⟩

namespace IsTree

variable {nodes : Array (Node α)}

/-- Only the root is at depth zero. -/
theorem card_level_zero (h : IsTree nodes) : (level nodes 0).card ≤ 1 := by
  rw [Finset.card_le_one_iff_subset_singleton]
  refine ⟨0, fun i hi => ?_⟩
  obtain ⟨n, hn, hdepth⟩ := mem_level.mp hi
  rw [Finset.mem_singleton]
  by_contra hne
  obtain ⟨p, q, -, -, -, -, hbelow, -⟩ := h.parent hn hne
  omega

/-- Every node of a level has its parent on the level above, and shares it with
    at most one other node. -/
theorem card_level_succ (h : IsTree nodes) (depth : Nat) :
    (level nodes (depth + 1)).card ≤ 2 * (level nodes depth).card := by
  let parent (i : Nat) : Nat := (nodes[i]?.bind (·.parent)).getD 0
  have hparent : ∀ i ∈ level nodes (depth + 1), ∃ n q, nodes[i]? = some n ∧
      n.parent = some (parent i) ∧ nodes[parent i]? = some q ∧ q.status = .branched ∧
      q.depth = depth := by
    intro i hi
    obtain ⟨n, hn, hdepth⟩ := mem_level.mp hi
    have hne : i ≠ 0 := by
      intro hzero
      subst hzero
      obtain ⟨r, hr, -, hroot⟩ := h.root
      rw [hn, Option.some.injEq] at hr
      rw [hr] at hdepth
      omega
    obtain ⟨p, q, hp, -, hq, hbranched, hbelow, -⟩ := h.parent hn hne
    have hpi : parent i = p := by simp [parent, hn, hp]
    exact ⟨n, q, hn, hpi ▸ hp, hpi ▸ hq, hbranched, by omega⟩
  have hfibre : ∀ a ∈ (level nodes (depth + 1)).image parent,
      ((level nodes (depth + 1)).filter fun i => parent i = a).card ≤ 2 := by
    intro a ha
    obtain ⟨i, hi, rfl⟩ := Finset.mem_image.mp ha
    obtain ⟨-, q, -, -, hq, hbranched, -⟩ := hparent i hi
    obtain ⟨k, -, hiff⟩ := h.children hq hbranched
    -- All nodes with this parent are among its two children.
    have hsubset : ((level nodes (depth + 1)).filter fun j => parent j = parent i) ⊆
        {k, k + 1} := by
      intro j hj
      obtain ⟨hlevel, hsame⟩ := Finset.mem_filter.mp hj
      obtain ⟨n, -, hn, hp, -⟩ := hparent j hlevel
      rw [Finset.mem_insert, Finset.mem_singleton]
      exact (hiff j n hn).mp (hsame ▸ hp)
    exact (Finset.card_le_card hsubset).trans Finset.card_le_two
  have himage : (level nodes (depth + 1)).image parent ⊆ level nodes depth := by
    intro a ha
    obtain ⟨i, hi, rfl⟩ := Finset.mem_image.mp ha
    obtain ⟨-, q, -, -, hq, -, hdepth⟩ := hparent i hi
    exact mem_level.mpr ⟨q, hq, hdepth⟩
  calc (level nodes (depth + 1)).card
      ≤ 2 * ((level nodes (depth + 1)).image parent).card :=
        Finset.card_le_mul_card_image _ 2 hfibre
    _ ≤ 2 * (level nodes depth).card := Nat.mul_le_mul_left 2 (Finset.card_le_card himage)

theorem card_level_le (h : IsTree nodes) (depth : Nat) : (level nodes depth).card ≤ 2 ^ depth := by
  induction depth with
  | zero => exact h.card_level_zero
  | succ depth ih =>
    calc (level nodes (depth + 1)).card
        ≤ 2 * (level nodes depth).card := h.card_level_succ depth
      _ ≤ 2 * 2 ^ depth := Nat.mul_le_mul_left 2 ih
      _ = 2 ^ (depth + 1) := (Nat.pow_succ').symm

/-- A tree is no larger than the full one of its depth. -/
theorem size_le (h : IsTree nodes) {depth : Nat} (hdepth : ∀ n ∈ nodes, n.depth ≤ depth) :
    nodes.size ≤ 2 ^ (depth + 1) - 1 := by
  have hcover : Finset.range nodes.size ⊆ (Finset.range (depth + 1)).biUnion (level nodes) := by
    intro i hi
    have hsize := Finset.mem_range.mp hi
    have hle := hdepth _ (Array.getElem_mem hsize)
    rw [Finset.mem_biUnion]
    exact ⟨nodes[i].depth, Finset.mem_range.mpr (by omega),
      mem_level.mpr ⟨nodes[i], Array.getElem?_eq_getElem hsize, rfl⟩⟩
  calc nodes.size = (Finset.range nodes.size).card := (Finset.card_range _).symm
    _ ≤ ((Finset.range (depth + 1)).biUnion (level nodes)).card := Finset.card_le_card hcover
    _ ≤ ∑ d ∈ Finset.range (depth + 1), (level nodes d).card := Finset.card_biUnion_le
    _ ≤ ∑ d ∈ Finset.range (depth + 1), 2 ^ d := Finset.sum_le_sum fun d _ => h.card_level_le d
    _ = 2 ^ (depth + 1) - 1 := by rw [Nat.geomSum_eq (le_refl 2), Nat.div_one]

end IsTree

/-! ## Searches of bounded depth -/

namespace Search

variable [Scalar α] {scheme : Scheme α ν} {settings : Settings α} {root : ν}

/-- A search that stays above a depth creates no more nodes than a full tree of
    that depth has, and ends. -/
theorem ends_of_depth_le {depth : Nat}
    (h : ∀ s, Visited scheme settings root s → ∀ n ∈ s.nodes, n.depth ≤ depth) :
    (∀ s, Visited scheme settings root s → s.nodes.size ≤ 2 ^ (depth + 1) - 1) ∧
      ∀ steps, 2 ^ (depth + 1) ≤ steps → ∃ answer, run steps scheme root settings = some answer := by
  have hsize : ∀ s, Visited scheme settings root s → s.nodes.size ≤ 2 ^ (depth + 1) - 1 := by
    intro s hs
    exact (tree_of_visited hs).size_le (h s hs)
  refine ⟨hsize, fun steps hsteps => ?_⟩
  have hexplored : ∀ s, Visited scheme settings root s → s.explored ≤ 2 ^ (depth + 1) - 1 := by
    intro s hs
    have hcount : s.explored = s.nodes.countP fun n => !n.status.isCreated :=
      ((wellFormed_of_visited hs).result scheme.names .error).explored
    rw [hcount]
    exact Array.countP_le_size.trans (hsize s hs)
  have hpositive : 0 < 2 ^ (depth + 1) := Nat.two_pow_pos _
  exact run_ends_of_bounded hexplored (by omega)

end Search

end IntegerProgramming
