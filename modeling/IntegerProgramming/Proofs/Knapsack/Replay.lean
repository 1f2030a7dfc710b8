import IntegerProgramming.Proofs.Knapsack.Selections
import IntegerProgramming.Proofs.Search.Lineage

/-! # Replaying the labels of a knapsack search

    The items of a knapsack are decided in one fixed order, so the labels on a
    path say no more than which side was taken each time.  Deciding the items
    again, one for every label, leads to the node of the search
    (`descends_eq`), and its greedy bound is what the tree records
    (`Problem.Replays`). -/

namespace IntegerProgramming

namespace Knapsack

variable {α : Type} [Scalar α] {p : Problem α} {node : Node α}

/-! ## Descents -/

/-- Decides one item after the other as the labels say. -/
def Problem.follow? (p : Problem α) (labels : List (Branching α)) : Option (Node α) :=
  labels.foldlM (fun node label => p.child? node (label.direction = .up)) p.root

/-- The label is one of the two decisions on an item, under its name. -/
def Problem.Labels (p : Problem α) (item : Item α) (label : Branching α) : Prop :=
  ∃ name, p.names[item.index]? = some name ∧
    (label = ⟨name, .down, 0⟩ ∨ label = ⟨name, .up, 1⟩)

/-- Every item has a name. -/
def Problem.Named (p : Problem α) : Prop := ∀ item ∈ p.items, item.index < p.names.length

omit [Scalar α] in
theorem Problem.Named.getElem? (h : p.Named) {k : Nat} {item : Item α}
    (hitem : p.items[k]? = some item) :
    p.names[item.index]? = some (p.names.getD item.index "") := by
  have hindex := h item (List.mem_of_getElem? hitem)
  rw [List.getElem?_eq_getElem hindex, List.getD_eq_getElem _ _ hindex]

/-- The labels of a node decide the first items, one label for each. -/
structure Follows (p : Problem α) (labels : List (Branching α)) (node : Node α) : Prop where
  follow : p.follow? labels = some node
  depth : node.depth = labels.length
  covers : p.Covers node
  labels : ∀ (k : Nat) (label : Branching α), labels[k]? = some label →
    ∃ item : Item α, p.items[k]? = some item ∧ p.Labels item label

/-- Deciding the next item continues the labels. -/
theorem Follows.child {labels : List (Branching α)} (h : Follows p labels node) {item : Item α}
    (hitem : p.items[node.depth]? = some item) {label : Branching α}
    (hlabel : p.Labels item label) {child : Node α}
    (hchild : p.child? node (label.direction = .up) = some child) :
    Follows p (labels ++ [label]) child := by
  have hdepth : child.depth = node.depth + 1 := by
    unfold Problem.child? at hchild
    rw [hitem, Option.map_some, Option.some.injEq] at hchild
    rw [← hchild]
    split <;> rfl
  have hlt : node.depth < p.items.length := (List.getElem?_eq_some_iff.mp hitem).1
  refine ⟨?_, ?_, ?_, ?_⟩
  · have hfollow : p.follow? (labels ++ [label]) =
        (p.follow? labels).bind fun node => p.child? node (label.direction = .up) := by
      unfold Problem.follow?
      rw [List.foldlM_append]
      simp
    rw [hfollow, h.follow]
    exact hchild
  · rw [List.length_append, hdepth, h.depth]
    rfl
  · unfold Problem.Covers
    omega
  · intro k label' hk
    by_cases hlast : k < labels.length
    · rw [List.getElem?_append_left hlast] at hk
      exact h.labels k label' hk
    · -- The new label stands at the place of the item that it decides.
      have hkd : k = node.depth := by
        have hbound := (List.getElem?_eq_some_iff.mp hk).1
        rw [List.length_append, List.length_singleton] at hbound
        have hdepth := h.depth
        omega
      subst hkd
      rw [h.depth, List.getElem?_concat_length, Option.some.injEq] at hk
      exact ⟨item, hitem, hk ▸ hlabel⟩

theorem follows_of_descends (hroot : p.root.depth = 0) (hnamed : p.Named)
    {labels : List (Branching α)} (h : p.scheme.Descends p.root labels node) :
    Follows p labels node := by
  induction h with
  | root =>
    refine ⟨rfl, hroot, ?_, fun k label hk => by cases hk⟩
    rw [Problem.Covers, hroot]
    exact Nat.zero_le _
  | @child labels parent b lower upper child _ _ _ hbranch hside ih =>
    obtain ⟨item, hitem, hexclude, hinclude, hdown, hup⟩ := branch_ok hbranch
    have hname := hnamed.getElem? hitem
    rcases hside with rfl | rfl
    · apply ih.child hitem ⟨_, hname, .inl hdown⟩
      rw [hdown, hexclude]
      simp [Problem.child?, hitem]
    · apply ih.child hitem ⟨_, hname, .inr hup⟩
      rw [hup, hinclude]
      simp [Problem.child?, hitem]

/-! ## Problems read from models -/

/-- Bounds decide on items before the first one is due. -/
theorem depth_root (τ : α) (m : Model α) (c : Constraint α) : (problem τ m c).root.depth = 0 := by
  have hfold : ∀ (cs : List (Candidate α)) (node : Node α),
      (cs.foldl (Node.fix τ) node).depth = node.depth := by
    intro cs
    induction cs with
    | nil => exact fun node => rfl
    | cons d cs ih =>
      intro node
      rw [List.foldl_cons, ih]
      unfold Node.fix
      split <;> rfl
  exact hfold _ _

theorem named_problem {τ : α} {m : Model α} {c : Constraint α} (h : Accepts m c) :
    (problem τ m c).Named := by
  intro item hitem
  have hcandidate : item ∈ (candidates m c.coefficients).map (·.item) := by
    unfold problem ofCandidates at hitem
    rw [List.mem_mergeSort] at hitem
    exact List.map_subset _ (List.filter_subset_self _) hitem
  obtain ⟨d, hd, rfl⟩ := List.mem_map.mp hcandidate
  have hindex : d.item.index ∈ (candidates m c.coefficients).map (·.item.index) :=
    List.mem_map.mpr ⟨d, hd, rfl⟩
  rw [index_candidates h, List.mem_range] at hindex
  show d.item.index < m.names.length
  rwa [Model.names, List.length_map]

/-! ## Records -/

/-- The labels on the path to a node decide the first items, the node that
    they lead to shows what the tree records, and its children are labelled by
    the two decisions on the next item. -/
structure Problem.Replays (p : Problem α) (r : SearchResult α) (n : IntegerProgramming.Node α) :
    Prop where
  outcome : ∃ node evaluation, p.follow? (r.labels n.id) = some node ∧ node.depth = n.depth ∧
    p.evaluate? node = some evaluation ∧ n.outcome? = some evaluation
  labels : ∀ (k : Nat) (label : Branching α), (r.labels n.id)[k]? = some label →
    ∃ item : Item α, p.items[k]? = some item ∧ p.Labels item label
  children : n.status = .branched → ∃ (item : Item α) (name : String),
    p.items[n.depth]? = some item ∧ p.names[item.index]? = some name ∧
    HasChildren r.nodes n.id ⟨name, .down, 0⟩ ⟨name, .up, 1⟩

/-- A model that states no knapsack problem is misaligned, or not supported. -/
theorem ofModel_failed {τ : α} {m : Model α} {failure : Failure α}
    (h : ofModel τ m = .error failure) :
    (∃ cause, m.misalignment = some cause ∧ failure = .misaligned cause) ∨
      ∃ cause, failure = .unsupported cause := by
  unfold ofModel at h
  cases hal : m.misalignment with
  | some cause =>
    rw [hal] at h
    cases h
    exact .inl ⟨cause, rfl, rfl⟩
  | none =>
    rw [hal] at h
    dsimp only at h
    split at h
    · cases h
      exact .inr ⟨_, rfl⟩
    · split at h
      · cases h
        exact .inr ⟨_, rfl⟩
      · split at h
        · cases h
          exact .inr ⟨_, rfl⟩
        · cases h
      · cases h
        exact .inr ⟨_, rfl⟩

/-- A model is refused without a tree. -/
theorem tree?_of_ofModel {τ : α} {m : Model α} {failure : Failure α}
    (h : ofModel τ m = .error failure) : Search.tree? (.error failure) = none := by
  obtain ⟨_, -, rfl⟩ | ⟨_, rfl⟩ := ofModel_failed h
  · rfl
  · rfl

/-- The scheme never fails with a tree. -/
theorem tree?_of_breaksAt {failure : Failure α} (h : p.scheme.BreaksAt node failure) :
    Search.tree? (.error failure) = none := by
  rcases h with hevaluate | ⟨b, -, -, hsplit⟩
  · cases hevaluate
  · have hbranch : p.branch node = .error failure := hsplit
    unfold Problem.branch at hbranch
    split at hbranch
    · cases hbranch
      rfl
    · cases hbranch

/-- A tree comes from the search on the problem that the model states. -/
theorem run_of_tree {steps : Nat} {settings : Search.Settings α} {m : Model α}
    {answer : Except (Failure α) (SearchResult α)} {result : SearchResult α}
    (h : solve steps settings m = some answer) (htree : Search.tree? answer = some result) :
    ∃ c, Accepts m c ∧ Search.run steps (problem settings.tolerance m c).scheme
      (problem settings.tolerance m c).root settings = some answer := by
  unfold solve report at h
  cases hmodel : ofModel settings.tolerance m with
  | error failure =>
    rw [hmodel] at h
    cases h
    rw [tree?_of_ofModel hmodel] at htree
    cases htree
  | ok p =>
    rw [hmodel] at h
    obtain ⟨c, haccepts, rfl⟩ := ofModel_ok hmodel
    exact ⟨c, haccepts, h⟩

/-- Every examined node of a tree of the knapsack search is replayed by its
    labels. -/
theorem replays_of_solve {steps : Nat} {settings : Search.Settings α} {m : Model α}
    {answer : Except (Failure α) (SearchResult α)} {result : SearchResult α}
    (h : solve steps settings m = some answer) (htree : Search.tree? answer = some result) :
    ∃ p, ofModel settings.tolerance m = .ok p ∧
      ∀ n ∈ result.nodes, n.status ≠ .created → p.Replays result n := by
  obtain ⟨c, haccepts, hrun⟩ := run_of_tree h htree
  have hnamed : (problem settings.tolerance m c).Named := named_problem haccepts
  refine ⟨_, ofModel_of_accepts haccepts _, fun n hn hexamined => ?_⟩
  obtain ⟨node, evaluation, hdescends, hlength, hevaluate, houtcome, hchildren⟩ :=
    Search.descends_of_tree (fun _ _ => tree?_of_breaksAt) hrun htree hn hexamined
  have hfollows := follows_of_descends (depth_root _ _ _) hnamed hdescends
  have hdepth : node.depth = n.depth := hfollows.depth.trans hlength
  refine ⟨⟨node, evaluation, hfollows.follow, hdepth, ?_, houtcome⟩, hfollows.labels, ?_⟩
  · unfold Problem.evaluate?
    rw [if_pos (.inl hfollows.covers)]
    exact congrArg some (Except.ok.inj hevaluate)
  · intro hbranched
    obtain ⟨b, lower, upper, -, hbranch, hkids⟩ := hchildren hbranched
    obtain ⟨item, hitem, -, -, hdown, hup⟩ := branch_ok hbranch
    rw [hdown, hup] at hkids
    exact ⟨item, _, hdepth ▸ hitem, hnamed.getElem? hitem, hkids⟩

end Knapsack

end IntegerProgramming
