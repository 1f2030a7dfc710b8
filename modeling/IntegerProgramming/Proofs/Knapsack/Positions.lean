import IntegerProgramming.Proofs.Knapsack.Order
import IntegerProgramming.Proofs.Model.Points

/-! # Positions of a knapsack

    A model that is accepted lists one candidate for every variable, at its
    position.  Bounds decide some candidates, and the others are the items, in
    the order of decision.  Items, positions and depths are three ways of
    counting: the node that has decided the first items lists their positions,
    and no position is taken, left out and still open at once (`Partition`).

    Nothing here depends on the numbers. -/

namespace IntegerProgramming

/-! ## Sets of positions -/

theorem insertPosition_perm {j : Nat} {positions : List Nat} (h : j ∉ positions) :
    (insertPosition j positions).Perm (j :: positions) := by
  -- The position goes in front of the first one that is larger.
  induction positions with
  | nil => exact List.Perm.refl _
  | cons k positions ih =>
    rw [List.mem_cons, not_or] at h
    unfold insertPosition
    split
    · exact List.Perm.refl _
    · rw [if_neg h.1]
      exact ((ih h.2).cons k).trans (List.Perm.swap j k positions)

namespace Knapsack

/-! ## Reading a model -/

theorem getElem?_candidates {α : Type} {m : Model α} {weights : List α} {j : Nat}
    {c : Candidate α} : (candidates m weights)[j]? = some c ↔
      m.vars[j]? = some c.bounds ∧ m.objective[j]? = some c.item.value ∧
        weights[j]? = some c.item.weight ∧ c.item.index = j := by
  unfold candidates
  rw [List.getElem?_map, Option.map_eq_some_iff]
  constructor
  · rintro ⟨⟨⟨⟨v, value⟩, weight⟩, index⟩, hget, rfl⟩
    rw [List.getElem?_zipIdx, Option.map_eq_some_iff] at hget
    obtain ⟨triple, hzip, heq⟩ := hget
    obtain ⟨rfl, rfl⟩ := Prod.mk.inj heq
    rw [List.getElem?_zip_eq_some, List.getElem?_zip_eq_some] at hzip
    exact ⟨hzip.1.1, hzip.1.2, hzip.2, Nat.zero_add j⟩
  · rintro ⟨hv, hvalue, hweight, hindex⟩
    refine ⟨(((c.bounds, c.item.value), c.item.weight), j), ?_, ?_⟩
    · rw [List.getElem?_zipIdx, Option.map_eq_some_iff]
      refine ⟨_, ?_, by rw [Nat.zero_add]⟩
      rw [List.getElem?_zip_eq_some, List.getElem?_zip_eq_some]
      exact ⟨⟨hv, hvalue⟩, hweight⟩
    · rw [← hindex]

section reading

variable {α : Type} [Scalar α]

/-- The model states a knapsack problem, and the constraint is its capacity. -/
structure Accepts (m : Model α) (c : Constraint α) : Prop where
  aligned : m.Aligned
  sense : m.sense = .maximize
  binary : ∀ v ∈ m.vars, v.kind = .binary
  constraints : m.constraints = [c]
  relation : c.relation = .atMost
  capacity : ¬ c.rhs < 0
  weights : ∀ w ∈ c.coefficients, ¬ w < 0

/-- The knapsack problem that a model states. -/
def problem (τ : α) (m : Model α) (c : Constraint α) : Problem α :=
  ofCandidates τ c.rhs m.names (candidates m c.coefficients)

theorem constraintObstacle_eq_none {names : List String} {c : Constraint α}
    (h : constraintObstacle names c = none) :
    c.relation = .atMost ∧ ¬ c.rhs < 0 ∧ ∀ w ∈ c.coefficients, ¬ w < 0 := by
  unfold constraintObstacle at h
  split at h
  · cases h
  · rename_i hrelation
    split at h
    · cases h
    · rename_i hrhs
      rw [Option.map_eq_none_iff, List.findIdx?_eq_none_iff] at h
      exact ⟨not_not.mp hrelation, hrhs, fun w hw => of_decide_eq_false (h w hw)⟩

theorem ofModel_ok {τ : α} {m : Model α} {p : Problem α} (h : ofModel τ m = .ok p) :
    ∃ c, Accepts m c ∧ p = problem τ m c := by
  unfold ofModel at h
  cases hal : m.misalignment with
  | some cause => rw [hal] at h; cases h
  | none =>
    rw [hal] at h
    dsimp only at h
    split at h
    · cases h
    · rename_i hsense
      cases hfind : m.vars.find? (·.kind ≠ .binary) with
      | some v => rw [hfind] at h; cases h
      | none =>
        rw [hfind] at h
        split at h
        · cases h
        · rename_i c _ hconstraints
          cases hobstacle : constraintObstacle m.names c with
          | some cause => rw [hobstacle] at h; cases h
          | none =>
            rw [hobstacle] at h
            cases h
            obtain ⟨hrelation, hrhs, hweights⟩ := constraintObstacle_eq_none hobstacle
            refine ⟨c, ⟨hal, not_not.mp hsense, fun v hv => ?_, hconstraints, hrelation, hrhs,
              hweights⟩, rfl⟩
            have hbinary := List.find?_eq_none.mp hfind v hv
            exact not_not.mp fun hne => hbinary (decide_eq_true hne)
        · cases h

theorem ofModel_of_accepts {m : Model α} {c : Constraint α} (h : Accepts m c) (τ : α) :
    ofModel τ m = .ok (problem τ m c) := by
  have hal : m.misalignment = none := h.aligned
  have hfind : m.vars.find? (·.kind ≠ .binary) = none := by
    rw [List.find?_eq_none]
    intro v hv
    simp [h.binary v hv]
  have hobstacle : constraintObstacle m.names c = none := by
    have hweights : c.coefficients.findIdx? (fun w => w < 0) = none := by
      rw [List.findIdx?_eq_none_iff]
      intro w hw
      exact decide_eq_false (h.weights w hw)
    unfold constraintObstacle
    rw [if_neg (not_not.mpr h.relation), if_neg h.capacity, hweights]
    rfl
  unfold ofModel
  rw [hal, h.constraints, hfind]
  simp only [h.sense, hobstacle, ne_eq, not_true_eq_false, if_false]
  rfl

/-- Items that stand in the order of decision already are taken as they are. -/
theorem ofCandidates_of_sorted {τ capacity : α} {names : List String} {cs : List (Candidate α)}
    {items : List (Item α)}
    (hitems : (cs.filter fun c => choice τ c.bounds = .free).map (·.item) = items)
    (hsorted : items.Pairwise fun a b => a.noLater b = true) :
    ofCandidates τ capacity names cs = { ofCandidates τ capacity names cs with items } := by
  unfold ofCandidates
  dsimp only
  rw [hitems, List.mergeSort_of_pairwise hsorted]

theorem Accepts.mem {m : Model α} {c : Constraint α} (h : Accepts m c) : c ∈ m.constraints :=
  h.constraints ▸ List.mem_singleton_self c

theorem Accepts.length_weights {m : Model α} {c : Constraint α} (h : Accepts m c) :
    c.coefficients.length = m.vars.length :=
  h.aligned.constraint h.mem

theorem length_candidates {m : Model α} {c : Constraint α} (h : Accepts m c) :
    (candidates m c.coefficients).length = m.vars.length := by
  have hobjective := h.aligned.objective
  have hweights := h.length_weights
  simp [candidates, hobjective, hweights]

/-- The candidates stand at their positions. -/
theorem index_candidates {m : Model α} {c : Constraint α} (h : Accepts m c) :
    (candidates m c.coefficients).map (·.item.index) = List.range m.vars.length := by
  refine List.ext_getElem (by rw [List.length_map, length_candidates h, List.length_range]) ?_
  intro j hj _
  rw [List.getElem_map, List.getElem_range]
  exact (getElem?_candidates.mp (List.getElem?_eq_getElem (by simpa using hj))).2.2.2

theorem bounds_candidates {m : Model α} {c : Constraint α} (h : Accepts m c) :
    (candidates m c.coefficients).map (·.bounds) = m.vars := by
  refine List.ext_getElem (by rw [List.length_map, length_candidates h]) ?_
  intro j hj hjv
  rw [List.getElem_map, ← Option.some.injEq, ← List.getElem?_eq_getElem hjv]
  exact (getElem?_candidates.mp (List.getElem?_eq_getElem (by simpa using hj))).1.symm

/-- A conflict is a variable that its bounds leave no value. -/
theorem conflict_eq_none {τ : α} {m : Model α} {c : Constraint α} (h : Accepts m c) :
    (problem τ m c).conflict = none ↔ ∀ v ∈ m.vars, choice τ v ≠ .impossible := by
  unfold problem ofCandidates
  rw [Option.map_eq_none_iff, List.find?_eq_none, ← bounds_candidates h, List.forall_mem_map]
  simp only [decide_eq_true_eq, ne_eq]

end reading

section positions

variable {α : Type} [Scalar α] {τ : α} {m : Model α} {c : Constraint α}

/-! ## Items -/

theorem mem_items {i : Item α} : i ∈ (problem τ m c).items ↔
    ∃ d ∈ candidates m c.coefficients, choice τ d.bounds = .free ∧ d.item = i := by
  unfold problem ofCandidates
  rw [List.mem_mergeSort, List.mem_map]
  simp [List.mem_filter, and_assoc]

theorem items_sorted (τ : α) (m : Model α) (c : Constraint α) :
    (problem τ m c).items.Pairwise fun a b => a.noLater b = true :=
  sorted_pairwise _

/-! ## What bounds decide -/

/-- The positions of the candidates that bounds decide in the given way. -/
def decided (τ : α) (way : Choice) (cs : List (Candidate α)) : List Nat :=
  (cs.filter fun d => choice τ d.bounds = way).map (·.item.index)

theorem decided_snoc (τ : α) (way : Choice) (cs : List (Candidate α))
    (d : Candidate α) : decided τ way (cs ++ [d]) =
      decided τ way cs ++ if choice τ d.bounds = way then [d.item.index] else [] := by
  unfold decided
  rw [List.filter_append, List.map_append]
  by_cases hd : choice τ d.bounds = way <;> simp [hd]

theorem mem_index_of_mem_decided {way : Choice} {cs : List (Candidate α)} {j : Nat}
    (h : j ∈ decided τ way cs) : j ∈ cs.map (·.item.index) := by
  obtain ⟨d, hd, rfl⟩ := List.mem_map.mp h
  exact List.mem_map_of_mem (List.mem_filter.mp hd).1

theorem mem_decided (ha : Accepts m c) {way : Choice} {j : Nat} :
    j ∈ decided τ way (candidates m c.coefficients) ↔
      ∃ v, m.vars[j]? = some v ∧ choice τ v = way := by
  unfold decided
  rw [List.mem_map]
  constructor
  · rintro ⟨d, hd, rfl⟩
    obtain ⟨hd, hchoice⟩ := List.mem_filter.mp hd
    obtain ⟨j, hj⟩ := List.mem_iff_getElem?.mp hd
    obtain ⟨hv, -, -, rfl⟩ := getElem?_candidates.mp hj
    exact ⟨d.bounds, hv, of_decide_eq_true hchoice⟩
  · rintro ⟨v, hv, hchoice⟩
    obtain ⟨hj, rfl⟩ := List.getElem?_eq_some_iff.mp hv
    have hjc : j < (candidates m c.coefficients).length := by rwa [length_candidates ha]
    obtain ⟨hbounds, -, -, hindex⟩ := getElem?_candidates.mp (List.getElem?_eq_getElem hjc)
    refine ⟨_, List.mem_filter.mpr ⟨List.getElem_mem hjc, decide_eq_true ?_⟩, hindex⟩
    rw [← Option.some.inj (hv.symm.trans hbounds)]
    exact hchoice

/-- Without a conflict every candidate is taken, left out or free. -/
theorem decided_perm {cs : List (Candidate α)}
    (h : ∀ d ∈ cs, choice τ d.bounds ≠ .impossible) :
    (decided τ .taken cs ++ decided τ .leftOut cs ++ decided τ .free cs).Perm
      (cs.map (·.item.index)) := by
  induction cs using List.reverseRecOn with
  | nil => exact List.Perm.refl _
  | append_singleton cs d ih =>
    have hrest := ih fun e he => h e (List.mem_append_left _ he)
    have hd := h d (List.mem_append_right _ (List.mem_singleton_self d))
    rw [decided_snoc, decided_snoc, decided_snoc, List.map_append]
    rw [List.perm_iff_count] at hrest ⊢
    intro j
    have hj := hrest j
    simp only [List.count_append] at hj ⊢
    cases hchoice : choice τ d.bounds with
    | impossible => exact absurd hchoice hd
    | free => simp; omega
    | taken => simp; omega
    | leftOut => simp; omega

theorem items_perm (τ : α) (m : Model α) (c : Constraint α) :
    ((problem τ m c).items.map (·.index)).Perm (decided τ .free (candidates m c.coefficients)) := by
  refine ((List.mergeSort_perm _ _).map _).trans ?_
  rw [List.map_map]
  exact List.Perm.refl _

theorem items_nodup (h : Accepts m c) : ((problem τ m c).items.map (·.index)).Nodup := by
  have hsub : (decided τ .free (candidates m c.coefficients)).Sublist
      ((candidates m c.coefficients).map (·.item.index)) := List.filter_sublist.map _
  rw [index_candidates h] at hsub
  exact (items_perm τ m c).nodup_iff.mpr (List.nodup_range.sublist hsub)

/-- No position belongs to an item in front and to one behind. -/
theorem items_apart (τ : α) (h : Accepts m c) (k : Nat) {j : Nat}
    (hfront : j ∈ ((problem τ m c).items.take k).map (·.index)) :
    j ∉ ((problem τ m c).items.drop k).map (·.index) := by
  have hitems : ((problem τ m c).items.map (·.index)).Nodup := items_nodup h
  rw [← List.take_append_drop k (problem τ m c).items, List.map_append] at hitems
  intro hbehind
  exact (List.nodup_append.mp hitems).2.2 j hfront j hbehind rfl

/-- The node that the bounds of some candidates decide. -/
structure Forced (τ : α) (cs : List (Candidate α)) (node : Node α) : Prop where
  depth : node.depth = 0
  included : node.included.Perm (decided τ .taken cs)
  excluded : node.excluded.Perm (decided τ .leftOut cs)

namespace Forced

variable {cs : List (Candidate α)} {node : Node α}

theorem not_mem (h : Forced τ cs node) {j : Nat} (hj : j ∉ cs.map (·.item.index)) :
    j ∉ node.included ∧ j ∉ node.excluded :=
  ⟨fun hmem => hj (mem_index_of_mem_decided (h.included.mem_iff.mp hmem)),
    fun hmem => hj (mem_index_of_mem_decided (h.excluded.mem_iff.mp hmem))⟩

theorem step (h : Forced τ cs node) {d : Candidate α}
    (hnew : d.item.index ∉ cs.map (·.item.index)) : Forced τ (cs ++ [d]) (node.fix τ d) := by
  obtain ⟨hnewincluded, hnewexcluded⟩ := h.not_mem hnew
  obtain ⟨hdepth, hincluded, hexcluded⟩ := h
  unfold Node.fix
  constructor
  · cases choice τ d.bounds <;> exact hdepth
  · rw [decided_snoc]
    cases hchoice : choice τ d.bounds with
    | taken =>
      rw [if_pos rfl]
      exact (insertPosition_perm hnewincluded).trans
        ((hincluded.cons _).trans (List.perm_append_singleton _ _).symm)
    | free | leftOut | impossible => simpa using hincluded
  · rw [decided_snoc]
    cases hchoice : choice τ d.bounds with
    | leftOut =>
      rw [if_pos rfl]
      exact (insertPosition_perm hnewexcluded).trans
        ((hexcluded.cons _).trans (List.perm_append_singleton _ _).symm)
    | free | taken | impossible => simpa using hexcluded

end Forced

/-- The decisions that bounds make, one candidate after the other. -/
theorem forced_foldl {cs : List (Candidate α)} (hnd : (cs.map (·.item.index)).Nodup) :
    Forced τ cs (cs.foldl (Node.fix τ) ⟨0, [], [], 0, 0⟩) := by
  induction cs using List.reverseRecOn with
  | nil => exact ⟨rfl, List.Perm.refl _, List.Perm.refl _⟩
  | append_singleton cs d ih =>
    rw [List.map_append, List.nodup_append] at hnd
    obtain ⟨hnd, -, hdisjoint⟩ := hnd
    have hnew : d.item.index ∉ cs.map (·.item.index) := fun hmem =>
      hdisjoint _ hmem _ (List.mem_singleton_self _) rfl
    rw [List.foldl_append, List.foldl_cons, List.foldl_nil]
    exact (ih hnd).step hnew

theorem root_forced (τ : α) (h : Accepts m c) :
    Forced τ (candidates m c.coefficients) (problem τ m c).root :=
  forced_foldl (index_candidates h ▸ List.nodup_range)

end positions

/-! ## Deciding one item after the other -/

/-- The nodes that decisions on the first items lead to, within the capacity or
    not. -/
inductive Problem.Reached {α : Type} [Scalar α] (p : Problem α) : Node α → Prop where
  | root : p.Reached p.root
  | child {node next : Node α} {taken : Bool} (hnode : p.Reached node)
      (h : p.child? node taken = some next) : p.Reached next

section partition

variable {α : Type} [Scalar α] {τ : α} {m : Model α} {c : Constraint α} {node : Node α}

/-- Each position is taken, left out, or belongs to an item that is open. -/
structure Partition (τ : α) (m : Model α) (c : Constraint α) (node : Node α) : Prop where
  depth : node.depth ≤ (problem τ m c).items.length
  positions : (node.included ++ node.excluded ++
    ((problem τ m c).items.drop node.depth).map (·.index)).Perm (List.range m.vars.length)

theorem root_partition (h : Accepts m c) (hconflict : (problem τ m c).conflict = none) :
    Partition τ m c (problem τ m c).root := by
  obtain ⟨hdepth, hincluded, hexcluded⟩ := root_forced τ h
  have hpossible : ∀ d ∈ candidates m c.coefficients, choice τ d.bounds ≠ .impossible := by
    rw [conflict_eq_none h, ← bounds_candidates h, List.forall_mem_map] at hconflict
    exact hconflict
  refine ⟨hdepth ▸ Nat.zero_le _, ?_⟩
  rw [hdepth, List.drop_zero, ← index_candidates h]
  exact ((hincluded.append hexcluded).append (items_perm τ m c)).trans (decided_perm hpossible)

namespace Partition

variable {item : Item α}

/-- What a node has decided is what its open items leave. -/
theorem mem_iff (h : Partition τ m c node) (j : Nat) :
    j ∈ node.included ∨ j ∈ node.excluded ↔
      j < m.vars.length ∧ j ∉ ((problem τ m c).items.drop node.depth).map (·.index) := by
  have hall := h.positions.mem_iff (a := j)
  rw [List.mem_append, List.mem_append, List.mem_range] at hall
  -- No position is listed twice, so no decided one is an open item's.
  have hnodup := h.positions.nodup_iff.mpr List.nodup_range
  have hapart := (List.nodup_append.mp hnodup).2.2
  constructor
  · intro hj
    exact ⟨hall.mp (.inl hj), fun hopen => hapart j (List.mem_append.mpr hj) j hopen rfl⟩
  · rintro ⟨hlt, hnot⟩
    exact (hall.mpr hlt).resolve_right hnot

theorem not_mem_of_open (h : Partition τ m c node)
    (hitem : item ∈ (problem τ m c).items.drop node.depth) :
    item.index ∉ node.included ∧ item.index ∉ node.excluded := by
  have hopen : item.index ∈ ((problem τ m c).items.drop node.depth).map (·.index) :=
    List.mem_map_of_mem hitem
  exact ⟨fun hmem => ((h.mem_iff item.index).mp (.inl hmem)).2 hopen,
    fun hmem => ((h.mem_iff item.index).mp (.inr hmem)).2 hopen⟩

/-- The item that is decided next is still open. -/
theorem index_not_mem (h : Partition τ m c node)
    (hitem : (problem τ m c).items[node.depth]? = some item) :
    item.index ∉ node.included ∧ item.index ∉ node.excluded := by
  refine h.not_mem_of_open ?_
  obtain ⟨hdepth, rfl⟩ := List.getElem?_eq_some_iff.mp hitem
  rw [List.drop_eq_getElem_cons hdepth]
  exact List.mem_cons_self

theorem after_exclude (h : Partition τ m c node)
    (hitem : (problem τ m c).items[node.depth]? = some item) :
    Partition τ m c (node.exclude item) := by
  have hnew := (h.index_not_mem hitem).2
  obtain ⟨hdepth, rfl⟩ := List.getElem?_eq_some_iff.mp hitem
  refine ⟨hdepth, List.Perm.trans ?_ h.positions⟩
  rw [List.drop_eq_getElem_cons hdepth, List.map_cons, List.append_assoc, List.append_assoc]
  refine List.Perm.append_left _ ?_
  exact ((insertPosition_perm hnew).append_right _).trans List.perm_middle.symm

theorem after_include (h : Partition τ m c node)
    (hitem : (problem τ m c).items[node.depth]? = some item) :
    Partition τ m c (node.include item) := by
  have hnew := (h.index_not_mem hitem).1
  obtain ⟨hdepth, rfl⟩ := List.getElem?_eq_some_iff.mp hitem
  refine ⟨hdepth, List.Perm.trans ?_ h.positions⟩
  rw [List.drop_eq_getElem_cons hdepth, List.map_cons]
  refine (((insertPosition_perm hnew).append_right _).append_right _).trans ?_
  exact List.perm_middle.symm

end Partition

/-- Deciding one item after the other keeps the positions apart. -/
theorem partition_of_reached (ha : Accepts m c) (hconflict : (problem τ m c).conflict = none)
    (h : (problem τ m c).Reached node) : Partition τ m c node := by
  induction h with
  | root => exact root_partition ha hconflict
  | @child node next taken _ hchild ih =>
    obtain ⟨item, hitem, rfl⟩ := Option.map_eq_some_iff.mp hchild
    cases taken with
    | false => exact ih.after_exclude hitem
    | true => exact ih.after_include hitem

end partition

end Knapsack

end IntegerProgramming
