import IntegerProgramming.Proofs.Knapsack.Positions

/-! # Decisions of a knapsack search

    At every node each position is taken, left out, or belongs to an item that
    is still open, and the node's value and weight are those of the positions
    taken (`Consistent`).  For the second part the sums have to be exact. -/

namespace IntegerProgramming

open Exact

/-! ## Sets of positions -/

theorem sum_insertPosition {j : Nat} {positions : List Nat} (h : j ∉ positions) (f : Nat → ℚ) :
    ((insertPosition j positions).map f).sum = (positions.map f).sum + f j := by
  rw [((insertPosition_perm h).map f).sum_eq, List.map_cons, List.sum_cons, add_comm]

/-- The objective and the constraints are rational.  Explicit bounds may be any
    numbers: of a knapsack only the choices count that they leave. -/
structure Model.RationalRows (m : Model Exact) : Prop where
  objective : AllRational m.objective
  constraints : ∀ c ∈ m.constraints, c.IsRational

theorem Model.IsRational.rows {m : Model Exact} (h : m.IsRational) : m.RationalRows :=
  ⟨h.objective, h.constraints⟩

namespace Knapsack

/-! ## Items -/

section items

variable {m : Model Exact} {c : Constraint Exact}

/-- The value of the item at a position. -/
def valueAt (m : Model Exact) (j : Nat) : ℚ := coordinate m.objective j

/-- The weight of the item at a position. -/
def weightAt (c : Constraint Exact) (j : Nat) : ℚ := coordinate c.coefficients j

theorem weightAt_nonneg (hm : m.RationalRows) (h : Accepts m c) (j : Nat) : 0 ≤ weightAt c j := by
  have hrational := (hm.constraints c h.mem).coefficients
  by_cases hj : j < c.coefficients.length
  · have hnonneg := h.weights _ (List.getElem_mem hj)
    have hweight : c.coefficients[j] = rational (weightAt c j) := by
      rw [weightAt, ← hrational.getD_eq, List.getD_eq_getElem _ _ hj]
    rw [hweight] at hnonneg
    simpa using hnonneg
  · exact (coordinate_of_length_le (Nat.not_lt.mp hj)).ge

/-- A candidate carries the value and the weight at its position. -/
theorem candidate_item (hm : m.RationalRows) (h : Accepts m c) {d : Candidate Exact}
    (hd : d ∈ candidates m c.coefficients) :
    d.item.value = rational (valueAt m d.item.index) ∧
      d.item.weight = rational (weightAt c d.item.index) := by
  obtain ⟨j, hj⟩ := List.mem_iff_getElem?.mp hd
  obtain ⟨-, hvalue, hweight, rfl⟩ := getElem?_candidates.mp hj
  unfold valueAt weightAt
  rw [← hm.objective.getD_eq, ← (hm.constraints c h.mem).coefficients.getD_eq]
  simp [hvalue, hweight]

theorem items_isRational {τ : Exact} (hm : m.RationalRows) (h : Accepts m c) :
    ∀ i ∈ (problem τ m c).items, i.IsRational ∧ i.value.toRat = valueAt m i.index ∧
      i.weight.toRat = weightAt c i.index := by
  intro i hi
  obtain ⟨d, hd, -, rfl⟩ := mem_items.mp hi
  obtain ⟨hvalue, hweight⟩ := candidate_item hm h hd
  refine ⟨⟨isRational_of_eq hvalue, isRational_of_eq hweight, ?_⟩, ?_, ?_⟩
  · rw [hweight]
    exact weightAt_nonneg hm h _
  · rw [hvalue]
    rfl
  · rw [hweight]
    rfl

end items

/-! ## Nodes -/

section nodes

variable {m : Model Exact} {c : Constraint Exact} {τ : Exact}

/-- The node's value and weight are those of the positions taken. -/
structure Tallies (m : Model Exact) (c : Constraint Exact) (node : Node Exact) : Prop where
  value : node.value = rational ((node.included.map (valueAt m)).sum)
  weight : node.weight = rational ((node.included.map (weightAt c)).sum)

/-- Taking one more item keeps the tally. -/
theorem Tallies.take {node node' : Node Exact} (h : Tallies m c node) {item : Item Exact}
    (hnew : item.index ∉ node.included) (hvalue : item.value = rational (valueAt m item.index))
    (hweight : item.weight = rational (weightAt c item.index))
    (hincluded : node'.included = insertPosition item.index node.included)
    (htotal : node'.value = node.value + item.value)
    (hload : node'.weight = node.weight + item.weight) : Tallies m c node' := by
  constructor
  · rw [htotal, h.value, hvalue, rational_add, hincluded, sum_insertPosition hnew]
  · rw [hload, h.weight, hweight, rational_add, hincluded, sum_insertPosition hnew]

/-- What bounds decide tallies, one candidate after the other. -/
theorem tallies_foldl {cs : List (Candidate Exact)} (hnd : (cs.map (·.item.index)).Nodup)
    (hcs : ∀ d ∈ cs, d.item.value = rational (valueAt m d.item.index) ∧
      d.item.weight = rational (weightAt c d.item.index)) :
    Tallies m c (cs.foldl (Node.fix τ) ⟨0, [], [], 0, 0⟩) := by
  induction cs using List.reverseRecOn with
  | nil => exact ⟨rfl, rfl⟩
  | append_singleton cs d ih =>
    rw [List.map_append, List.nodup_append] at hnd
    obtain ⟨hnd, -, hdisjoint⟩ := hnd
    have hnew : d.item.index ∉ cs.map (·.item.index) := fun hmem =>
      hdisjoint _ hmem _ (List.mem_singleton_self _) rfl
    obtain ⟨hvalue, hweight⟩ := hcs d (List.mem_append_right _ (List.mem_singleton_self d))
    have hbefore := ih hnd fun e he => hcs e (List.mem_append_left _ he)
    rw [List.foldl_append, List.foldl_cons, List.foldl_nil]
    unfold Node.fix
    cases choice τ d.bounds with
    | taken =>
      exact hbefore.take ((forced_foldl hnd).not_mem hnew).1 hvalue hweight rfl rfl rfl
    | free | leftOut | impossible => exact ⟨hbefore.value, hbefore.weight⟩

theorem root_tallies (τ : Exact) (hm : m.RationalRows) (h : Accepts m c) :
    Tallies m c (problem τ m c).root :=
  tallies_foldl (index_candidates h ▸ List.nodup_range) fun _ hd => candidate_item hm h hd

/-- Each position is taken, left out, or belongs to an item that is open. -/
structure Consistent (τ : Exact) (m : Model Exact) (c : Constraint Exact) (node : Node Exact) :
    Prop where
  depth : node.depth ≤ (problem τ m c).items.length
  positions : (node.included ++ node.excluded ++
    ((problem τ m c).items.drop node.depth).map (·.index)).Perm (List.range m.vars.length)
  tallies : Tallies m c node

theorem root_consistent (hm : m.RationalRows) (h : Accepts m c)
    (hconflict : (problem τ m c).conflict = none) : Consistent τ m c (problem τ m c).root := by
  obtain ⟨hdepth, hpositions⟩ := root_partition h hconflict
  exact ⟨hdepth, hpositions, root_tallies τ hm h⟩

namespace Consistent

variable {node : Node Exact} {item : Item Exact}

theorem partition (h : Consistent τ m c node) : Partition τ m c node := ⟨h.depth, h.positions⟩

theorem index_not_mem (h : Consistent τ m c node)
    (hitem : (problem τ m c).items[node.depth]? = some item) :
    item.index ∉ node.included ∧ item.index ∉ node.excluded :=
  h.partition.index_not_mem hitem

theorem after_exclude (h : Consistent τ m c node)
    (hitem : (problem τ m c).items[node.depth]? = some item) :
    Consistent τ m c (node.exclude item) := by
  obtain ⟨hdepth, hpositions⟩ := h.partition.after_exclude hitem
  exact ⟨hdepth, hpositions, ⟨h.tallies.value, h.tallies.weight⟩⟩

theorem after_include (hm : m.RationalRows) (ha : Accepts m c) (h : Consistent τ m c node)
    (hitem : (problem τ m c).items[node.depth]? = some item) :
    Consistent τ m c (node.include item) := by
  obtain ⟨hdepth, hpositions⟩ := h.partition.after_include hitem
  have hnew := (h.index_not_mem hitem).1
  obtain ⟨hrational, hvalue, hweight⟩ :=
    items_isRational hm ha item (List.mem_of_getElem? hitem)
  refine ⟨hdepth, hpositions, h.tallies.take hnew ?_ ?_ rfl rfl rfl⟩
  · rw [← hvalue]
    exact hrational.value
  · rw [← hweight]
    exact hrational.weight

end Consistent

end nodes

theorem consistent_of_reached {m : Model Exact} {c : Constraint Exact} {τ : Exact}
    {node : Node Exact} (hm : m.RationalRows) (ha : Accepts m c)
    (hconflict : (problem τ m c).conflict = none) (h : (problem τ m c).Reached node) :
    Consistent τ m c node := by
  induction h with
  | root => exact root_consistent hm ha hconflict
  | @child node next taken _ hchild ih =>
    obtain ⟨item, hitem, rfl⟩ := Option.map_eq_some_iff.mp hchild
    cases taken with
    | false => exact ih.after_exclude hitem
    | true => exact ih.after_include hm ha hitem

end Knapsack

end IntegerProgramming
