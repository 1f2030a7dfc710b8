import IntegerProgramming.Proofs.Knapsack.Selections

/-! # The fractional optimum

    At a node that is within the capacity the greedy bound is the most that
    fractions of the undecided items can add to the node's value.  That nothing
    adds more is `le_fill`; here the fractions that the filling takes are written
    down (`greedy`), and they fit, add up to the bound, and cut one item at
    most.

    Which items are undecided is read off the positions that a node takes and
    leaves out, not off its depth: every decision made so far was on a front
    item (`Consistent.undecided_eq`). -/

namespace IntegerProgramming

open Exact

namespace Knapsack

/-! ## The fractions that a filling takes -/

/-- The fraction of each position that the filling of a capacity takes. -/
def greedy : List (Item Exact) → ℚ → ℕ → ℚ
  | [], _ => fun _ => 0
  | item :: items, capacity =>
    if item.value.toRat ≤ 0 then greedy items capacity
    else if item.weight.toRat ≤ capacity then
      Function.update (greedy items (capacity - item.weight.toRat)) item.index 1
    else Function.update (fun _ => 0) item.index (capacity / item.weight.toRat)

/-- Totals over the items do not see what happens at other positions. -/
theorem total_update {items : List (Item Exact)} {j : ℕ} (hj : j ∉ items.map (·.index))
    (f : Item Exact → ℚ) (x : ℕ → ℚ) (q : ℚ) :
    (items.map fun i => f i * Function.update x j q i.index).sum =
      (items.map fun i => f i * x i.index).sum := by
  refine congrArg _ (List.map_congr_left fun i hi => ?_)
  rw [Function.update_of_ne]
  rintro rfl
  exact hj (List.mem_map_of_mem hi)

/-- The total over no fractions is nothing. -/
theorem total_zero (items : List (Item Exact)) (f : Item Exact → ℚ) :
    (items.map fun i => f i * (fun _ : ℕ => (0 : ℚ)) i.index).sum = 0 := by
  simp

theorem greedy_of_not_mem {items : List (Item Exact)} {capacity : ℚ} {j : ℕ}
    (hj : j ∉ items.map (·.index)) : greedy items capacity j = 0 := by
  fun_induction greedy items capacity with
  | case1 => rfl
  | case2 item items capacity hvalue ih => exact ih (List.not_mem_of_not_mem_cons hj)
  | case3 item items capacity hvalue hfits ih =>
    rw [Function.update_of_ne (List.ne_of_not_mem_cons hj)]
    exact ih (List.not_mem_of_not_mem_cons hj)
  | case4 item items capacity hvalue hcut =>
    rw [Function.update_of_ne (List.ne_of_not_mem_cons hj)]

theorem greedy_unit {items : List (Item Exact)} {capacity : ℚ} (hcapacity : 0 ≤ capacity) (j : ℕ) :
    0 ≤ greedy items capacity j ∧ greedy items capacity j ≤ 1 := by
  fun_induction greedy items capacity with
  | case1 => exact ⟨le_rfl, zero_le_one⟩
  | case2 item items capacity hvalue ih => exact ih hcapacity
  | case3 item items capacity hvalue hfits ih =>
    rcases eq_or_ne j item.index with rfl | hj
    · rw [Function.update_self]
      exact ⟨zero_le_one, le_rfl⟩
    · rw [Function.update_of_ne hj]
      exact ih (sub_nonneg.mpr hfits)
  | case4 item items capacity hvalue hcut =>
    have hless : capacity ≤ item.weight.toRat := (not_le.mp hcut).le
    rcases eq_or_ne j item.index with rfl | hj
    · rw [Function.update_self]
      exact ⟨div_nonneg hcapacity (hcapacity.trans hless),
        div_le_one_of_le₀ hless (hcapacity.trans hless)⟩
    · rw [Function.update_of_ne hj]
      exact ⟨le_rfl, zero_le_one⟩

/-- At most one position is taken in part. -/
theorem greedy_cut (items : List (Item Exact)) (capacity : ℚ) :
    {j | 0 < greedy items capacity j ∧ greedy items capacity j < 1}.Subsingleton := by
  fun_induction greedy items capacity with
  | case1 => exact fun j hj => absurd hj.1 (lt_irrefl 0)
  | case2 item items capacity hvalue ih => exact ih
  | case3 item items capacity hvalue hfits ih =>
    -- The item that fits is taken whole.
    refine ih.anti fun j ⟨hpos, hlt⟩ => ?_
    have hj : j ≠ item.index := by
      rintro rfl
      rw [Function.update_self] at hlt
      exact lt_irrefl 1 hlt
    rw [Function.update_of_ne hj] at hpos hlt
    exact ⟨hpos, hlt⟩
  | case4 item items capacity hvalue hcut =>
    -- Everything behind the item that is cut is left.
    refine (Set.subsingleton_singleton (a := item.index)).anti fun j ⟨hpos, _⟩ => ?_
    by_contra hj
    rw [Function.update_of_ne hj] at hpos
    exact lt_irrefl 0 hpos

/-- The filling fits. -/
theorem load_greedy {items : List (Item Exact)} (hnodup : (items.map (·.index)).Nodup)
    {capacity : ℚ} (hcapacity : 0 ≤ capacity) : load items (greedy items capacity) ≤ capacity := by
  unfold load
  fun_induction greedy items capacity with
  | case1 => exact hcapacity
  | case2 item items capacity hvalue ih =>
    rw [List.map_cons, List.nodup_cons] at hnodup
    rw [List.map_cons, List.sum_cons, greedy_of_not_mem hnodup.1, mul_zero, zero_add]
    exact ih hnodup.2 hcapacity
  | case3 item items capacity hvalue hfits ih =>
    rw [List.map_cons, List.nodup_cons] at hnodup
    rw [List.map_cons, List.sum_cons, Function.update_self, mul_one,
      total_update hnodup.1 (fun i => i.weight.toRat)]
    linarith [ih hnodup.2 (sub_nonneg.mpr hfits)]
  | case4 item items capacity hvalue hcut =>
    have hweight : 0 < item.weight.toRat := hcapacity.trans_lt (not_le.mp hcut)
    rw [List.map_cons, List.nodup_cons] at hnodup
    rw [List.map_cons, List.sum_cons, Function.update_self,
      total_update hnodup.1 (fun i => i.weight.toRat), total_zero, add_zero,
      mul_div_cancel₀ _ hweight.ne']

/-- The filling is worth what the greedy bound adds. -/
theorem fill_eq_worth {items : List (Item Exact)} (hitems : ∀ i ∈ items, i.IsRational)
    (hnodup : (items.map (·.index)).Nodup) {capacity : ℚ} (hcapacity : 0 ≤ capacity) (value : ℚ) :
    fill items (rational capacity) (rational value) =
      rational (value + worth items (greedy items capacity)) := by
  unfold worth
  fun_induction greedy items capacity generalizing value with
  | case1 => simp [fill]
  | case2 item items capacity hvalue ih =>
    obtain ⟨hitem, hitems⟩ := List.forall_mem_cons.mp hitems
    rw [List.map_cons, List.nodup_cons] at hnodup
    rw [fill_cons hitem items hcapacity, if_pos hvalue, ih hitems hnodup.2 hcapacity,
      List.map_cons, List.sum_cons, greedy_of_not_mem hnodup.1, mul_zero, zero_add]
  | case3 item items capacity hvalue hfits ih =>
    obtain ⟨hitem, hitems⟩ := List.forall_mem_cons.mp hitems
    rw [List.map_cons, List.nodup_cons] at hnodup
    rw [fill_cons hitem items hcapacity, if_neg hvalue, if_pos hfits,
      ih hitems hnodup.2 (sub_nonneg.mpr hfits), List.map_cons, List.sum_cons,
      Function.update_self, mul_one, total_update hnodup.1 (fun i => i.value.toRat), add_assoc]
  | case4 item items capacity hvalue hcut =>
    obtain ⟨hitem, hitems⟩ := List.forall_mem_cons.mp hitems
    rw [List.map_cons, List.nodup_cons] at hnodup
    rw [fill_cons hitem items hcapacity, if_neg hvalue, if_neg hcut, List.map_cons,
      List.sum_cons, Function.update_self, total_update hnodup.1 (fun i => i.value.toRat),
      total_zero, add_zero, mul_comm]

/-! ## Undecided items -/

/-- The items that a node neither takes nor leaves out. -/
def Problem.undecided {α : Type} (p : Problem α) (node : Node α) : List (Item α) :=
  p.items.filter fun i => i.index ∉ node.included ∧ i.index ∉ node.excluded

section nodes

variable {τ : Exact} {m : Model Exact} {c : Constraint Exact} {node : Node Exact}

/-- The items behind the depth of a node are those it has not decided. -/
theorem Consistent.undecided_eq (h : Consistent τ m c node) (ha : Accepts m c) :
    (problem τ m c).undecided node = (problem τ m c).items.drop node.depth := by
  have hfront : ∀ i ∈ (problem τ m c).items.take node.depth,
      ¬ (i.index ∉ node.included ∧ i.index ∉ node.excluded) := by
    intro i hi hneither
    -- The position of a front item is listed, but not behind the depth.
    obtain ⟨d, hd, -, rfl⟩ := mem_items.mp (List.mem_of_mem_take hi)
    have hrange : d.item.index ∈ List.range m.vars.length := by
      rw [← index_candidates ha]
      exact List.mem_map_of_mem hd
    have hdecided := (h.partition.mem_iff d.item.index).mpr
      ⟨List.mem_range.mp hrange, items_apart τ ha _ (List.mem_map_of_mem hi)⟩
    rcases hdecided with hin | hout
    · exact hneither.1 hin
    · exact hneither.2 hout
  have hback : ∀ i ∈ (problem τ m c).items.drop node.depth,
      i.index ∉ node.included ∧ i.index ∉ node.excluded := fun i hi =>
    h.partition.not_mem_of_open hi
  unfold Problem.undecided
  rw [← List.take_append_drop node.depth (problem τ m c).items, List.filter_append,
    List.filter_eq_nil_iff.mpr (by simpa using hfront),
    List.filter_eq_self.mpr (by simpa using hback), List.nil_append]
  simp

end nodes

/-! ## Filling a node up -/

/-- Fractions of the undecided items that stay within the capacity. -/
structure Problem.Fills (p : Problem Exact) (node : Node Exact) (x : ℕ → ℚ) : Prop where
  unit : ∀ i ∈ p.undecided node, 0 ≤ x i.index ∧ x i.index ≤ 1
  within : node.weight + rational (load (p.undecided node) x) ≤ p.capacity

/-- The node's value with that of fractions of the undecided items. -/
def Problem.filled (p : Problem Exact) (node : Node Exact) (x : ℕ → ℚ) : Exact :=
  node.value + rational (worth (p.undecided node) x)

section optimum

variable {τ : Exact} {m : Model Exact} {c : Constraint Exact} {node : Node Exact}

/-- What the problem asks of fractions, in rational numbers. -/
theorem Consistent.fills_iff (h : Consistent τ m c node) (hm : m.RationalRows) (ha : Accepts m c)
    (x : ℕ → ℚ) : (problem τ m c).Fills node x ↔
      (∀ i ∈ (problem τ m c).items.drop node.depth, 0 ≤ x i.index ∧ x i.index ≤ 1) ∧
        load ((problem τ m c).items.drop node.depth) x ≤
          c.rhs.toRat - (node.included.map (weightAt c)).sum := by
  have hrhs : (problem τ m c).capacity = rational c.rhs.toRat := (hm.constraints c ha.mem).rhs
  rw [le_sub_iff_add_le', ← rational_le, ← rational_add, ← hrhs, ← h.tallies.weight,
    ← h.undecided_eq ha]
  exact ⟨fun hx => ⟨hx.unit, hx.within⟩, fun hx => ⟨hx.1, hx.2⟩⟩

theorem Consistent.filled_eq (h : Consistent τ m c node) (ha : Accepts m c) (x : ℕ → ℚ) :
    (problem τ m c).filled node x = rational ((node.included.map (valueAt m)).sum +
      worth ((problem τ m c).items.drop node.depth) x) := by
  rw [Problem.filled, h.undecided_eq ha, h.tallies.value, rational_add]

/-- The greedy bound of a node within the capacity is the most that fractions
    of the undecided items make of it.  A filling that cuts one item at most
    reaches it, and no selection below the node that is within the capacity is
    worth more. -/
theorem upperBound_isGreatest {p : Problem Exact} (hm : m.RationalRows)
    (hmodel : ofModel τ m = .ok p) (hconflict : p.conflict = none) (hnode : p.Reached node)
    (hroom : node.weight ≤ p.capacity) :
    p.upperBound? node = some (p.upperBound node) ∧
      IsGreatest {total | ∃ x, p.Fills node x ∧ p.filled node x = total} (p.upperBound node) ∧
      (∃ x, p.Fills node x ∧ p.filled node x = p.upperBound node ∧
        {j | 0 < x j ∧ x j < 1}.Subsingleton) ∧
      ∀ x, m.ZeroOne x → Agrees node x →
        (∀ c ∈ m.constraints, linear c.coefficients x ≤ c.rhs.toRat) →
        rational (linear m.objective x) ≤ p.upperBound node := by
  obtain ⟨c, ha, rfl⟩ := ofModel_ok hmodel
  have h := consistent_of_reached hm ha hconflict hnode
  have hrhs : (problem τ m c).capacity = rational c.rhs.toRat := (hm.constraints c ha.mem).rhs
  have hrest : ∀ i ∈ (problem τ m c).items.drop node.depth, i.IsRational := fun i hi =>
    (items_isRational hm ha i (List.mem_of_mem_drop hi)).1
  have hsorted := (items_sorted τ m c).sublist (List.drop_sublist node.depth _)
  have hnodup := (items_nodup (τ := τ) ha).sublist ((List.drop_sublist node.depth _).map _)
  have hleft : 0 ≤ c.rhs.toRat - (node.included.map (weightAt c)).sum := by
    rw [hrhs, h.tallies.weight, rational_le] at hroom
    exact sub_nonneg.mpr hroom
  have hbound : (problem τ m c).upperBound node = fill ((problem τ m c).items.drop node.depth)
      (rational (c.rhs.toRat - (node.included.map (weightAt c)).sum))
      (rational (node.included.map (valueAt m)).sum) := by
    unfold Problem.upperBound
    rw [hrhs, h.tallies.weight, h.tallies.value, rational_sub]
  have hattained : ∃ x, (problem τ m c).Fills node x ∧
      (problem τ m c).filled node x = (problem τ m c).upperBound node ∧
        {j | 0 < x j ∧ x j < 1}.Subsingleton := by
    refine ⟨greedy ((problem τ m c).items.drop node.depth)
      (c.rhs.toRat - (node.included.map (weightAt c)).sum), ?_, ?_, greedy_cut _ _⟩
    · exact (h.fills_iff hm ha _).mpr ⟨fun i _ => greedy_unit hleft _, load_greedy hnodup hleft⟩
    · rw [h.filled_eq ha, hbound, fill_eq_worth hrest hnodup hleft]
  refine ⟨if_pos h.depth, ⟨?_, ?_⟩, hattained, ?_⟩
  · obtain ⟨x, hx, htotal, -⟩ := hattained
    exact ⟨x, hx, htotal⟩
  · rintro total ⟨x, hx, rfl⟩
    obtain ⟨hunit, hload⟩ := (h.fills_iff hm ha x).mp hx
    rw [h.filled_eq ha, hbound]
    exact le_fill hrest hsorted hleft hunit hload
  · intro x hx hagrees hholds
    exact h.le_upperBound hm ha hx hagrees (hholds c ha.mem)

/-- What a hiker can carry. -/
def pack : Constraint Exact :=
  ⟨"pack", [rational 0, rational 3, rational 4, rational 1], .atMost, rational 5⟩

/-- A map that weighs nothing, a tent, a stove, and a stone that nobody wants. -/
def hike : Model Exact where
  sense := .maximize
  vars := [⟨"map", .binary, none, none⟩, ⟨"tent", .binary, none, none⟩,
    ⟨"stove", .binary, none, none⟩, ⟨"stone", .binary, none, none⟩]
  objective := [rational 1, rational 6, rational 4, rational (-1)]
  constraints := [pack]

theorem hike_accepts : Accepts hike pack :=
  ⟨by decide, rfl, by decide, rfl, rfl, by decide, by decide⟩

theorem hike_rows : hike.RationalRows := ⟨by decide, by decide⟩

/-- With the map and the tent in the pack, half of the stove fits. -/
theorem hike_filled : ∃ p node, ofModel (rational (1 / 10)) hike = .ok p ∧
    p.child? p.root true = some node ∧ p.upperBound node = rational 9 ∧
    IsGreatest {total | ∃ x, p.Fills node x ∧ p.filled node x = total} (rational 9) ∧
    (∃ x, p.Fills node x ∧ p.filled node x = rational 9 ∧
      {j | 0 < x j ∧ x j < 1}.Subsingleton) := by
  have hproblem : problem (rational (1 / 10)) hike pack = _ :=
    ofCandidates_of_sorted rfl (by decide +kernel)
  have hmodel := ofModel_of_accepts hike_accepts (rational (1 / 10))
  obtain ⟨hconflict, hchild, hroom, hbound⟩ :
      (problem (rational (1 / 10)) hike pack).conflict = none ∧
        (problem (rational (1 / 10)) hike pack).child?
            (problem (rational (1 / 10)) hike pack).root true =
          some ⟨1, [0], [], rational 0, rational 1⟩ ∧
        rational 0 ≤ (problem (rational (1 / 10)) hike pack).capacity ∧
        (problem (rational (1 / 10)) hike pack).upperBound ⟨1, [0], [], rational 0, rational 1⟩ =
          rational 9 := by
    rw [hproblem]
    decide +kernel
  have hoptimum := upperBound_isGreatest hike_rows hmodel hconflict
    (Problem.Reached.root.child hchild) hroom
  rw [hbound] at hoptimum
  exact ⟨_, _, hmodel, hchild, hbound, hoptimum.2.1, hoptimum.2.2.1⟩

end optimum

end Knapsack

end IntegerProgramming
