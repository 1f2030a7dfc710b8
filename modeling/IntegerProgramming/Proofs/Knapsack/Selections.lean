import IntegerProgramming.Knapsack.Solve
import IntegerProgramming.Proofs.Search.Soundness
import IntegerProgramming.Proofs.Knapsack.Decisions
import IntegerProgramming.Proofs.Knapsack.GreedyBound

/-! # Selections

    A selection takes or leaves every item.  Below a node are the selections
    that follow its decisions; their values and weights are those of the node
    and of a part of the open items, so the greedy bound holds for those that
    are within the capacity (`Consistent.le_upperBound`).

    A node is open up to a tolerance above the capacity.  All facts are stated
    for selections within some limit (`Selects`), because the tolerance moves
    the limit of what the search finds, and not the capacity that the greedy
    bound fills. -/

namespace IntegerProgramming

open Exact

/-- A point of zeros and ones. -/
def Model.ZeroOne {α : Type} (m : Model α) (x : List ℚ) : Prop :=
  x.length = m.vars.length ∧ ∀ q ∈ x, q = 0 ∨ q = 1

theorem Model.ZeroOne.getD {α : Type} {m : Model α} {x : List ℚ} (h : m.ZeroOne x) (j : Nat) :
    x.getD j 0 = 0 ∨ x.getD j 0 = 1 := by
  by_cases hj : j < x.length
  · rw [List.getD_eq_getElem _ _ hj]
    exact h.2 _ (List.getElem_mem hj)
  · exact .inl (List.getD_eq_default _ _ (Nat.not_lt.mp hj))

namespace Knapsack

/-! ## Selections below a node -/

section selections

variable {τ : Exact} {m : Model Exact} {c : Constraint Exact} {node : Node Exact} {x : List ℚ}

/-- The point follows the decisions of the node. -/
def Agrees (node : Node Exact) (x : List ℚ) : Prop :=
  (∀ j ∈ node.included, x.getD j 0 = 1) ∧ ∀ j ∈ node.excluded, x.getD j 0 = 0

/-- The selections below a node that weigh no more than a limit, with their
    values.  A conflict leaves none. -/
def Selects (τ : Exact) (m : Model Exact) (c : Constraint Exact) (limit : ℚ) (node : Node Exact)
    (xs : List Exact) (q : ℚ) : Prop :=
  (problem τ m c).conflict = none ∧ ∃ x : List ℚ, xs = x.map rational ∧ m.ZeroOne x ∧
    Agrees node x ∧ linear c.coefficients x ≤ limit ∧ q = linear m.objective x

/-- A sum over all positions counts the positions taken and the open items. -/
theorem Consistent.sum_eq (h : Consistent τ m c node) (hx : Agrees node x) (f : Nat → ℚ) :
    ∑ j ∈ Finset.range m.vars.length, f j * x.getD j 0 = (node.included.map f).sum +
      (((problem τ m c).items.drop node.depth).map fun i =>
        f i.index * x.getD i.index 0).sum := by
  have hall : ∑ j ∈ Finset.range m.vars.length, f j * x.getD j 0 =
      ((List.range m.vars.length).map fun j => f j * x.getD j 0).sum := rfl
  have htaken : (node.included.map fun j => f j * x.getD j 0) = node.included.map f :=
    List.map_congr_left fun j hj => by rw [hx.1 j hj, mul_one]
  have hleft : (node.excluded.map fun j => f j * x.getD j 0).sum = 0 := by
    refine List.sum_eq_zero fun q hq => ?_
    obtain ⟨j, hj, rfl⟩ := List.mem_map.mp hq
    rw [hx.2 j hj, mul_zero]
  -- All positions are those taken, those left out and the open items.
  rw [hall, ← (h.positions.map _).sum_eq, List.map_append, List.map_append, List.sum_append,
    List.sum_append, htaken, hleft, add_zero, List.map_map]
  rfl

theorem Consistent.value_eq (h : Consistent τ m c node) (hm : m.RationalRows) (ha : Accepts m c)
    (hx : Agrees node x) : linear m.objective x = (node.included.map (valueAt m)).sum +
      worth ((problem τ m c).items.drop node.depth) fun j => x.getD j 0 := by
  unfold linear worth
  rw [ha.aligned.objective]
  refine (h.sum_eq hx (valueAt m)).trans (congrArg _ (congrArg _ ?_))
  exact List.map_congr_left fun i hi => by
    rw [(items_isRational hm ha i (List.mem_of_mem_drop hi)).2.1]

theorem Consistent.weight_eq (h : Consistent τ m c node) (hm : m.RationalRows) (ha : Accepts m c)
    (hx : Agrees node x) : linear c.coefficients x = (node.included.map (weightAt c)).sum +
      load ((problem τ m c).items.drop node.depth) fun j => x.getD j 0 := by
  unfold linear load
  rw [ha.length_weights]
  refine (h.sum_eq hx (weightAt c)).trans (congrArg _ (congrArg _ ?_))
  exact List.map_congr_left fun i hi => by
    rw [(items_isRational hm ha i (List.mem_of_mem_drop hi)).2.2]

/-- The open items of a selection add no negative weight. -/
theorem Consistent.weight_le (h : Consistent τ m c node) (hm : m.RationalRows) (ha : Accepts m c)
    (hx : m.ZeroOne x) (hagrees : Agrees node x) :
    (node.included.map (weightAt c)).sum ≤ linear c.coefficients x := by
  have hopen : 0 ≤ load ((problem τ m c).items.drop node.depth) fun j => x.getD j 0 := by
    apply load_nonneg
    · intro i hi
      exact (items_isRational hm ha i (List.mem_of_mem_drop hi)).1
    · intro i _
      rcases hx.getD i.index with hzero | hone
      · rw [hzero]
      · rw [hone]
        exact zero_le_one
  rw [h.weight_eq hm ha hagrees]
  linarith

/-- The greedy bound is what no selection within the capacity beats. -/
theorem Consistent.le_upperBound (h : Consistent τ m c node) (hm : m.RationalRows)
    (ha : Accepts m c) (hx : m.ZeroOne x) (hagrees : Agrees node x)
    (hcapacity : linear c.coefficients x ≤ c.rhs.toRat) :
    rational (linear m.objective x) ≤ (problem τ m c).upperBound node := by
  have hrhs : (problem τ m c).capacity = rational c.rhs.toRat := (hm.constraints c ha.mem).rhs
  have hrest : ∀ i ∈ (problem τ m c).items.drop node.depth, i.IsRational := fun i hi =>
    (items_isRational hm ha i (List.mem_of_mem_drop hi)).1
  have hunit : ∀ i ∈ (problem τ m c).items.drop node.depth,
      0 ≤ x.getD i.index 0 ∧ x.getD i.index 0 ≤ 1 := by
    intro i _
    rcases hx.getD i.index with hzero | hone
    · rw [hzero]; exact ⟨le_rfl, zero_le_one⟩
    · rw [hone]; exact ⟨zero_le_one, le_rfl⟩
  have hroom := (h.weight_le hm ha hx hagrees).trans hcapacity
  -- What is not taken yet is a fraction of the open items that fits.
  rw [h.weight_eq hm ha hagrees] at hcapacity
  rw [h.value_eq hm ha hagrees]
  unfold Problem.upperBound
  rw [hrhs, h.tallies.weight, h.tallies.value, rational_sub]
  refine le_fill hrest ((items_sorted τ m c).sublist (List.drop_sublist _ _)) ?_ hunit ?_
  · exact sub_nonneg.mpr hroom
  · linarith

/-- Every selection leaves the next item out or takes it. -/
theorem Consistent.selects_split (h : Consistent τ m c node) {item : Item Exact}
    (hitem : (problem τ m c).items[node.depth]? = some item) (limit : ℚ) (xs : List Exact)
    (q : ℚ) :
    Selects τ m c limit node xs q ↔
      Selects τ m c limit (node.exclude item) xs q ∨
        Selects τ m c limit (node.include item) xs q := by
  obtain ⟨hnewincluded, hnewexcluded⟩ := h.index_not_mem hitem
  have hexclude (x : List ℚ) :
      Agrees (node.exclude item) x ↔ Agrees node x ∧ x.getD item.index 0 = 0 := by
    unfold Agrees Node.exclude
    simp only [(insertPosition_perm hnewexcluded).mem_iff, List.forall_mem_cons]
    rw [and_comm (a := x.getD item.index 0 = 0), and_assoc]
  have hinclude (x : List ℚ) :
      Agrees (node.include item) x ↔ Agrees node x ∧ x.getD item.index 0 = 1 := by
    unfold Agrees Node.include
    simp only [(insertPosition_perm hnewincluded).mem_iff, List.forall_mem_cons]
    rw [and_comm (a := x.getD item.index 0 = 1), and_right_comm]
  unfold Selects
  rw [← and_or_left]
  refine and_congr_right fun _ => ?_
  simp only [hexclude, hinclude]
  constructor
  · rintro ⟨x, hxs, hx, hagrees, hrest⟩
    rcases hx.getD item.index with hzero | hone
    · exact .inl ⟨x, hxs, hx, ⟨hagrees, hzero⟩, hrest⟩
    · exact .inr ⟨x, hxs, hx, ⟨hagrees, hone⟩, hrest⟩
  · rintro (⟨x, hxs, hx, ⟨hagrees, -⟩, hrest⟩ | ⟨x, hxs, hx, ⟨hagrees, -⟩, hrest⟩)
    · exact ⟨x, hxs, hx, hagrees, hrest⟩
    · exact ⟨x, hxs, hx, hagrees, hrest⟩

/-- The selection that takes exactly the positions taken at a node. -/
def selection (m : Model Exact) (node : Node Exact) : List ℚ :=
  (List.range m.vars.length).map fun j => if j ∈ node.included then 1 else 0

theorem indicator_eq (τ : Exact) (m : Model Exact) (c : Constraint Exact) (node : Node Exact) :
    (problem τ m c).indicator node = (selection m node).map rational := by
  have hnames : (problem τ m c).names.length = m.vars.length := List.length_map ..
  unfold Problem.indicator selection
  rw [hnames, List.map_map]
  refine List.map_congr_left fun j _ => ?_
  dsimp only [Function.comp_apply]
  split <;> rfl

theorem selection_zeroOne (m : Model Exact) (node : Node Exact) :
    m.ZeroOne (selection m node) := by
  refine ⟨by simp [selection], fun q hq => ?_⟩
  obtain ⟨j, -, rfl⟩ := List.mem_map.mp hq
  split
  · exact .inr rfl
  · exact .inl rfl

theorem Consistent.agrees_selection (h : Consistent τ m c node) :
    Agrees node (selection m node) := by
  have hlt : ∀ j ∈ node.included ++ node.excluded, j < m.vars.length := fun j hj =>
    List.mem_range.mp (h.positions.mem_iff.mp (List.mem_append_left _ hj))
  have hvalue : ∀ j < m.vars.length,
      (selection m node).getD j 0 = if j ∈ node.included then 1 else 0 := by
    intro j hj
    simp [selection, hj]
  -- No position is both taken and left out.
  have hnodup := h.positions.nodup_iff.mpr List.nodup_range
  have hdisjoint := (List.nodup_append.mp (List.nodup_append.mp hnodup).1).2.2
  constructor
  · intro j hj
    rw [hvalue j (hlt j (List.mem_append_left _ hj)), if_pos hj]
  · intro j hj
    rw [hvalue j (hlt j (List.mem_append_right _ hj)),
      if_neg fun hincluded => hdisjoint j hincluded j hj rfl]

/-- At a node with all items decided, every completion has the node's value. -/
theorem Consistent.value_of_complete (h : Consistent τ m c node) (hm : m.RationalRows)
    (ha : Accepts m c) (hcomplete : node.depth = (problem τ m c).items.length) {x : List ℚ}
    (hx : Agrees node x) : linear m.objective x = (node.included.map (valueAt m)).sum ∧
      linear c.coefficients x = (node.included.map (weightAt c)).sum := by
  rw [h.value_eq hm ha hx, h.weight_eq hm ha hx, hcomplete, List.drop_length]
  exact ⟨add_zero _, add_zero _⟩

end selections

/-! ## What examining a node shows -/

section evaluation

variable {α : Type} [Scalar α] {p : Problem α} {node : Node α}

theorem obstacle_eq_none : p.obstacle node = none ↔
    p.conflict = none ∧ ¬ p.capacity + p.tolerance < node.weight := by
  unfold Problem.obstacle
  rw [Option.or_eq_none_iff]
  refine and_congr_right fun _ => ?_
  by_cases hweight : p.capacity + p.tolerance < node.weight <;> simp [hweight]

theorem evaluate_bounded {b : Bounded α} (h : p.scheme.evaluate node = .ok (.bounded b)) :
    p.conflict = none ∧ (¬ p.capacity + p.tolerance < node.weight) ∧
      b = ⟨p.upperBound node, node.value, p.indicator node⟩ := by
  have hevaluate : p.evaluate node = .bounded b := Except.ok.inj h
  unfold Problem.evaluate at hevaluate
  cases hobstacle : p.obstacle node with
  | some reason => rw [hobstacle] at hevaluate; cases hevaluate
  | none =>
    rw [hobstacle] at hevaluate
    cases hevaluate
    exact ⟨(obstacle_eq_none.mp hobstacle).1, (obstacle_eq_none.mp hobstacle).2, rfl⟩

theorem evaluate_infeasible {reason : Infeasibility α}
    (h : p.scheme.evaluate node = .ok (.infeasible reason)) (hconflict : p.conflict = none) :
    p.capacity + p.tolerance < node.weight := by
  have hevaluate : p.evaluate node = .infeasible reason := Except.ok.inj h
  unfold Problem.evaluate at hevaluate
  by_contra hweight
  rw [obstacle_eq_none.mpr ⟨hconflict, hweight⟩] at hevaluate
  cases hevaluate

theorem evaluate_ne_unbounded : p.scheme.evaluate node ≠ .ok .unbounded := by
  intro h
  have hevaluate : p.evaluate node = .unbounded := Except.ok.inj h
  unfold Problem.evaluate at hevaluate
  split at hevaluate
  · cases hevaluate
  · cases hevaluate

/-- The next item is left out, or taken, and the labels carry its name. -/
theorem branch_ok {b : Bounded α} {lower upper : Branching α × Node α}
    (h : p.scheme.branch node b = .ok (lower, upper)) :
    ∃ item, p.items[node.depth]? = some item ∧ lower.2 = node.exclude item ∧
      upper.2 = node.include item ∧ lower.1 = ⟨p.names.getD item.index "", .down, 0⟩ ∧
      upper.1 = ⟨p.names.getD item.index "", .up, 1⟩ := by
  have hbranch : p.branch node = .ok (lower, upper) := h
  unfold Problem.branch at hbranch
  cases hitem : p.items[node.depth]? with
  | none => rw [hitem] at hbranch; cases hbranch
  | some item =>
    rw [hitem] at hbranch
    cases hbranch
    exact ⟨item, rfl, rfl, rfl, rfl, rfl⟩

/-- A node that is not complete has an item left to decide. -/
theorem branch_of_incomplete (hcovers : p.Covers node) {b : Bounded α}
    (h : p.scheme.isComplete node b = false) :
    ∃ children, p.scheme.branch node b = .ok children := by
  have hne : node.depth ≠ p.items.length := of_decide_eq_false h
  have hlt : node.depth < p.items.length := lt_of_le_of_ne hcovers hne
  show ∃ children, p.branch node = .ok children
  unfold Problem.branch
  rw [List.getElem?_eq_getElem hlt]
  exact ⟨_, rfl⟩

/-- No node of a knapsack search fails. -/
theorem not_breaksAt (hcovers : p.Covers node) (failure : Failure α) :
    ¬ p.scheme.BreaksAt node failure := by
  rintro (hevaluate | ⟨b, -, hcomplete, hbranch⟩)
  · cases hevaluate
  · obtain ⟨children, hchildren⟩ := branch_of_incomplete hcovers hcomplete
    rw [hbranch] at hchildren
    cases hchildren

/-- A model that is accepted is answered by a search. -/
theorem solve_of_accepts {m : Model α} {c : Constraint α} (ha : Accepts m c) (steps : Nat)
    (settings : Search.Settings α) :
    solve steps settings m = Search.run steps (problem settings.tolerance m c).scheme
      (problem settings.tolerance m c).root settings := by
  unfold solve report
  rw [ofModel_of_accepts ha]
  rfl

end evaluation

/-! ## Nodes of a search -/

section nodes

variable {τ : Exact} {m : Model Exact} {c : Constraint Exact} {node : Node Exact}

/-- A node of the search decides items one after the other. -/
theorem reached_of_reachable {p : Problem Exact} (h : p.scheme.Reachable p.root node) :
    p.Reached node := by
  induction h with
  | refl => exact .root
  | @tail parent child _ hchild ih =>
    obtain ⟨b, lower, upper, -, -, hbranch, hside⟩ := hchild
    obtain ⟨item, hitem, hlower, hupper, -⟩ := branch_ok hbranch
    rcases hside with rfl | rfl
    · have hleft : p.child? parent false = some lower.2 := by simp [Problem.child?, hitem, hlower]
      exact ih.child hleft
    · have htaken : p.child? parent true = some upper.2 := by simp [Problem.child?, hitem, hupper]
      exact ih.child htaken

theorem consistent_of_reachable (hm : m.RationalRows) (ha : Accepts m c)
    (hconflict : (problem τ m c).conflict = none)
    (h : (problem τ m c).scheme.Reachable (problem τ m c).root node) : Consistent τ m c node :=
  consistent_of_reached hm ha hconflict (reached_of_reachable h)

/-- Selections below a node are selections below the root. -/
theorem selects_root_of_reachable (hm : m.RationalRows) (ha : Accepts m c)
    (h : (problem τ m c).scheme.Reachable (problem τ m c).root node) {limit : ℚ}
    {xs : List Exact} {q : ℚ} (hx : Selects τ m c limit node xs q) :
    Selects τ m c limit (problem τ m c).root xs q := by
  induction h with
  | refl => exact hx
  | @tail parent child hparent hchild ih =>
    have hconsistent := consistent_of_reachable hm ha hx.1 hparent
    obtain ⟨b, lower, upper, -, -, hbranch, hside⟩ := hchild
    obtain ⟨item, hitem, hlower, hupper, -⟩ := branch_ok hbranch
    apply ih
    rw [hconsistent.selects_split hitem]
    rcases hside with rfl | rfl
    · left
      rwa [← hlower]
    · right
      rwa [← hupper]

variable (tol : ℚ)

/-- Below a node that is too heavy there is no selection within the limit that
    a node is held to. -/
theorem not_selects_of_infeasible (hm : m.RationalRows) (ha : Accepts m c)
    {reason : Infeasibility Exact}
    (hn : (problem (rational tol) m c).scheme.Reachable (problem (rational tol) m c).root node)
    (h : (problem (rational tol) m c).scheme.evaluate node = .ok (.infeasible reason))
    {limit : ℚ} (hlimit : limit ≤ c.rhs.toRat + tol) (xs : List Exact) (q : ℚ) :
    ¬ Selects (rational tol) m c limit node xs q := by
  rintro ⟨hconflict, x, -, hx, hagrees, hcapacity, -⟩
  have hconsistent := consistent_of_reachable hm ha hconflict hn
  have hrhs : c.rhs = rational _ := (hm.constraints c ha.mem).rhs
  have hweight : c.rhs + rational tol < node.weight := evaluate_infeasible h hconflict
  rw [hconsistent.tallies.weight, hrhs, rational_add, rational_lt] at hweight
  have hle := hconsistent.weight_le hm ha hx hagrees
  linarith

theorem le_bound_of_selects (hm : m.RationalRows) (ha : Accepts m c) {b : Bounded Exact}
    (hn : (problem τ m c).scheme.Reachable (problem τ m c).root node)
    (h : (problem τ m c).scheme.evaluate node = .ok (.bounded b)) {xs : List Exact} {q : ℚ}
    (hx : Selects τ m c c.rhs.toRat node xs q) : rational q ≤ b.bound := by
  obtain ⟨hconflict, x, -, hx, hagrees, hcapacity, rfl⟩ := hx
  obtain ⟨-, -, rfl⟩ := evaluate_bounded h
  exact (consistent_of_reachable hm ha hconflict hn).le_upperBound hm ha hx hagrees hcapacity

/-- A complete node stands for one selection, which is within the limit that a
    node is held to, and its value is that of all selections below the node. -/
theorem selects_of_complete (hm : m.RationalRows) (ha : Accepts m c) {b : Bounded Exact}
    (hn : (problem (rational tol) m c).scheme.Reachable (problem (rational tol) m c).root node)
    (h : (problem (rational tol) m c).scheme.evaluate node = .ok (.bounded b))
    (hcomplete : (problem (rational tol) m c).scheme.isComplete node b = true) :
    ∃ q, b.objective = rational q ∧
      Selects (rational tol) m c (c.rhs.toRat + tol) node b.values q ∧
        ∀ limit ys p, Selects (rational tol) m c limit node ys p → p ≤ q := by
  obtain ⟨hconflict, hweight, rfl⟩ := evaluate_bounded h
  have hconsistent := consistent_of_reachable hm ha hconflict hn
  have hdepth : node.depth = (problem (rational tol) m c).items.length :=
    of_decide_eq_true hcomplete
  have hown := hconsistent.agrees_selection
  obtain ⟨hvalue, hload⟩ := hconsistent.value_of_complete hm ha hdepth hown
  -- The node is not too heavy, and its selection weighs what it does.
  have hrhs : c.rhs = rational _ := (hm.constraints c ha.mem).rhs
  have hlight : ¬ c.rhs + rational tol < node.weight := hweight
  rw [hconsistent.tallies.weight, hrhs, rational_add, rational_lt, not_lt] at hlight
  refine ⟨_, hconsistent.tallies.value, ⟨hconflict, selection m node, indicator_eq _ m c node,
    selection_zeroOne m node, hown, ?_, hvalue.symm⟩, ?_⟩
  · rw [hload]
    exact hlight
  · rintro limit ys p ⟨-, y, -, -, hagrees, -, rfl⟩
    exact (hconsistent.value_of_complete hm ha hdepth hagrees).1.le

end nodes

/-! ## Decisions made by bounds -/

section bounds

variable {τ : Exact} {m : Model Exact} {c : Constraint Exact}

/-- The values that a choice leaves to a variable. -/
def Choice.Leaves : Choice → ℚ → Prop
  | .free, _ => True
  | .taken, q => q = 1
  | .leftOut, q => q = 0
  | .impossible, _ => False

/-- The decisions at the root are those that the choices force. -/
theorem agrees_root_iff (ha : Accepts m c) (x : List ℚ) :
    (problem τ m c).conflict = none ∧ Agrees (problem τ m c).root x ↔
      ∀ j (hj : j < m.vars.length), (choice τ m.vars[j]).Leaves (x.getD j 0) := by
  obtain ⟨-, hincluded, hexcluded⟩ := root_forced τ ha
  rw [conflict_eq_none ha]
  constructor
  · rintro ⟨hpossible, htaken, hleft⟩ j hj
    have hv : m.vars[j]? = some m.vars[j] := List.getElem?_eq_getElem hj
    cases hchoice : choice τ m.vars[j] with
    | free => trivial
    | taken => exact htaken j (hincluded.mem_iff.mpr ((mem_decided ha).mpr ⟨_, hv, hchoice⟩))
    | leftOut => exact hleft j (hexcluded.mem_iff.mpr ((mem_decided ha).mpr ⟨_, hv, hchoice⟩))
    | impossible => exact hpossible _ (List.getElem_mem hj) hchoice
  · intro h
    refine ⟨fun v hv himpossible => ?_, fun j hj => ?_, fun j hj => ?_⟩
    · obtain ⟨j, hj, rfl⟩ := List.mem_iff_getElem.mp hv
      have hvalue := h j hj
      rw [himpossible] at hvalue
      exact hvalue
    · obtain ⟨v, hv, htaken⟩ := (mem_decided ha).mp (hincluded.mem_iff.mp hj)
      obtain ⟨hj, rfl⟩ := List.getElem?_eq_some_iff.mp hv
      have hvalue := h j hj
      rw [htaken] at hvalue
      exact hvalue
    · obtain ⟨v, hv, hleft⟩ := (mem_decided ha).mp (hexcluded.mem_iff.mp hj)
      obtain ⟨hj, rfl⟩ := List.getElem?_eq_some_iff.mp hv
      have hvalue := h j hj
      rw [hleft] at hvalue
      exact hvalue

end bounds

end Knapsack

end IntegerProgramming
