import IntegerProgramming.Proofs.Search.Steps
import IntegerProgramming.Proofs.Model.Points

/-! # The search is sound

    Every node stands for its completions: the solutions of the whole problem
    that lie below it.  A scheme is sound if its bounds hold for the
    completions, if complete nodes are best among their own completions, and if
    splitting a node splits its completions.

    At every moment of a search each completion of the root is below an open
    node, or it beats the incumbent by no more than the tolerance
    (`Invariant`).  When no node is open, the incumbent is therefore best up to
    the tolerance.

    The argument uses less than soundness.  It is enough that bounds and
    splittings respect some targets, and that a complete node is as good as the
    targets below it; what the search finds need not be a target (`Serves`). -/

namespace IntegerProgramming

open Exact

/-! ## Sound schemes -/

/-- The first number is at least as good as the second. -/
def Sense.AtLeastAsGood {α : Type} [Scalar α] : Sense → α → α → Prop
  | .maximize, x, y => y ≤ x
  | .minimize, x, y => x ≤ y

theorem Sense.atLeastAsGood_iff_merit (s : Sense) (p q : ℚ) :
    s.AtLeastAsGood (rational p) (rational q) ↔ s.merit q ≤ s.merit p := by
  cases s with
  | maximize => exact rational_le q p
  | minimize =>
    show rational p ≤ rational q ↔ -q ≤ -p
    rw [rational_le, neg_le_neg_iff]

namespace Scheme

/-- A node that splitting another node creates. -/
def IsChild {α ν : Type} (s : Scheme α ν) (parent child : ν) : Prop :=
  ∃ b lower upper, s.evaluate parent = .ok (.bounded b) ∧ s.isComplete parent b = false ∧
    s.branch parent b = .ok (lower, upper) ∧ (child = lower.2 ∨ child = upper.2)

/-- A node of the search below a root. -/
def Reachable {α ν : Type} (s : Scheme α ν) : ν → ν → Prop := Relation.ReflTransGen s.IsChild

/-- What a scheme owes to the search below a root.  A completion of a node is
    a point together with its objective. -/
structure Sound {ν : Type} (s : Scheme Exact ν) (root : ν)
    (Completion : ν → List Exact → ℚ → Prop) : Prop where
  infeasible {node : ν} {reason : Infeasibility Exact} (hn : s.Reachable root node)
    (h : s.evaluate node = .ok (.infeasible reason)) (x : List Exact) (q : ℚ) :
    ¬ Completion node x q
  /-- No completion beats the bound. -/
  bound {node : ν} {b : Bounded Exact} (hn : s.Reachable root node)
    (h : s.evaluate node = .ok (.bounded b)) {x : List Exact} {q : ℚ} (hx : Completion node x q) :
    s.sense.AtLeastAsGood b.bound (rational q)
  /-- The point of a complete node is a best completion. -/
  complete {node : ν} {b : Bounded Exact} (hn : s.Reachable root node)
    (h : s.evaluate node = .ok (.bounded b)) (hc : s.isComplete node b = true) :
    ∃ q, b.objective = rational q ∧ Completion node b.values q ∧
      ∀ y p, Completion node y p → s.sense.merit p ≤ s.sense.merit q
  /-- Splitting loses and adds no completion. -/
  split {node : ν} {b : Bounded Exact} {lower upper : Branching Exact × ν}
    (hn : s.Reachable root node) (h : s.evaluate node = .ok (.bounded b))
    (hc : s.isComplete node b = false) (hb : s.branch node b = .ok (lower, upper))
    (x : List Exact) (q : ℚ) :
    Completion node x q ↔ Completion lower.2 x q ∨ Completion upper.2 x q
  /-- Only the root may be unbounded. -/
  unbounded {node child : ν} (hn : s.Reachable root node) (hchild : s.IsChild node child) :
    s.evaluate child ≠ .ok .unbounded

variable {ν : Type} {s : Scheme Exact ν} {root : ν} {Completion : ν → List Exact → ℚ → Prop}

/-- Completions below a node are completions of the root. -/
theorem Sound.completion_root (h : s.Sound root Completion) {node : ν}
    (hn : s.Reachable root node) {x : List Exact} {q : ℚ} (hx : Completion node x q) :
    Completion root x q := by
  induction hn with
  | refl => exact hx
  | tail hparent hchild ih =>
    obtain ⟨b, lower, upper, hb, hc, hbranch, rfl | rfl⟩ := hchild
    · exact ih ((h.split hparent hb hc hbranch x q).mpr (.inl hx))
    · exact ih ((h.split hparent hb hc hbranch x q).mpr (.inr hx))

/-- What a scheme owes to a search for something as good as the targets below
    a root.  The points that the search finds are admitted, and need not be
    targets themselves. -/
structure Serves {ν : Type} (s : Scheme Exact ν) (root : ν) (Target : ν → List Exact → ℚ → Prop)
    (Admitted : List Exact → ℚ → Prop) : Prop where
  infeasible {node : ν} {reason : Infeasibility Exact} (hn : s.Reachable root node)
    (h : s.evaluate node = .ok (.infeasible reason)) (x : List Exact) (q : ℚ) :
    ¬ Target node x q
  bound {node : ν} {b : Bounded Exact} (hn : s.Reachable root node)
    (h : s.evaluate node = .ok (.bounded b)) {x : List Exact} {q : ℚ} (hx : Target node x q) :
    s.sense.AtLeastAsGood b.bound (rational q)
  complete {node : ν} {b : Bounded Exact} (hn : s.Reachable root node)
    (h : s.evaluate node = .ok (.bounded b)) (hc : s.isComplete node b = true) :
    ∃ q, b.objective = rational q ∧ Admitted b.values q ∧
      ∀ y p, Target node y p → s.sense.merit p ≤ s.sense.merit q
  /-- Splitting loses no target. -/
  split {node : ν} {b : Bounded Exact} {lower upper : Branching Exact × ν}
    (hn : s.Reachable root node) (h : s.evaluate node = .ok (.bounded b))
    (hc : s.isComplete node b = false) (hb : s.branch node b = .ok (lower, upper))
    {x : List Exact} {q : ℚ} (hx : Target node x q) : Target lower.2 x q ∨ Target upper.2 x q
  unbounded {node child : ν} (hn : s.Reachable root node) (hchild : s.IsChild node child) :
    s.evaluate child ≠ .ok .unbounded

/-- A sound scheme finds its targets: they are the completions of the root. -/
theorem Sound.serves (h : s.Sound root Completion) :
    s.Serves root Completion (Completion root) where
  infeasible := h.infeasible
  bound := h.bound
  complete hn hb hc := by
    obtain ⟨q, hobjective, hown, hbest⟩ := h.complete hn hb hc
    exact ⟨q, hobjective, h.completion_root hn hown, hbest⟩
  split hn hb hc hbranch := (h.split hn hb hc hbranch _ _).mp
  unbounded := h.unbounded

end Scheme

/-! ## Pruning -/

/-- What no bound can improve is no better than the incumbent, up to the
    tolerance. -/
theorem Incumbent.merit_le_of_not_canImprove {i : Incumbent Exact} {bound : Exact}
    {best q tol : ℚ} (hbest : i.objective = some (rational best))
    (hbound : i.sense.AtLeastAsGood bound (rational q))
    (h : ¬ i.CanImprove bound (rational tol)) : i.sense.merit q ≤ i.sense.merit best + tol := by
  unfold CanImprove at h
  rw [hbest] at h
  cases hsense : i.sense with
  | maximize =>
    rw [hsense] at h hbound
    cases bound with
    | rational b =>
      have hle : q ≤ b := (rational_le q b).mp hbound
      have hlt : ¬ best + tol < b := fun hb => h ((rational_lt _ _).mpr hb)
      exact hle.trans (not_lt.mp hlt)
    | plusInfinity => exact absurd (rational_lt_plusInfinity _) h
    | minusInfinity => exact absurd hbound Bool.false_ne_true
    | undefined => exact absurd hbound Bool.false_ne_true
  | minimize =>
    rw [hsense] at h hbound
    cases bound with
    | rational b =>
      have hle : b ≤ q := (rational_le b q).mp hbound
      have hlt : ¬ b < best - tol := fun hb => h (by simpa using hb)
      show -q ≤ -best + tol
      linarith
    | minusInfinity => exact absurd (minusInfinity_lt_rational (best - tol)) h
    | plusInfinity => exact absurd hbound Bool.false_ne_true
    | undefined => exact absurd hbound Bool.false_ne_true

namespace Search

/-! ## The invariant -/

variable {ν : Type}

/-- There is an incumbent, and a point with the given objective beats it by no
    more than the tolerance. -/
def State.Dominates (s : State Exact ν) (tol q : ℚ) : Prop :=
  ∃ best, s.incumbent.objective = some (rational best) ∧
    s.incumbent.sense.merit q ≤ s.incumbent.sense.merit best + tol

/-- An open node is the root, alone and before any solution, or lies properly
    below the root and has a number of its own. -/
def State.Opens (scheme : Scheme Exact ν) (root : ν) (s : State Exact ν) (p : Nat × ν) : Prop :=
  (s.frontier = [(0, root)] ∧ s.incumbent.objective = none) ∨
    p.1 ≠ 0 ∧ ∃ parent, scheme.Reachable root parent ∧ scheme.IsChild parent p.2

/-- What holds of every state that a search passes through. -/
structure Invariant (scheme : Scheme Exact ν) (root : ν) (Target : ν → List Exact → ℚ → Prop)
    (Admitted : List Exact → ℚ → Prop) (tol : ℚ) (s : State Exact ν) : Prop where
  sense : s.incumbent.sense = scheme.sense
  nonempty : 0 < s.nodes.size
  opens : ∀ p ∈ s.frontier, s.Opens scheme root p
  /-- The incumbent is admitted. -/
  incumbent : ∀ x, s.incumbent.objective = some x →
    ∃ best, x = rational best ∧ Admitted s.incumbent.values best
  /-- An unbounded root ends the search. -/
  unbounded : s.rootUnbounded = true →
    scheme.evaluate root = .ok .unbounded ∧ s.frontier = [] ∧ s.incumbent.objective = none
  /-- Every target of the root is below an open node or dominated. -/
  covered : s.rootUnbounded = false → ∀ x q, Target root x q →
    (∃ p ∈ s.frontier, Target p.2 x q) ∨ s.Dominates tol q

variable {scheme : Scheme Exact ν} {settings : Settings Exact} {root : ν}
  {Target : ν → List Exact → ℚ → Prop} {Admitted : List Exact → ℚ → Prop} {tol : ℚ}
  {s s' : State Exact ν}

theorem State.Opens.reachable {p : Nat × ν} (h : s.Opens scheme root p) (hp : p ∈ s.frontier) :
    scheme.Reachable root p.2 := by
  rcases h with ⟨hfrontier, -⟩ | ⟨-, parent, hparent, hchild⟩
  · rw [hfrontier, List.mem_singleton] at hp
    rw [hp]
    exact .refl
  · exact hparent.tail hchild

/-- The nodes behind the one in front are properly below the root. -/
theorem State.Opens.of_rest {p front : Nat × ν} {rest : List (Nat × ν)}
    (h : s.Opens scheme root p) (hfrontier : s.frontier = front :: rest) (hp : p ∈ rest) :
    p.1 ≠ 0 ∧ ∃ parent, scheme.Reachable root parent ∧ scheme.IsChild parent p.2 := by
  -- Behind the root alone there is no node.
  rcases h with ⟨hsingle, -⟩ | hbelow
  · rw [hsingle, List.cons.injEq] at hfrontier
    rw [← hfrontier.2] at hp
    exact absurd hp List.not_mem_nil
  · exact hbelow

theorem invariant_start : Invariant scheme root Target Admitted tol (.start scheme.sense root) where
  sense := rfl
  nonempty := Nat.one_pos
  opens p hp := .inl ⟨rfl, rfl⟩
  incumbent x hx := by cases hx
  unbounded hu := by cases hu
  covered _ x q hx := .inl ⟨(0, root), List.mem_singleton.mpr rfl, hx⟩

namespace Invariant

variable {id : Nat} {node : ν} {rest : List (Nat × ν)} {b : Bounded Exact}

/-- Closing the node in front keeps the invariant if the incumbent does not
    get worse and dominates what is below the node. -/
theorem close (h : Invariant scheme root Target Admitted tol s)
    (hfrontier : s.frontier = (id, node) :: rest)
    (hrest : s'.frontier = rest) (hsize : s'.nodes.size = s.nodes.size)
    (hroot : s'.rootUnbounded = s.rootUnbounded)
    (hsense : s'.incumbent.sense = s.incumbent.sense)
    (hincumbent : ∀ x, s'.incumbent.objective = some x →
      ∃ best, x = rational best ∧ Admitted s'.incumbent.values best)
    (hkeep : ∀ q, s.Dominates tol q → s'.Dominates tol q)
    (hnode : ∀ x q, Target node x q → s'.Dominates tol q) :
    Invariant scheme root Target Admitted tol s' where
  sense := hsense.trans h.sense
  nonempty := hsize ▸ h.nonempty
  opens p hp := by
    have hmem : p ∈ rest := hrest ▸ hp
    have hopens := h.opens p (hfrontier ▸ List.mem_cons_of_mem _ hmem)
    exact .inr (hopens.of_rest hfrontier hmem)
  incumbent := hincumbent
  unbounded hu := by
    -- A search whose root is unbounded has no node to close.
    obtain ⟨-, hempty, -⟩ := h.unbounded (hroot ▸ hu)
    rw [hfrontier] at hempty
    cases hempty
  covered hu x q hx := by
    -- Only the completions below the closed node change sides.
    rcases h.covered (hroot ▸ hu) x q hx with ⟨p, hp, hpx⟩ | hdominated
    · rw [hfrontier, List.mem_cons] at hp
      rcases hp with rfl | hp
      · exact .inr (hnode x q hpx)
      · exact .inl ⟨p, hrest ▸ hp, hpx⟩
    · exact .inr (hkeep q hdominated)

/-- Of an unbounded node the search knows that it is the root, and it ends. -/
theorem close_unbounded (hserves : scheme.Serves root Target Admitted)
    (h : Invariant scheme root Target Admitted tol s) (hfrontier : s.frontier = (id, node) :: rest)
    (hevaluate : scheme.evaluate node = .ok .unbounded) (events : Array (Event Exact)) :
    Invariant scheme root Target Admitted tol
      ({ s.take rest events with rootUnbounded := s.rootUnbounded || id == 0 }.fathom id
        .unbounded) := by
  rcases h.opens _ (hfrontier ▸ List.mem_cons_self) with ⟨hsingle, hnone⟩ | ⟨-, parent, hp, hc⟩
  · rw [hfrontier, List.cons.injEq, Prod.mk.injEq] at hsingle
    obtain ⟨⟨rfl, rfl⟩, rfl⟩ := hsingle
    exact
      { sense := h.sense
        nonempty := by simpa using h.nonempty
        opens := fun p hp => absurd hp List.not_mem_nil
        incumbent := h.incumbent
        unbounded := fun _ => ⟨hevaluate, rfl, hnone⟩
        covered := fun hu => absurd hu (by simp) }
  · exact absurd hevaluate (hserves.unbounded hp hc)

/-- A node is pruned only against an incumbent, which then dominates all that
    is below the node. -/
theorem dominates_of_not_canImprove (h : Invariant scheme root Target Admitted tol s)
    (hbound : ¬ s.incumbent.CanImprove b.bound (rational tol)) {q : ℚ}
    (hgood : scheme.sense.AtLeastAsGood b.bound (rational q)) : s.Dominates tol q := by
  cases hold : s.incumbent.objective with
  | none =>
    unfold Incumbent.CanImprove at hbound
    rw [hold] at hbound
    exact absurd trivial hbound
  | some y =>
    obtain ⟨best, rfl, -⟩ := h.incumbent y hold
    rw [← h.sense] at hgood
    exact ⟨best, hold, Incumbent.merit_le_of_not_canImprove hold hgood hbound⟩

/-- Whether or not the point of a complete node replaces the incumbent, the
    incumbent is a completion of the root afterwards, keeps what it dominated,
    and dominates all that is below the node. -/
theorem install (h : Invariant scheme root Target Admitted tol s) (ht : 0 ≤ tol) {q : ℚ}
    (hobjective : b.objective = rational q) (hadmitted : Admitted b.values q)
    (hbest : ∀ y p, Target node y p → scheme.sense.merit p ≤ scheme.sense.merit q)
    (hincumbent : s'.incumbent = s.incumbent.install b.objective b.values id) :
    s'.incumbent.sense = s.incumbent.sense ∧
      (∀ x, s'.incumbent.objective = some x →
        ∃ best, x = rational best ∧ Admitted s'.incumbent.values best) ∧
      (∀ p, s.Dominates tol p → s'.Dominates tol p) ∧
      ∀ y p, Target node y p → s'.Dominates tol p := by
  unfold State.Dominates
  rw [hincumbent, hobjective]
  unfold Incumbent.install
  by_cases hbeaten : s.incumbent.Beaten (rational q)
  · -- The new incumbent is better than the old one and best below the node.
    rw [if_pos hbeaten]
    refine ⟨rfl, fun x hx => ⟨q, (Option.some.inj hx).symm, hadmitted⟩, ?_, ?_⟩
    · rintro p ⟨best, hold, hp⟩
      unfold Incumbent.Beaten at hbeaten
      rw [hold] at hbeaten
      have hbetter := (Sense.better_iff_merit _ q best).mp hbeaten
      exact ⟨q, rfl, by dsimp only; linarith⟩
    · intro y p hp
      refine ⟨q, rfl, ?_⟩
      dsimp only
      rw [h.sense]
      linarith [hbest y p hp]
  · -- The old incumbent stays: it is as good as the point, so there is one.
    rw [if_neg hbeaten]
    refine ⟨rfl, h.incumbent, fun p hp => hp, fun y p hp => ?_⟩
    cases hold : s.incumbent.objective with
    | none =>
      unfold Incumbent.Beaten at hbeaten
      rw [hold] at hbeaten
      exact absurd trivial hbeaten
    | some x =>
      obtain ⟨best, rfl, -⟩ := h.incumbent x hold
      unfold Incumbent.Beaten at hbeaten
      rw [hold] at hbeaten
      have hbetter := mt (Sense.better_iff_merit _ q best).mpr hbeaten
      refine ⟨best, rfl, ?_⟩
      rw [h.sense] at hbetter ⊢
      linarith [hbest y p hp]

/-- Splitting the node in front keeps the invariant: its completions pass on
    to its two children. -/
theorem open_children (hserves : scheme.Serves root Target Admitted)
    (h : Invariant scheme root Target Admitted tol s) (hfrontier : s.frontier = (id, node) :: rest)
    (hreach : scheme.Reachable root node) {lower upper : Branching Exact × ν}
    (hevaluate : scheme.evaluate node = .ok (.bounded b))
    (hcomplete : scheme.isComplete node b = false)
    (hbranch : scheme.branch node b = .ok (lower, upper)) (traversal : Traversal)
    (events : Array (Event Exact)) :
    Invariant scheme root Target Admitted tol
      (((s.take rest events).record id b).split traversal id lower upper) where
  sense := h.sense
  nonempty := by simp
  opens p hp := by
    rw [State.split_frontier, mem_extend] at hp
    right
    rcases hp with hp | rfl | rfl
    · exact (h.opens p (hfrontier ▸ List.mem_cons_of_mem _ hp)).of_rest hfrontier hp
    · -- New numbers start behind the root's.
      have hnumber : s.nodes.size ≠ 0 := h.nonempty.ne'
      refine ⟨by simpa using hnumber, node, hreach, ?_⟩
      exact ⟨b, lower, upper, hevaluate, hcomplete, hbranch, .inl rfl⟩
    · refine ⟨by simp, node, hreach, ?_⟩
      exact ⟨b, lower, upper, hevaluate, hcomplete, hbranch, .inr rfl⟩
  incumbent := h.incumbent
  unbounded hu := by
    obtain ⟨-, hempty, -⟩ := h.unbounded hu
    rw [hfrontier] at hempty
    cases hempty
  covered hu x q hx := by
    rcases h.covered hu x q hx with ⟨p, hp, hpx⟩ | hdominated
    · rw [hfrontier, List.mem_cons] at hp
      left
      rcases hp with rfl | hp
      · rcases hserves.split hreach hevaluate hcomplete hbranch hpx with hl | hu
        · exact ⟨_, (mem_extend _ _ _ _ _).mpr (.inr (.inl rfl)), hl⟩
        · exact ⟨_, (mem_extend _ _ _ _ _).mpr (.inr (.inr rfl)), hu⟩
      · exact ⟨p, (mem_extend _ _ _ _ _).mpr (.inl hp), hpx⟩
    · exact .inr hdominated

/-- Whatever happens to the node in front, the invariant is kept. -/
theorem examined (hserves : scheme.Serves root Target Admitted) (ht : 0 ≤ tol)
    (hset : settings.tolerance = rational tol) (h : Invariant scheme root Target Admitted tol s)
    {events : Array (Event Exact)} (hfrontier : s.frontier = (id, node) :: rest)
    (hexamined : Examined scheme settings (s.take rest events) id node s') :
    Invariant scheme root Target Admitted tol s' := by
  have hmem : (id, node) ∈ s.frontier := hfrontier ▸ List.mem_cons_self
  have hreach : scheme.Reachable root node := (h.opens _ hmem).reachable hmem
  cases hexamined with
  | infeasible hevaluate =>
    exact h.close hfrontier rfl (by simp) rfl rfl h.incumbent (fun q hq => hq)
      fun x q hx => absurd hx (hserves.infeasible hreach hevaluate x q)
  | unbounded hevaluate => exact h.close_unbounded hserves hfrontier hevaluate events
  | pruned hevaluate hbound =>
    rw [State.take_incumbent, hset] at hbound
    exact h.close hfrontier rfl (by simp) rfl rfl h.incumbent (fun q hq => hq)
      fun x q hx => h.dominates_of_not_canImprove hbound (hserves.bound hreach hevaluate hx)
  | complete hevaluate hbound hcomplete =>
    obtain ⟨q, hobjective, hown, hbest⟩ := hserves.complete hreach hevaluate hcomplete
    obtain ⟨hsense, hincumbent, hkeep, hnode⟩ :=
      h.install ht hobjective hown hbest
        (State.install_incumbent _ id _)
    exact h.close hfrontier rfl (by simp) rfl hsense hincumbent hkeep hnode
  | split hevaluate hbound hcomplete hbranch =>
    exact h.open_children hserves hfrontier hreach hevaluate hcomplete hbranch _ events

/-- With no node open, every completion of the root is dominated. -/
theorem dominates (h : Invariant scheme root Target Admitted tol s) (hempty : s.frontier = [])
    (hroot : s.rootUnbounded = false) {x : List Exact} {q : ℚ} (hx : Target root x q) :
    s.Dominates tol q := by
  rcases h.covered hroot x q hx with ⟨p, hp, -⟩ | hd
  · rw [hempty] at hp
    exact absurd hp List.not_mem_nil
  · exact hd

end Invariant

/-! ## Runs -/

/-- The states that a search passes through satisfy the invariant. -/
theorem invariant_of_visited (hserves : scheme.Serves root Target Admitted) (ht : 0 ≤ tol)
    (hset : settings.tolerance = rational tol) (h : Visited scheme settings root s) :
    Invariant scheme root Target Admitted tol s := by
  induction h with
  | start => exact invariant_start
  | next _ hstep ih =>
    -- A step that goes on has examined the node in front.
    obtain ⟨id, node, rest, hfrontier, -, hexamined⟩ := step_running hstep
    exact ih.examined hserves ht hset hfrontier hexamined

section answers

variable {steps : Nat} {result : SearchResult Exact}

/-- An optimal answer is admitted, and no target beats it by more than the
    tolerance. -/
theorem optimal_of_serves (hserves : scheme.Serves root Target Admitted) (ht : 0 ≤ tol)
    (hset : settings.tolerance = rational tol)
    (h : run steps scheme root settings = some (.ok result)) (hstatus : result.status = .optimal) :
    ∃ best, result.bestObjective = some (rational best) ∧ Admitted result.bestValues best ∧
      ∀ x q, Target root x q → scheme.sense.merit q ≤ scheme.sense.merit best + tol := by
  obtain ⟨s, hvisited, hempty, rfl⟩ := run_ok h
  have hinv := invariant_of_visited hserves ht hset hvisited
  obtain ⟨value, hvalue⟩ := State.verdict_eq_optimal.mp hstatus
  obtain ⟨best, rfl, hadmitted⟩ := hinv.incumbent value hvalue
  refine ⟨best, hvalue, hadmitted, fun x q hx => ?_⟩
  have hunbounded : s.rootUnbounded = false := by
    by_contra hne
    obtain ⟨-, -, hnone⟩ := hinv.unbounded (Bool.eq_true_of_not_eq_false hne)
    rw [hvalue] at hnone
    cases hnone
  obtain ⟨best', hbest', hle⟩ := hinv.dominates hempty hunbounded hx
  rw [hvalue, Option.some.injEq, rational.injEq] at hbest'
  rw [hbest', ← hinv.sense]
  exact hle

theorem infeasible_of_serves (hserves : scheme.Serves root Target Admitted) (ht : 0 ≤ tol)
    (hset : settings.tolerance = rational tol)
    (h : run steps scheme root settings = some (.ok result))
    (hstatus : result.status = .infeasible) (x : List Exact) (q : ℚ) : ¬ Target root x q := by
  intro hx
  obtain ⟨s, hvisited, hempty, rfl⟩ := run_ok h
  have hinv := invariant_of_visited hserves ht hset hvisited
  obtain ⟨hnone, hunbounded⟩ := State.verdict_eq_infeasible.mp hstatus
  obtain ⟨best, hbest, -⟩ := hinv.dominates hempty hunbounded hx
  rw [hnone] at hbest
  cases hbest

theorem unbounded_of_serves (hserves : scheme.Serves root Target Admitted) (ht : 0 ≤ tol)
    (hset : settings.tolerance = rational tol)
    (h : run steps scheme root settings = some (.ok result))
    (hstatus : result.status = .unbounded) : scheme.evaluate root = .ok .unbounded := by
  obtain ⟨s, hvisited, hempty, rfl⟩ := run_ok h
  have hinv := invariant_of_visited hserves ht hset hvisited
  exact (hinv.unbounded (State.verdict_eq_unbounded.mp hstatus).2).1

variable {Completion : ν → List Exact → ℚ → Prop}

/-- An optimal answer is a completion of the root that no other one beats by
    more than the tolerance. -/
theorem run_optimal (hsound : scheme.Sound root Completion) (ht : 0 ≤ tol)
    (hset : settings.tolerance = rational tol)
    (h : run steps scheme root settings = some (.ok result)) (hstatus : result.status = .optimal) :
    ∃ best, result.bestObjective = some (rational best) ∧ Completion root result.bestValues best ∧
      ∀ x q, Completion root x q → scheme.sense.merit q ≤ scheme.sense.merit best + tol :=
  optimal_of_serves hsound.serves ht hset h hstatus

theorem run_infeasible (hsound : scheme.Sound root Completion) (ht : 0 ≤ tol)
    (hset : settings.tolerance = rational tol)
    (h : run steps scheme root settings = some (.ok result))
    (hstatus : result.status = .infeasible) (x : List Exact) (q : ℚ) : ¬ Completion root x q :=
  infeasible_of_serves hsound.serves ht hset h hstatus x q

theorem run_unbounded (hsound : scheme.Sound root Completion) (ht : 0 ≤ tol)
    (hset : settings.tolerance = rational tol)
    (h : run steps scheme root settings = some (.ok result))
    (hstatus : result.status = .unbounded) : scheme.evaluate root = .ok .unbounded :=
  unbounded_of_serves hsound.serves ht hset h hstatus

/-- For a sound scheme the answers of a search mean what they say, with any
    tolerance from zero up, in either order and under any limit. -/
theorem verdict_sound (hsound : scheme.Sound root Completion) (ht : 0 ≤ tol)
    (hset : settings.tolerance = rational tol)
    (h : run steps scheme root settings = some (.ok result)) :
    (result.status = .optimal → ∃ best, result.bestObjective = some (rational best) ∧
        Completion root result.bestValues best ∧
        ∀ x q, Completion root x q → scheme.sense.merit q ≤ scheme.sense.merit best + tol) ∧
      (result.status = .infeasible → ∀ x q, ¬ Completion root x q) ∧
      (result.status = .unbounded → scheme.evaluate root = .ok .unbounded) :=
  ⟨run_optimal hsound ht hset h, run_infeasible hsound ht hset h, run_unbounded hsound ht hset h⟩

end answers

/-! ## Halving an interval -/

/-- Looks for the largest number of an interval by halving it. -/
def halving : Scheme Exact (ℕ × ℕ) where
  sense := .maximize
  names := ["x"]
  inspect node :=
    if node.1 ≤ node.2 then
      ⟨.ok (.bounded ⟨rational node.2, rational node.1, [rational node.1]⟩), #[]⟩
    else ⟨.ok (.infeasible .emptyRelaxation), #[]⟩
  isComplete node _ := node.1 == node.2
  branch node _ :=
    let middle := (node.1 + node.2) / 2
    .ok ((⟨"x", .down, rational middle⟩, (node.1, middle)),
      (⟨"x", .up, rational (middle + 1)⟩, (middle + 1, node.2)))

/-- The numbers of an interval. -/
def InInterval (node : ℕ × ℕ) (x : List Exact) (q : ℚ) : Prop :=
  ∃ k : ℕ, node.1 ≤ k ∧ k ≤ node.2 ∧ x = [rational k] ∧ q = k

theorem halving_evaluate (node : ℕ × ℕ) :
    halving.evaluate node = if node.1 ≤ node.2 then
      .ok (.bounded ⟨rational node.2, rational node.1, [rational node.1]⟩)
    else .ok (.infeasible .emptyRelaxation) := by
  unfold Scheme.evaluate halving
  dsimp only
  split <;> rfl

theorem halving_not_endsInScheme (settings : Settings Exact) (root : ℕ × ℕ)
    (failure : Failure Exact) : ¬ EndsInScheme halving settings root failure := by
  intro h
  obtain ⟨node, hevaluate | ⟨b, -, -, hbranch⟩⟩ := h.breaksAt
  · rw [halving_evaluate] at hevaluate
    split at hevaluate <;> cases hevaluate
  · cases hbranch

theorem halving_bounded {node : ℕ × ℕ} {b : Bounded Exact}
    (h : halving.evaluate node = .ok (.bounded b)) :
    node.1 ≤ node.2 ∧ b = ⟨rational node.2, rational node.1, [rational node.1]⟩ := by
  rw [halving_evaluate] at h
  split at h
  · rename_i hle
    cases h
    exact ⟨hle, rfl⟩
  · cases h

theorem halving_sound (root : ℕ × ℕ) : halving.Sound root InInterval where
  infeasible {node reason} _ h x q := by
    rintro ⟨k, hlow, hhigh, -, -⟩
    rw [halving_evaluate, if_pos (hlow.trans hhigh)] at h
    cases h
  bound {node b} _ h x q hx := by
    obtain ⟨-, rfl⟩ := halving_bounded h
    obtain ⟨k, -, hhigh, -, rfl⟩ := hx
    exact (rational_le _ _).mpr (by exact_mod_cast hhigh)
  complete {node b} _ h hc := by
    obtain ⟨hle, rfl⟩ := halving_bounded h
    have heq : node.1 = node.2 := beq_iff_eq.mp hc
    refine ⟨node.1, rfl, ⟨node.1, le_rfl, hle, rfl, rfl⟩, ?_⟩
    rintro y p ⟨k, -, hhigh, -, rfl⟩
    show (k : ℚ) ≤ node.1
    exact_mod_cast heq ▸ hhigh
  split {node b lower upper} _ h hc hb x q := by
    obtain ⟨hle, -⟩ := halving_bounded h
    cases hb
    constructor
    · rintro ⟨k, hlow, hhigh, hx, hq⟩
      by_cases hk : k ≤ (node.1 + node.2) / 2
      · exact .inl ⟨k, hlow, hk, hx, hq⟩
      · exact .inr ⟨k, Nat.lt_of_not_le hk, hhigh, hx, hq⟩
    · have hmiddle : node.1 ≤ (node.1 + node.2) / 2 ∧ (node.1 + node.2) / 2 ≤ node.2 := by omega
      rintro (⟨k, hlow, hhigh, hx, hq⟩ | ⟨k, hlow, hhigh, hx, hq⟩)
      · exact ⟨k, hlow, hhigh.trans hmiddle.2, hx, hq⟩
      · exact ⟨k, (Nat.le_succ_of_le hmiddle.1).trans hlow, hhigh, hx, hq⟩
  unbounded _ _ h := by
    rw [halving_evaluate] at h
    split at h <;> cases h

theorem halving_finds : ∃ result : SearchResult Exact,
    run 20 halving (0, 3) { tolerance := rational 0 } = some (.ok result) ∧
      result.bestValues = [rational 3] ∧
      ∀ x q, InInterval (0, 3) x q → q ≤ 3 := by
  have hrun : (run 20 halving (0, 3) { tolerance := rational 0 }).map
      (fun answer => answer.toOption.map fun r => (r.status, r.bestObjective, r.bestValues)) =
        some (some (.optimal, some (rational 3), [rational 3])) := by
    decide +kernel
  cases h : run 20 halving (0, 3) { tolerance := rational 0 } with
  | none => rw [h] at hrun; cases hrun
  | some answer =>
    cases answer with
    | error failure => rw [h] at hrun; cases hrun
    | ok result =>
      rw [h, Option.map_some, Option.some.injEq] at hrun
      obtain ⟨hstatus, hbest⟩ := Prod.mk.inj (Option.some.inj hrun)
      obtain ⟨hobjective, hvalues⟩ := Prod.mk.inj hbest
      obtain ⟨best, hthree, -, hmost⟩ :=
        (verdict_sound (halving_sound _) le_rfl rfl h).1 hstatus
      rw [hobjective, Option.some.injEq, rational.injEq] at hthree
      refine ⟨result, rfl, hvalues, fun x q hx => ?_⟩
      have hle : q ≤ best + 0 := hmost x q hx
      rw [add_zero, ← hthree] at hle
      exact hle

end Search

end IntegerProgramming
