import IntegerProgramming.Search.Run

/-! # Steps and runs of the search

    What one step of the search does, said once: a node is taken off the
    frontier, and then one of five things happens to it (`Examined`).  The
    states that a search passes through are those that steps reach from its
    start (`Visited`), and an answer is read off one whose frontier is empty.

    Nothing here depends on the numbers or on the scheme. -/

namespace IntegerProgramming

/-- The scheme fails while a search examines a node: on evaluating it, or on
    splitting it because its own point is no solution. -/
def Scheme.BreaksAt {α ν : Type} (s : Scheme α ν) (node : ν) (failure : Failure α) : Prop :=
  s.evaluate node = .error failure ∨ ∃ b, s.evaluate node = .ok (.bounded b) ∧
    s.isComplete node b = false ∧ s.branch node b = .error failure

/-- Whether or not it takes a solution in, an incumbent has one afterwards. -/
theorem Incumbent.install_isSome {α : Type} [Scalar α] (i : Incumbent α) (objective : α)
    (values : List α) (id : Nat) : (i.install objective values id).objective.isSome := by
  unfold Incumbent.install
  by_cases hbeaten : i.Beaten objective
  · rw [if_pos hbeaten]
    rfl
  · rw [if_neg hbeaten]
    cases hold : i.objective with
    | some best => rfl
    | none =>
      unfold Incumbent.Beaten at hbeaten
      rw [hold] at hbeaten
      exact absurd trivial hbeaten

namespace Search

variable {α ν : Type}

/-! ## Steps -/

/-- The node in front is taken off the frontier and counted as examined. -/
def State.take (s : State α ν) (frontier : List (Nat × ν)) (events : Array (Event α)) :
    State α ν :=
  { s with frontier, explored := s.explored + 1, events := s.events ++ events }

namespace State

variable (s : State α ν) (id : Nat)

@[simp] theorem take_frontier (frontier : List (Nat × ν)) (events : Array (Event α)) :
    (s.take frontier events).frontier = frontier := rfl

@[simp] theorem take_nodes (frontier : List (Nat × ν)) (events : Array (Event α)) :
    (s.take frontier events).nodes = s.nodes := rfl

@[simp] theorem take_incumbent (frontier : List (Nat × ν)) (events : Array (Event α)) :
    (s.take frontier events).incumbent = s.incumbent := rfl

@[simp] theorem take_rootUnbounded (frontier : List (Nat × ν)) (events : Array (Event α)) :
    (s.take frontier events).rootUnbounded = s.rootUnbounded := rfl

@[simp] theorem fathom_frontier (reason : FathomReason α) :
    (s.fathom id reason).frontier = s.frontier := rfl

@[simp] theorem fathom_size (reason : FathomReason α) :
    (s.fathom id reason).nodes.size = s.nodes.size := Array.size_modify

@[simp] theorem fathom_incumbent (reason : FathomReason α) :
    (s.fathom id reason).incumbent = s.incumbent := rfl

@[simp] theorem fathom_rootUnbounded (reason : FathomReason α) :
    (s.fathom id reason).rootUnbounded = s.rootUnbounded := rfl

@[simp] theorem record_frontier (b : Bounded α) : (s.record id b).frontier = s.frontier := rfl

@[simp] theorem record_size (b : Bounded α) : (s.record id b).nodes.size = s.nodes.size :=
  Array.size_modify

@[simp] theorem record_incumbent (b : Bounded α) : (s.record id b).incumbent = s.incumbent := rfl

@[simp] theorem record_rootUnbounded (b : Bounded α) :
    (s.record id b).rootUnbounded = s.rootUnbounded := rfl

@[simp] theorem install_frontier [Scalar α] (b : Bounded α) :
    (s.install id b).frontier = s.frontier := rfl

@[simp] theorem install_nodes [Scalar α] (b : Bounded α) :
    (s.install id b).nodes = s.nodes := rfl

@[simp] theorem install_incumbent [Scalar α] (b : Bounded α) :
    (s.install id b).incumbent = s.incumbent.install b.objective b.values id := rfl

@[simp] theorem install_rootUnbounded [Scalar α] (b : Bounded α) :
    (s.install id b).rootUnbounded = s.rootUnbounded := rfl

variable (traversal : Traversal) (lower upper : Branching α × ν)

@[simp] theorem split_frontier : (s.split traversal id lower upper).frontier =
    traversal.extend s.frontier (s.nodes.size, lower.2) (s.nodes.size + 1, upper.2) := rfl

@[simp] theorem split_size :
    (s.split traversal id lower upper).nodes.size = s.nodes.size + 2 := by
  simp [split, create]

@[simp] theorem split_incumbent : (s.split traversal id lower upper).incumbent = s.incumbent := rfl

@[simp] theorem split_rootUnbounded :
    (s.split traversal id lower upper).rootUnbounded = s.rootUnbounded := rfl

variable {s}

theorem verdict_eq_optimal :
    s.verdict = .optimal ↔ ∃ best, s.incumbent.objective = some best := by
  unfold verdict
  cases s.incumbent.objective <;> cases s.rootUnbounded <;> simp

theorem verdict_eq_infeasible :
    s.verdict = .infeasible ↔ s.incumbent.objective = none ∧ s.rootUnbounded = false := by
  unfold verdict
  cases s.incumbent.objective <;> cases s.rootUnbounded <;> simp

theorem verdict_eq_unbounded :
    s.verdict = .unbounded ↔ s.incumbent.objective = none ∧ s.rootUnbounded = true := by
  unfold verdict
  cases s.incumbent.objective <;> cases s.rootUnbounded <;> simp

end State

/-- Both orders keep the open nodes and add the two children. -/
theorem mem_extend {β : Type} (traversal : Traversal) (frontier : List β) (lower upper p : β) :
    p ∈ traversal.extend frontier lower upper ↔ p ∈ frontier ∨ p = lower ∨ p = upper := by
  cases traversal with
  | breadthFirst => simp [Traversal.extend]
  | depthFirst =>
    simp only [Traversal.extend, List.mem_cons]
    exact ⟨fun h => by rcases h with h | h | h <;> simp [h],
      fun h => by rcases h with h | h | h <;> simp [h]⟩

variable [Scalar α] {scheme : Scheme α ν} {settings : Settings α}

/-- What happens to a node that has been taken off the frontier. -/
inductive Examined (scheme : Scheme α ν) (settings : Settings α) (s : State α ν) (id : Nat)
    (node : ν) : State α ν → Prop where
  | infeasible {reason : Infeasibility α}
      (h : scheme.evaluate node = .ok (.infeasible reason)) :
      Examined scheme settings s id node (s.fathom id (.infeasible reason))
  | unbounded (h : scheme.evaluate node = .ok .unbounded) :
      Examined scheme settings s id node
        ({ s with rootUnbounded := s.rootUnbounded || id == 0 }.fathom id .unbounded)
  | pruned {b : Bounded α} (h : scheme.evaluate node = .ok (.bounded b))
      (hbound : ¬ s.incumbent.CanImprove b.bound settings.tolerance) :
      Examined scheme settings s id node
        ((s.record id b).fathom id (.bound (s.incumbent.objective.getD b.bound)))
  | complete {b : Bounded α} (h : scheme.evaluate node = .ok (.bounded b))
      (hbound : s.incumbent.CanImprove b.bound settings.tolerance)
      (hcomplete : scheme.isComplete node b = true) :
      Examined scheme settings s id node
        (((s.record id b).install id b).fathom id .integerSolution)
  | split {b : Bounded α} {lower upper : Branching α × ν}
      (h : scheme.evaluate node = .ok (.bounded b))
      (hbound : s.incumbent.CanImprove b.bound settings.tolerance)
      (hcomplete : scheme.isComplete node b = false)
      (hbranch : scheme.branch node b = .ok (lower, upper)) :
      Examined scheme settings s id node
        ((s.record id b).split settings.traversal id lower upper)

theorem settle_running {s s' : State α ν} {id : Nat} {node : ν} {b : Bounded α}
    (hb : scheme.evaluate node = .ok (.bounded b))
    (h : settle scheme settings s id node b = .running s') :
    Examined scheme settings s id node s' := by
  unfold settle at h
  dsimp only at h
  split at h
  · cases h
    rename_i hbound
    exact .pruned hb hbound
  · rename_i hbound
    rw [Decidable.not_not] at hbound
    split at h
    · cases h
      rename_i hcomplete
      exact .complete hb hbound hcomplete
    · rename_i hcomplete
      cases hbranch : scheme.branch node b with
      | error failure => rw [hbranch] at h; cases h
      | ok children =>
        rw [hbranch] at h
        cases h
        exact .split hb hbound (Bool.eq_false_iff.mpr hcomplete) hbranch

theorem examine_running {s s' : State α ν} {frontier : List (Nat × ν)} {id : Nat} {node : ν}
    (h : examine scheme settings { s with frontier } id node = .running s') :
    Examined scheme settings (s.take frontier (scheme.inspect node).events) id node s' := by
  unfold examine at h
  dsimp only at h
  cases hanswer : (scheme.inspect node).answer with
  | error failure => rw [hanswer] at h; cases h
  | ok evaluation =>
    rw [hanswer] at h
    cases evaluation with
    | infeasible reason => cases h; exact .infeasible hanswer
    | unbounded => cases h; exact .unbounded hanswer
    | bounded b => exact settle_running hanswer h

/-- A step takes the node in front, unless the limit forbids it. -/
theorem step_running {s s' : State α ν} (h : step scheme settings s = .running s') :
    ∃ id node rest, s.frontier = (id, node) :: rest ∧
      settings.reachedLimit? s.explored = none ∧
      Examined scheme settings (s.take rest (scheme.inspect node).events) id node s' := by
  unfold step at h
  cases hfrontier : s.frontier with
  | nil => rw [hfrontier] at h; cases h
  | cons front rest =>
    obtain ⟨id, node⟩ := front
    rw [hfrontier] at h
    cases hlimit : settings.reachedLimit? s.explored with
    | some limit =>
      simp only [hlimit] at h
      cases h
    | none =>
      simp only [hlimit] at h
      exact ⟨id, node, rest, rfl, rfl, examine_running h⟩

theorem step_explored {s s' : State α ν} (h : step scheme settings s = .running s') :
    s'.explored = s.explored + 1 := by
  obtain ⟨id, node, rest, -, -, hexamined⟩ := step_running h
  cases hexamined <;> rfl

theorem settle_ended {s : State α ν} {id : Nat} {node : ν} {b : Bounded α}
    {r : Report α (SearchResult α)} (h : settle scheme settings s id node b = .ended r) :
    ∃ failure, r.answer = .error failure ∧ scheme.isComplete node b = false ∧
      scheme.branch node b = .error failure := by
  unfold settle at h
  dsimp only at h
  split at h
  · cases h
  · split at h
    · cases h
    · rename_i hcomplete
      cases hbranch : scheme.branch node b with
      | error failure =>
        rw [hbranch] at h
        cases h
        exact ⟨failure, rfl, Bool.eq_false_iff.mpr hcomplete, rfl⟩
      | ok children => rw [hbranch] at h; cases h

theorem examine_ended {s : State α ν} {id : Nat} {node : ν} {r : Report α (SearchResult α)}
    (h : examine scheme settings s id node = .ended r) :
    ∃ failure, r.answer = .error failure ∧ scheme.BreaksAt node failure := by
  unfold examine at h
  dsimp only at h
  cases hanswer : (scheme.inspect node).answer with
  | error failure =>
    rw [hanswer] at h
    cases h
    exact ⟨failure, rfl, .inl hanswer⟩
  | ok evaluation =>
    rw [hanswer] at h
    cases evaluation with
    | infeasible reason => cases h
    | unbounded => cases h
    | bounded b =>
      obtain ⟨failure, hfailure, hcomplete, hbranch⟩ := settle_ended h
      exact ⟨failure, hfailure, .inr ⟨b, hanswer, hcomplete, hbranch⟩⟩

/-- A step that ends the search with an answer finds no node to take. -/
theorem step_ended {s : State α ν} {r : Report α (SearchResult α)} {result : SearchResult α}
    (h : step scheme settings s = .ended r) (hr : r.answer = .ok result) :
    s.frontier = [] ∧ result = s.result scheme.names s.verdict := by
  unfold step at h
  cases hfrontier : s.frontier with
  | nil =>
    rw [hfrontier] at h
    cases h
    cases hr
    exact ⟨rfl, rfl⟩
  | cons front rest =>
    obtain ⟨id, node⟩ := front
    rw [hfrontier] at h
    cases hlimit : settings.reachedLimit? s.explored with
    | some limit =>
      simp only [hlimit] at h
      cases h
      cases hr
    | none =>
      simp only [hlimit] at h
      obtain ⟨failure, hfailure, -⟩ := examine_ended h
      rw [hfailure] at hr
      cases hr

/-- A step fails because the limit is reached, or else because the scheme fails
    at the node that is due. -/
theorem step_failed_due {s : State α ν} {r : Report α (SearchResult α)} {failure : Failure α}
    (h : step scheme settings s = .ended r) (hr : r.answer = .error failure) :
    (∃ limit, settings.reachedLimit? s.explored = some limit ∧
        failure = .nodeLimit limit s.explored (s.result scheme.names .error)) ∨
      settings.reachedLimit? s.explored = none ∧
        ∃ id node rest, s.frontier = (id, node) :: rest ∧ scheme.BreaksAt node failure := by
  unfold step at h
  cases hfrontier : s.frontier with
  | nil =>
    rw [hfrontier] at h
    cases h
    cases hr
  | cons front rest =>
    obtain ⟨id, node⟩ := front
    rw [hfrontier] at h
    cases hlimit : settings.reachedLimit? s.explored with
    | some limit =>
      simp only [hlimit] at h
      cases h
      cases hr
      exact .inl ⟨limit, rfl, rfl⟩
    | none =>
      simp only [hlimit] at h
      obtain ⟨failure', hfailure, hbreaks⟩ := examine_ended h
      rw [hfailure] at hr
      cases hr
      exact .inr ⟨rfl, id, node, rest, rfl, hbreaks⟩

/-- A step fails because the limit is reached, or because the scheme does. -/
theorem step_failed {s : State α ν} {r : Report α (SearchResult α)} {failure : Failure α}
    (h : step scheme settings s = .ended r) (hr : r.answer = .error failure) :
    (∃ limit, settings.reachedLimit? s.explored = some limit ∧
        failure = .nodeLimit limit s.explored (s.result scheme.names .error)) ∨
      ∃ p ∈ s.frontier, scheme.BreaksAt p.2 failure := by
  refine (step_failed_due h hr).imp_right ?_
  rintro ⟨-, id, node, rest, hfrontier, hbreaks⟩
  rw [hfrontier]
  exact ⟨(id, node), List.mem_cons_self, hbreaks⟩

/-! ## Runs -/

/-- The states that a search passes through. -/
inductive Visited (scheme : Scheme α ν) (settings : Settings α) (root : ν) : State α ν → Prop where
  | start : Visited scheme settings root (.start scheme.sense root)
  | next {s s' : State α ν} (hs : Visited scheme settings root s)
      (h : step scheme settings s = .running s') : Visited scheme settings root s'

/-- The search ends with a failure of the scheme, at the node that is due and
    without having reached a limit. -/
def EndsInScheme (scheme : Scheme α ν) (settings : Settings α) (root : ν) (failure : Failure α) :
    Prop :=
  ∃ s r id node rest, Visited scheme settings root s ∧ step scheme settings s = .ended r ∧
    r.answer = .error failure ∧ settings.reachedLimit? s.explored = none ∧
    s.frontier = (id, node) :: rest ∧ scheme.BreaksAt node failure

theorem EndsInScheme.breaksAt {root : ν} {failure : Failure α}
    (h : EndsInScheme scheme settings root failure) : ∃ node, scheme.BreaksAt node failure := by
  obtain ⟨s, r, id, node, rest, -, -, -, -, -, hbreaks⟩ := h
  exact ⟨node, hbreaks⟩

/-- A search that ends does so in the last step, in a visited state. -/
theorem advance_ended {root : ν} {steps : Nat} {s : State α ν} {r : Report α (SearchResult α)}
    (hs : Visited scheme settings root s) (h : advance scheme settings steps s = .ended r) :
    ∃ t, Visited scheme settings root t ∧ t.explored < s.explored + steps ∧
      step scheme settings t = .ended r := by
  -- The state moves along the run, so the induction is over all of them.
  induction steps generalizing s with
  | zero => cases h
  | succ steps ih =>
    unfold advance at h
    cases hstep : step scheme settings s with
    | running t =>
      rw [hstep] at h
      obtain ⟨u, hu, hlt, hend⟩ := ih (hs.next hstep) h
      have hone := step_explored hstep
      exact ⟨u, hu, by omega, hend⟩
    | ended r' =>
      rw [hstep] at h
      cases h
      exact ⟨s, hs, by omega, hstep⟩

/-- An answer is given by the last step, in a visited state. -/
theorem visited_of_run {steps : Nat} {root : ν} {answer : Except (Failure α) (SearchResult α)}
    (h : run steps scheme root settings = some answer) :
    ∃ s r, Visited scheme settings root s ∧ s.explored < steps ∧
      step scheme settings s = .ended r ∧ r.answer = answer := by
  unfold run report at h
  cases hadvance : advance scheme settings steps (.start scheme.sense root) with
  | running s => rw [hadvance] at h; cases h
  | ended r =>
    rw [hadvance] at h
    obtain ⟨t, ht, hlt, hend⟩ := advance_ended .start hadvance
    have hzero : (State.start scheme.sense root : State α ν).explored = 0 := rfl
    exact ⟨t, r, ht, by omega, hend, Option.some.inj h⟩

/-- An answer describes a visited state without open nodes. -/
theorem run_ok {steps : Nat} {root : ν} {result : SearchResult α}
    (h : run steps scheme root settings = some (.ok result)) :
    ∃ s, Visited scheme settings root s ∧ s.frontier = [] ∧
      result = s.result scheme.names s.verdict := by
  obtain ⟨t, r, ht, -, hstep, hanswer⟩ := visited_of_run h
  exact ⟨t, ht, step_ended hstep hanswer⟩

/-- An answer with a value is optimal, and no other one is. -/
theorem run_status {steps : Nat} {root : ν} {result : SearchResult α}
    (h : run steps scheme root settings = some (.ok result)) :
    (result.status = .optimal ∧ ∃ best, result.bestObjective = some best) ∨
      ((result.status = .infeasible ∨ result.status = .unbounded) ∧
        result.bestObjective = none) := by
  obtain ⟨s, -, -, rfl⟩ := run_ok h
  cases hbest : s.incumbent.objective with
  | some best => exact .inl ⟨State.verdict_eq_optimal.mpr ⟨best, hbest⟩, best, hbest⟩
  | none =>
    refine .inr ⟨?_, hbest⟩
    cases hroot : s.rootUnbounded with
    | false => exact .inl (State.verdict_eq_infeasible.mpr ⟨hbest, hroot⟩)
    | true => exact .inr (State.verdict_eq_unbounded.mpr ⟨hbest, hroot⟩)

/-- A search that fails has reached its limit in a visited state, or ends where
    the scheme fails. -/
theorem run_failed {steps : Nat} {root : ν} {failure : Failure α}
    (h : run steps scheme root settings = some (.error failure)) :
    (∃ s limit, Visited scheme settings root s ∧
        settings.reachedLimit? s.explored = some limit ∧
        failure = .nodeLimit limit s.explored (s.result scheme.names .error)) ∨
      EndsInScheme scheme settings root failure := by
  obtain ⟨t, r, ht, -, hstep, hanswer⟩ := visited_of_run h
  rcases step_failed_due hstep hanswer with
    ⟨limit, hreached, hfailure⟩ | ⟨hnone, id, node, rest, hfrontier, hbreaks⟩
  · exact .inl ⟨t, limit, ht, hreached, hfailure⟩
  · exact .inr ⟨t, r, id, node, rest, ht, hstep, hanswer, hnone, hfrontier, hbreaks⟩

/-! ## Nodes that lead to a solution -/

section lines

variable {root : ν} {P : ν → Prop}

/-- A node that leads to a solution does so until one is found: it is not
    pruned before, and one of its children leads to a solution as well. -/
theorem leads_of_visited {s : State α ν}
    (hP : ∀ node, P node → ∃ b, scheme.evaluate node = .ok (.bounded b) ∧
      (scheme.isComplete node b = false → ∀ lower upper,
        scheme.branch node b = .ok (lower, upper) → P lower.2 ∨ P upper.2))
    (hroot : P root) (h : Visited scheme settings root s) :
    s.incumbent.objective.isSome ∨ ∃ p ∈ s.frontier, P p.2 := by
  induction h with
  | start => exact .inr ⟨(0, root), List.mem_singleton.mpr rfl, hroot⟩
  | @next s s' _ hstep ih =>
    obtain ⟨id, node, rest, hfrontier, -, hexamined⟩ := step_running hstep
    have hfront : ∀ p ∈ s.frontier, P p.2 → P node ∨ ∃ p ∈ rest, P p.2 := by
      intro p hp hgood
      rw [hfrontier, List.mem_cons] at hp
      rcases hp with rfl | hp
      · exact .inl hgood
      · exact .inr ⟨p, hp, hgood⟩
    -- A solution is kept, and so is a good node that stays open.
    cases hold : s.incumbent.objective with
    | some best =>
      left
      cases hexamined with
      | infeasible | unbounded | pruned | split => exact Option.isSome_iff_exists.mpr ⟨best, hold⟩
      | complete => exact Incumbent.install_isSome _ _ _ _
    | none =>
      rw [hold] at ih
      obtain ⟨p, hp, hgood⟩ := ih.resolve_left Bool.false_ne_true
      cases hexamined with
      | infeasible hevaluate =>
        right
        apply (hfront p hp hgood).resolve_left
        intro hnode
        obtain ⟨b, hbounded, -⟩ := hP node hnode
        rw [hevaluate] at hbounded
        cases hbounded
      | unbounded hevaluate =>
        right
        apply (hfront p hp hgood).resolve_left
        intro hnode
        obtain ⟨b, hbounded, -⟩ := hP node hnode
        rw [hevaluate] at hbounded
        cases hbounded
      | pruned _ hbound =>
        -- Without an incumbent nothing is pruned.
        have hold' : (s.take rest (scheme.inspect node).events).incumbent.objective = none := hold
        unfold Incumbent.CanImprove at hbound
        rw [hold'] at hbound
        exact absurd trivial hbound
      | complete => exact .inl (Incumbent.install_isSome _ _ _ _)
      | split hevaluate hbound hcomplete hbranch =>
        right
        simp only [State.split_frontier, mem_extend]
        rcases hfront p hp hgood with hnode | ⟨p, hp, hgood⟩
        · obtain ⟨b', hbounded, hchildren⟩ := hP node hnode
          rw [hevaluate] at hbounded
          cases hbounded
          rcases hchildren hcomplete _ _ hbranch with hlower | hupper
          · exact ⟨_, .inr (.inl rfl), hlower⟩
          · exact ⟨_, .inr (.inr rfl), hupper⟩
        · exact ⟨p, .inl hp, hgood⟩

/-- A search below a root that leads to a solution finds one. -/
theorem optimal_of_leads {steps : Nat} {result : SearchResult α}
    (hP : ∀ node, P node → ∃ b, scheme.evaluate node = .ok (.bounded b) ∧
      (scheme.isComplete node b = false → ∀ lower upper,
        scheme.branch node b = .ok (lower, upper) → P lower.2 ∨ P upper.2))
    (hroot : P root) (h : run steps scheme root settings = some (.ok result)) :
    result.status = .optimal := by
  obtain ⟨s, hvisited, hempty, rfl⟩ := run_ok h
  rcases leads_of_visited hP hroot hvisited with hfound | ⟨p, hp, -⟩
  · exact State.verdict_eq_optimal.mpr (Option.isSome_iff_exists.mp hfound)
  · rw [hempty] at hp
    cases hp

/-- Below an infeasible root there is nothing to search. -/
theorem infeasible_of_root {reason : Infeasibility α} {steps : Nat} {result : SearchResult α}
    (hroot : scheme.evaluate root = .ok (.infeasible reason))
    (h : run steps scheme root settings = some (.ok result)) : result.status = .infeasible := by
  have hvisited : ∀ s, Visited scheme settings root s → s.incumbent.objective = none ∧
      s.rootUnbounded = false ∧ ∀ p ∈ s.frontier, p.2 = root := by
    intro s hs
    induction hs with
    | start => exact ⟨rfl, rfl, fun p hp => by rw [List.mem_singleton.mp hp]⟩
    | @next s s' _ hstep ih =>
      obtain ⟨hnone, hunbounded, hopen⟩ := ih
      obtain ⟨id, node, rest, hfrontier, -, hexamined⟩ := step_running hstep
      rw [hfrontier, List.forall_mem_cons] at hopen
      obtain ⟨rfl, hrest⟩ := hopen
      cases hexamined with
      | infeasible => exact ⟨hnone, hunbounded, hrest⟩
      | unbounded h | pruned h | complete h | split h =>
        rw [hroot] at h
        cases h
  obtain ⟨s, hs, -, rfl⟩ := run_ok h
  obtain ⟨hnone, hunbounded, -⟩ := hvisited s hs
  exact State.verdict_eq_infeasible.mpr ⟨hnone, hunbounded⟩

end lines

end Search

end IntegerProgramming
