import IntegerProgramming.Proofs.Search.Runs

/-! # A node limit only cuts a search short

    The limit is asked for when a node is due, and nothing else depends on it.
    A search under a limit therefore makes the steps of the unlimited search
    until it has examined as many nodes as the limit allows.  If no node is due
    any more, it has the same answer; otherwise it stops with a tree that the
    unlimited search continues (`SearchResult.IsCutOf`).

    Nothing is assumed about the scheme or the numbers. -/

namespace IntegerProgramming

variable {α ν : Type}

/-- What a search that was stopped after `limit` nodes leaves of the tree that
    it would have built. -/
structure SearchResult.IsCutOf (cut result : SearchResult α) (limit : Nat) : Prop where
  status : cut.status = .error
  explored : cut.explored = limit
  size_le : cut.nodes.size ≤ result.nodes.size
  /-- The nodes stand at the same places in both trees. -/
  place {i : Nat} {n : Node α} (hn : cut.nodes[i]? = some n) :
    ∃ q, result.nodes[i]? = some q ∧ q.id = n.id ∧ q.parent = n.parent ∧ q.depth = n.depth ∧
      q.branching = n.branching
  /-- What was found out about a node is the same in both trees. -/
  examined {i : Nat} {n : Node α} (hn : cut.nodes[i]? = some n) (hexamined : n.status ≠ .created) :
    result.nodes[i]? = some n
  incumbents : cut.incumbents.toList <+: result.incumbents.toList

namespace Search

/-! ## Settings with and without limit -/

def Settings.unlimited (settings : Settings α) : Settings α := { settings with nodeLimit := none }

def Settings.limited (settings : Settings α) (limit : Nat) : Settings α :=
  { settings with nodeLimit := some limit }

theorem reachedLimit?_unlimited (settings : Settings α) (explored : Nat) :
    settings.unlimited.reachedLimit? explored = none := rfl

theorem reachedLimit?_limited_of_lt {settings : Settings α} {limit explored : Nat}
    (h : explored < limit) : (settings.limited limit).reachedLimit? explored = none := by
  show (some limit).filter (· ≤ explored) = none
  simp [h]

theorem reachedLimit?_limited_of_le {settings : Settings α} {limit explored : Nat}
    (h : limit ≤ explored) : (settings.limited limit).reachedLimit? explored = some limit := by
  show (some limit).filter (· ≤ explored) = some limit
  simp [h]

variable [Scalar α] {scheme : Scheme α ν} {settings : Settings α} {root : ν} {s : State α ν}
  {limit steps : Nat}

/-! ## Steps under a limit -/

/-- Below the limit a step does not notice it, and neither does the last one. -/
theorem step_limited (h : s.frontier = [] ∨ s.explored < limit) :
    step scheme (settings.limited limit) s = step scheme settings.unlimited s := by
  unfold step
  cases hfrontier : s.frontier with
  | nil => rfl
  | cons front rest =>
    have hlt : s.explored < limit := by
      apply h.resolve_left
      rw [hfrontier]
      exact List.cons_ne_nil _ _
    rw [reachedLimit?_limited_of_lt hlt, reachedLimit?_unlimited]
    rfl

/-- At the limit a search stops if a node is due. -/
theorem step_stopped (hopen : s.frontier ≠ []) (h : limit ≤ s.explored) :
    step scheme (settings.limited limit) s =
      .ended ⟨.error (.nodeLimit limit s.explored (s.result scheme.names .error)), s.events⟩ := by
  unfold step
  cases hfrontier : s.frontier with
  | nil => exact absurd hfrontier hopen
  | cons front rest =>
    simp only [reachedLimit?_limited_of_le h]

/-- Without limit only the scheme fails, at the node that is due. -/
theorem step_failed_unlimited {r : Report α (SearchResult α)} {failure : Failure α}
    (h : step scheme settings.unlimited s = .ended r) (hr : r.answer = .error failure) :
    ∃ id node rest, s.frontier = (id, node) :: rest ∧ scheme.BreaksAt node failure := by
  rcases step_failed_due h hr with ⟨limit, hlimit, -⟩ | ⟨-, hbreaks⟩
  · rw [reachedLimit?_unlimited] at hlimit
    cases hlimit
  · exact hbreaks

/-! ## Runs under a limit -/

/-- A search under a limit passes through the states of the unlimited search
    that have examined no more nodes than the limit allows. -/
theorem visited_limited (h : Visited scheme settings.unlimited root s)
    (hlimit : s.explored ≤ limit) : Visited scheme (settings.limited limit) root s := by
  induction h with
  | start => exact .start
  | @next s s' _ hstep ih =>
    have hone := step_explored hstep
    have hbelow : s.explored < limit := by omega
    refine (ih hbelow.le).next ?_
    rw [step_limited (.inr hbelow), hstep]

/-- A state of the unlimited search with a node due is where the search stops
    that is limited to as many nodes. -/
theorem run_stopped (hs : Visited scheme settings.unlimited root s) (hopen : s.frontier ≠ [])
    (hsteps : s.explored < steps) :
    run steps scheme root (settings.limited s.explored) =
      some (.error (.nodeLimit s.explored s.explored (s.result scheme.names .error))) := by
  have hvisited := visited_limited hs (le_refl s.explored)
  exact run_of_visited hvisited (step_stopped hopen le_rfl) hsteps

/-- A state from which the unlimited search ends gives its answer to a limited
    search as well, if the limit is not reached or no node is due. -/
theorem run_unstopped (hs : Visited scheme settings.unlimited root s)
    {r : Report α (SearchResult α)} (hstep : step scheme settings.unlimited s = .ended r)
    (hlimit : s.frontier = [] ∧ s.explored ≤ limit ∨ s.explored < limit)
    (hsteps : s.explored < steps) :
    run steps scheme root (settings.limited limit) = some r.answer := by
  have hvisited : Visited scheme (settings.limited limit) root s := by
    apply visited_limited hs
    rcases hlimit with ⟨-, hle⟩ | hlt
    · exact hle
    · exact hlt.le
  refine run_of_visited hvisited ?_ hsteps
  rw [step_limited (hlimit.imp_left And.left), hstep]

/-- The scheme fails when the search examines its `k`-th node. -/
def FailsExploring (scheme : Scheme α ν) (settings : Settings α) (root : ν) (k : Nat)
    (failure : Failure α) : Prop :=
  ∃ s id node rest, Visited scheme settings root s ∧ s.explored + 1 = k ∧
    s.frontier = (id, node) :: rest ∧ scheme.BreaksAt node failure ∧
    ∃ r, step scheme settings s = .ended r ∧ r.answer = .error failure

/-- With a limit that the unlimited search keeps, the answer is the same; with
    any smaller one the search stops there, and what it leaves is the beginning
    of the unlimited search. -/
theorem limit_only_cuts (scheme : Scheme α ν) (settings : Settings α) (root : ν) (steps : Nat) :
    (∀ result, run steps scheme root settings.unlimited = some (.ok result) →
      (∀ limit, result.explored ≤ limit →
        run steps scheme root (settings.limited limit) = some (.ok result)) ∧
      ∀ limit, limit < result.explored → ∃ cut,
        run steps scheme root (settings.limited limit) =
            some (.error (.nodeLimit limit limit cut)) ∧
          cut.IsCutOf result limit) ∧
      ∀ failure, run steps scheme root settings.unlimited = some (.error failure) →
        ∃ k, FailsExploring scheme settings.unlimited root k failure ∧
          (∀ limit, k ≤ limit →
            run steps scheme root (settings.limited limit) = some (.error failure)) ∧
          ∀ limit, limit < k → ∃ cut,
            run steps scheme root (settings.limited limit) =
              some (.error (.nodeLimit limit limit cut)) := by
  constructor
  · intro result hrun
    obtain ⟨t, r, ht, hsteps, hstep, hr⟩ := visited_of_run hrun
    obtain ⟨hempty, rfl⟩ := step_ended hstep hr
    refine ⟨fun limit hlimit => ?_, fun limit hlimit => ?_⟩
    · rw [← hr]
      exact run_unstopped ht hstep (.inl ⟨hempty, hlimit⟩) hsteps
    · -- The search stops where the unlimited one has made as many steps.
      have hlt : limit < t.explored := hlimit
      obtain ⟨s, hs, rfl, hgrows, hopen⟩ := visited_between ht hlt.le
      refine ⟨_, run_stopped hs (hopen hlt) (hlt.trans hsteps), ?_⟩
      exact {
        status := rfl
        explored := rfl
        size_le := hgrows.size_le
        place := hgrows.place
        examined := hgrows.examined
        incumbents := hgrows.history }
  · intro failure hrun
    obtain ⟨t, r, ht, hsteps, hstep, hr⟩ := visited_of_run hrun
    obtain ⟨id, node, rest, hfrontier, hbreaks⟩ := step_failed_unlimited hstep hr
    refine ⟨t.explored + 1, ⟨t, id, node, rest, ht, rfl, hfrontier, hbreaks, r, hstep, hr⟩,
      fun limit hlimit => ?_, fun limit hlimit => ?_⟩
    · rw [← hr]
      exact run_unstopped ht hstep (.inr hlimit) hsteps
    · have hle : limit ≤ t.explored := by omega
      by_cases hlast : limit = t.explored
      · -- The node at which the scheme fails is not examined any more.
        subst hlast
        have hopen : t.frontier ≠ [] := by
          rw [hfrontier]
          exact List.cons_ne_nil _ _
        exact ⟨_, run_stopped ht hopen hsteps⟩
      · have hlt : limit < t.explored := by omega
        obtain ⟨s, hs, rfl, -, hopen⟩ := visited_between ht hle
        exact ⟨_, run_stopped hs (hopen hlt) (hlt.trans hsteps)⟩

/-- Halving an interval down to single numbers, which are not taken as
    solutions and cannot be halved. -/
def bareHalving : Scheme Exact (ℕ × ℕ) :=
  { halving with
    isComplete := fun _ _ => false
    branch := fun node b =>
      if node.1 = node.2 then .error .nothingToBranch else halving.branch node b }

theorem halving_cut :
    (∃ result cut : SearchResult Exact,
      run 20 halving (0, 3) { tolerance := .rational 0 } = some (.ok result) ∧
        run 20 halving (0, 3) { tolerance := .rational 0, nodeLimit := some result.explored } =
          some (.ok result) ∧
        run 20 halving (0, 3) { tolerance := .rational 0, nodeLimit := some 2 } =
          some (.error (.nodeLimit 2 2 cut)) ∧
        cut.IsCutOf result 2) ∧
      run 20 bareHalving (0, 3) { tolerance := .rational 0 } = some (.error .nothingToBranch) ∧
        ∃ k, FailsExploring bareHalving { tolerance := .rational 0 } (0, 3) k .nothingToBranch ∧
          run 20 bareHalving (0, 3) { tolerance := .rational 0, nodeLimit := some k } =
            some (.error .nothingToBranch) := by
  have hfinds : (run 20 halving (0, 3) { tolerance := .rational 0 }).map
      (fun answer => answer.toOption.map (·.explored)) = some (some 7) := by
    decide +kernel
  have hfails : run 20 bareHalving (0, 3) { tolerance := .rational 0 } =
      some (.error .nothingToBranch) := by
    decide +kernel
  refine ⟨?_, hfails, ?_⟩
  · cases hrun : run 20 halving (0, 3) { tolerance := .rational 0 } with
    | none => rw [hrun] at hfinds; cases hfinds
    | some answer =>
      rw [hrun] at hfinds
      cases answer with
      | error failure => cases hfinds
      | ok result =>
        have hexplored : result.explored = 7 := Option.some.inj (Option.some.inj hfinds)
        obtain ⟨hkeeps, hcuts⟩ :=
          (limit_only_cuts halving { tolerance := .rational 0 } (0, 3) 20).1 result hrun
        obtain ⟨cut, hcut, hbegins⟩ := hcuts 2 (by omega)
        exact ⟨result, cut, rfl, hkeeps result.explored le_rfl, hcut, hbegins⟩
  · obtain ⟨k, hk, hkeeps, -⟩ :=
      (limit_only_cuts bareHalving { tolerance := .rational 0 } (0, 3) 20).2 _ hfails
    exact ⟨k, hk, hkeeps k le_rfl⟩

end Search

end IntegerProgramming
