import IntegerProgramming.Proofs.Checked.Solver

/-! # Failures of the solver

    What each engine fails with, and for what reason.  A search never runs out
    of variables to split on: branch and bound calls a node complete by the same
    test of its values by which it looks for one to split at, and a knapsack
    node that is not complete has an item left.  So there is nothing to branch
    only where branch and bound is asked for by name and the model has no
    variable that must be whole (`Solver.nothing_to_branch`).

    The solver that chooses the knapsack search has read the problem off the
    model already, and reading it again gives the same.  After that the search
    stops without an answer at its node limit only.

    Nothing is said about the numbers: any comparison may fail. -/

namespace IntegerProgramming

variable {α : Type} [Scalar α]

/-! ## Branch and bound -/

namespace BranchAndBound

variable {e : BranchAndBound α} {m : Model α}

/-- Without a variable that must be whole there is nothing to search. -/
theorem solve_continuous (hal : m.Aligned) (h : m.hasIntegral = false) (steps : Nat) :
    e.solve steps m = some (.error .nothingToBranch) := by
  have hnone : m.misalignment = none := hal
  unfold solve report
  rw [hnone, h]
  rfl

/-- Why branch and bound gives no answer: the model is misaligned, nothing has
    to be whole, the simplex method takes no more, or the search was stopped. -/
theorem solve_failed {steps : Nat} {failure : Failure α}
    (h : e.solve steps m = some (.error failure)) :
    (∃ cause, failure = .misaligned cause) ∨
      (m.Aligned ∧ m.hasIntegral = false ∧ failure = .nothingToBranch) ∨
        (∃ cause, failure = .unsupported cause) ∨
          (∃ trace, failure = .pivotLimit e.simplex.maxPivots trace) ∨
            ∃ limit explored tree, failure = .nodeLimit limit explored tree := by
  cases hal : m.misalignment with
  | some cause =>
    unfold solve report at h
    rw [hal] at h
    cases h
    exact .inl ⟨cause, rfl⟩
  | none =>
    right
    cases hintegral : m.hasIntegral with
    | false =>
      rw [solve_continuous hal hintegral] at h
      cases h
      exact .inl ⟨hal, rfl, rfl⟩
    | true =>
      rw [solve_eq_run hal hintegral] at h
      obtain ⟨s, r, hs, -, hstep, hr⟩ := Search.visited_of_run h
      right
      rcases Search.step_failed hstep hr with ⟨limit, -, rfl⟩ | ⟨p, hp, hbreaks⟩
      · exact .inr (.inr ⟨limit, _, _, rfl⟩)
      · have haligned := (aligned_of_reachable hal (Search.reachable_of_open hs hp)).2
        exact (failure_of_breaksAt haligned hbreaks).imp_right .inl

/-- Branch and bound finds nothing to branch in continuous models only. -/
theorem solve_eq_nothingToBranch_iff {steps : Nat} :
    e.solve steps m = some (.error .nothingToBranch) ↔ m.Aligned ∧ m.hasIntegral = false := by
  constructor
  · intro h
    obtain ⟨_, hother⟩ | ⟨hal, hcontinuous, -⟩ | ⟨_, hother⟩ | ⟨_, hother⟩ | ⟨_, _, _, hother⟩ :=
      solve_failed h
    · cases hother
    · exact ⟨hal, hcontinuous⟩
    · cases hother
    · cases hother
    · cases hother
  · rintro ⟨hal, hcontinuous⟩
    exact solve_continuous hal hcontinuous steps

end BranchAndBound

/-! ## The knapsack search -/

namespace Knapsack

variable {m : Model α}

/-- Why the knapsack search gives no answer: the model states no knapsack
    problem, or the search was stopped. -/
theorem solve_failed {settings : Search.Settings α} {steps : Nat} {failure : Failure α}
    (h : solve steps settings m = some (.error failure)) :
    ofModel settings.tolerance m = .error failure ∨
      (ofModel settings.tolerance m).isOk ∧
        ∃ limit explored tree, failure = .nodeLimit limit explored tree := by
  unfold solve report at h
  cases hmodel : ofModel settings.tolerance m with
  | error cause =>
    rw [hmodel] at h
    cases h
    exact .inl rfl
  | ok p =>
    rw [hmodel] at h
    have hrun : Search.run steps p.scheme p.root settings = some (.error failure) := h
    obtain ⟨s, r, hs, -, hstep, hr⟩ := Search.visited_of_run hrun
    rcases Search.step_failed hstep hr with ⟨limit, -, rfl⟩ | ⟨front, hfront, hbreaks⟩
    · exact .inr ⟨rfl, limit, _, _, rfl⟩
    · exact absurd hbreaks (not_breaksAt (covers_of_visited hmodel hs hfront) failure)

/-- The knapsack search always finds an item to branch on. -/
theorem solve_ne_nothingToBranch {settings : Search.Settings α} (steps : Nat) :
    solve steps settings m ≠ some (.error .nothingToBranch) := by
  intro h
  rcases solve_failed h with hmodel | ⟨-, _, _, _, hother⟩
  · obtain ⟨_, -, hother⟩ | ⟨_, hother⟩ := ofModel_failed hmodel
    · cases hother
    · cases hother
  · cases hother

end Knapsack

/-! ## The solver -/

namespace Solver

variable {s : Solver α} {m : Model α}

omit [Scalar α] in
/-- A search that fails gives its failure. -/
theorem map_search_eq_error_iff {answer : Option (Except (Failure α) (SearchResult α))}
    {failure : Failure α} :
    answer.map (Except.map .search) = some (.error failure : Except _ (Outcome α)) ↔
      answer = some (.error failure) := by
  rcases answer with _ | _ | result
  · exact ⟨nofun, nofun⟩
  · simp [Except.map]
  · simp [Except.map]

/-- Left to itself the solver takes the knapsack search for knapsacks only. -/
theorem isOk_of_engineFor (hauto : s.engine = none) (h : s.engineFor m = .knapsack) :
    (Knapsack.ofModel s.tolerance m).isOk := by
  unfold engineFor at h
  rw [hauto] at h
  dsimp only at h
  split at h
  · cases h
  · split at h
    · assumption
    · cases h

/-- Branch and bound is chosen by name, or for a model with a variable that
    must be whole. -/
theorem engine_of_continuous (h : s.engineFor m = .branchAndBound)
    (hcontinuous : m.hasIntegral = false) : s.engine = some .branchAndBound := by
  unfold engineFor at h
  cases hengine : s.engine with
  | some engine =>
    rw [hengine] at h
    exact congrArg some h
  | none =>
    rw [hengine, hcontinuous] at h
    cases h

/-- There is nothing to branch exactly where branch and bound is forced on an
    aligned model in which nothing has to be whole.  Inside a search there always
    is: an incomplete node of either scheme has two children.  And a solver that
    has chosen the knapsack search by itself fails at its node limit only. -/
theorem nothing_to_branch (s : Solver α) (m : Model α) :
    (∀ steps, s.solve steps m = some (.error .nothingToBranch) ↔
        s.engine = some .branchAndBound ∧ m.Aligned ∧ m.hasIntegral = false) ∧
      ((∀ (e : BranchAndBound α) (node : Model α) (b : Bounded α),
          (e.scheme m).isComplete node b = false →
            ∃ children, (e.scheme m).branch node b = .ok children) ∧
        ∀ (τ : α) (p : Knapsack.Problem α), Knapsack.ofModel τ m = .ok p →
          ∀ (node : Knapsack.Node α) (b : Bounded α), p.scheme.Reachable p.root node →
            p.scheme.isComplete node b = false →
              ∃ children, p.scheme.branch node b = .ok children) ∧
      (s.engine = none → s.engineFor m = .knapsack → ∀ steps failure,
        s.solve steps m = some (.error failure) →
          ∃ limit explored tree, failure = .nodeLimit limit explored tree) := by
  refine ⟨fun steps => ?_, ⟨fun e node b => BranchAndBound.branch_of_incomplete, ?_⟩, ?_⟩
  · constructor
    · intro h
      cases hengine : s.engineFor m with
      | simplex =>
        rw [solve_eq_simplex steps hengine, Option.some.injEq] at h
        cases hsolve : (s.simplex s.snapshots).solve m with
        | ok solution => rw [hsolve] at h; cases h
        | error failure =>
          rw [hsolve] at h
          obtain rfl : failure = .nothingToBranch := Except.error.inj h
          obtain ⟨_, -, hother⟩ | ⟨_, hother⟩ | ⟨_, hother⟩ := Simplex.solve_failed hsolve
          all_goals cases hother
      | branchAndBound =>
        rw [solve_eq_branchAndBound steps hengine, map_search_eq_error_iff,
          BranchAndBound.solve_eq_nothingToBranch_iff] at h
        exact ⟨engine_of_continuous hengine h.2, h⟩
      | knapsack =>
        rw [solve_eq_knapsack steps hengine, map_search_eq_error_iff] at h
        exact absurd h (Knapsack.solve_ne_nothingToBranch steps)
    · rintro ⟨hforced, hmodel⟩
      have hengine : s.engineFor m = .branchAndBound := by
        unfold engineFor
        rw [hforced]
      rw [solve_eq_branchAndBound steps hengine, map_search_eq_error_iff,
        BranchAndBound.solve_eq_nothingToBranch_iff]
      exact hmodel
  · intro τ p hmodel node b hreachable
    obtain ⟨c, -, rfl⟩ := Knapsack.ofModel_ok hmodel
    exact Knapsack.branch_of_incomplete
      (Knapsack.covers_of_reachable (Knapsack.depth_root τ m c) hreachable)
  · intro hauto hengine steps failure h
    rw [solve_eq_knapsack steps hengine, map_search_eq_error_iff] at h
    have hok : (Knapsack.ofModel s.settings.tolerance m).isOk := isOk_of_engineFor hauto hengine
    rcases Knapsack.solve_failed h with hrefused | ⟨-, hlimit⟩
    · rw [hrefused] at hok
      cases hok
    · exact hlimit

/-- Parcels, of which the lamp is to be taken along and the book may be. -/
def parcels : Model Float where
  sense := .maximize
  vars := [⟨"lamp", .binary, some 1, none⟩, ⟨"book", .binary, none, none⟩]
  objective := [4, 3]
  constraints := [⟨"weight", [3, 2], .atMost, 4⟩]

/-- The tangle has nothing that must be whole.  A point whose number is none is
    not whole, so it is split.  The parcels are a knapsack, of which one node is
    not enough. -/
theorem tangle_and_parcels_fail :
    { doubleSolver with engine := some .branchAndBound }.solve 0 tangle =
        some (.error .nothingToBranch) ∧
      (∃ children, (BranchAndBound.scheme ⟨doubleSolver.simplex false, doubleSolver.settings⟩
        parcels).branch parcels ⟨0, 0, [0 / 0, 1]⟩ = .ok children) ∧
      (∃ p children, Knapsack.ofModel 0 parcels = .ok p ∧
        p.scheme.branch p.root ⟨0, 0, []⟩ = .ok children) ∧
      ∃ failure limit explored tree,
        { doubleSolver with nodeLimit := some 1 }.solve 9 parcels = some (.error failure) ∧
          failure = .nodeLimit limit explored tree := by
  refine ⟨?_, ?_, ?_, ?_⟩
  · exact ((nothing_to_branch _ tangle).1 0).mpr ⟨rfl, by decide, by decide⟩
  · exact (nothing_to_branch doubleSolver parcels).2.1.1 _ _ _ (by decide +kernel)
  · have hitems : ((Knapsack.ofModel 0 parcels).toOption.map fun p =>
        p.root.depth == p.items.length) = some false := by
      decide +kernel
    cases hmodel : Knapsack.ofModel 0 parcels with
    | error failure => rw [hmodel] at hitems; cases hitems
    | ok p =>
      rw [hmodel] at hitems
      have hincomplete : p.scheme.isComplete p.root ⟨0, 0, []⟩ = false :=
        decide_eq_false fun h => by
        have hcomplete : p.root.depth = p.items.length := h
        simp [Except.toOption, hcomplete] at hitems
      obtain ⟨children, hchildren⟩ := (nothing_to_branch doubleSolver parcels).2.1.2 0 p hmodel
        p.root ⟨0, 0, []⟩ .refl hincomplete
      exact ⟨p, children, rfl, hchildren⟩
  · have hstopped : ({ doubleSolver with nodeLimit := some 1 }.solve 9 parcels).map
        Except.isOk = some false := by
      decide +kernel
    cases hsolve : { doubleSolver with nodeLimit := some 1 }.solve 9 parcels with
    | none => rw [hsolve] at hstopped; cases hstopped
    | some answer =>
      rw [hsolve] at hstopped
      cases answer with
      | ok outcome => cases hstopped
      | error failure =>
        obtain ⟨limit, explored, tree, hfailure⟩ :=
          (nothing_to_branch { doubleSolver with nodeLimit := some 1 } parcels).2.2 rfl
            (by decide +kernel) 9 failure hsolve
        exact ⟨failure, limit, explored, tree, rfl, hfailure⟩

end Solver

end IntegerProgramming
