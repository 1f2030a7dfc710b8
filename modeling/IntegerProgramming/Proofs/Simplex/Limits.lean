import IntegerProgramming.Proofs.Simplex.Replay

/-! # Raising the limit of pivots

    The limit is looked at only when a pivot is due.  A run that ends for any
    other reason is therefore the same under every higher limit, and a run that
    ends with the limit is the beginning of the runs under higher ones
    (`Simplex.Run.Raised`).

    Repairs and improvements share the budget.  What is left of it after the
    repairs differs between two limits by as much as the limits do, so the
    comparison passes from one phase to the next with the same surplus.

    Nothing here depends on the numbers. -/

namespace IntegerProgramming

variable {α : Type} {n m : Nat}

/-! ## Traces that go on -/

/-- A trace records what another one does, and perhaps more after it. -/
structure Trace.Extends (later earlier : Trace α) : Prop where
  columns : later.columns = earlier.columns
  snapshots : earlier.snapshots.toList <+: later.snapshots.toList
  pivots : earlier.pivots.toList <+: later.pivots.toList

namespace Trace.Extends

theorem refl (t : Trace α) : t.Extends t :=
  ⟨rfl, List.prefix_rfl, List.prefix_rfl⟩

theorem trans {a b c : Trace α} (hab : a.Extends b) (hbc : b.Extends c) : a.Extends c :=
  ⟨hab.columns.trans hbc.columns, hbc.snapshots.trans hab.snapshots, hbc.pivots.trans hab.pivots⟩

theorem size_le {later earlier : Trace α} (h : later.Extends earlier) :
    earlier.pivots.size ≤ later.pivots.size := by
  have hlength := h.pivots.length_le
  rw [Array.length_toList, Array.length_toList] at hlength
  exact hlength

end Trace.Extends

namespace Simplex

/-- The engine with another limit. -/
def limited (s : Simplex α) (limit : Nat) : Simplex α := { s with maxPivots := limit }

/-- What a surplus in the budget makes of a run. -/
structure Run.Raised (surplus : Nat) (r raised : Run α n m) : Prop where
  /-- A run that does not ask for more than it has is the same. -/
  same : r.ending ≠ .exhausted → raised = r
  extended : raised.last.trace.Extends r.last.trace
  /-- A run that asks for more makes at least one more pivot. -/
  more : r.ending = .exhausted → 0 < surplus →
    r.last.trace.pivots.size < raised.last.trace.pivots.size

theorem Run.Raised.refl (surplus : Nat) {r : Run α n m} (h : r.ending ≠ .exhausted) :
    r.Raised surplus r :=
  ⟨fun _ => rfl, .refl _, fun hexhausted => absurd hexhausted h⟩

variable [Scalar α] {s : Simplex α} {form : StandardForm α n m}

/-! ## Longer runs -/

theorem extends_advance (state : State α n m) (place : Tableau.Place α n m) :
    (advance s form state place).trace.Extends state.trace := by
  unfold advance Trace.addSnapshot Trace.addPivot
  dsimp only
  split
  · exact ⟨rfl, by simp, by simp⟩
  · exact ⟨rfl, List.prefix_rfl, by simp⟩

theorem extends_improve (repairs budget : Nat) (state : State α n m) :
    (improve s form repairs budget state).last.trace.Extends state.trace := by
  fun_induction improve s form repairs budget state with
  | case1 budget state => exact .refl _
  | case2 budget state => exact .refl _
  | case3 state => exact .refl _
  | case4 state place _ budget ih => exact ih.trans (extends_advance state place)

theorem extends_repair (budget : Nat) (state : State α n m) :
    (repair s form budget state).last.trace.Extends state.trace := by
  fun_induction repair s form budget state with
  | case1 budget state => exact extends_improve _ _ _
  | case2 budget state => exact .refl _
  | case3 state => exact .refl _
  | case4 state place _ budget ih => exact ih.trans (extends_advance state place)

/-- A run that ends with the limit has spent its budget. -/
theorem pivots_improve_exhausted (repairs budget : Nat) (state : State α n m)
    (h : (improve s form repairs budget state).ending = .exhausted) :
    (improve s form repairs budget state).last.trace.pivots.size =
      state.trace.pivots.size + budget := by
  fun_induction improve s form repairs budget state with
  | case1 budget state => cases h
  | case2 budget state => cases h
  | case3 state => rfl
  | case4 state place _ budget ih =>
    have hspent := ih h
    rw [pivots_advance] at hspent
    omega

theorem pivots_repair_exhausted (budget : Nat) (state : State α n m)
    (h : (repair s form budget state).ending = .exhausted) :
    (repair s form budget state).last.trace.pivots.size = state.trace.pivots.size + budget := by
  fun_induction repair s form budget state with
  | case1 budget state => exact pivots_improve_exhausted _ _ _ h
  | case2 budget state => cases h
  | case3 state => rfl
  | case4 state place _ budget ih =>
    have hspent := ih h
    rw [pivots_advance] at hspent
    omega

/-! ## Two budgets -/

/-- Where a pivot is due and the budget is spent, a surplus pays for it. -/
theorem more_of_advance {state : State α n m} {place : Tableau.Place α n m} {raised : Run α n m}
    (h : raised.last.trace.Extends (advance s form state place).trace) :
    state.trace.pivots.size < raised.last.trace.pivots.size := by
  have hsize := h.size_le
  rw [pivots_advance] at hsize
  omega

theorem improve_raised (repairs surplus budget : Nat) (state : State α n m) :
    (improve s form repairs budget state).Raised surplus
      (improve s form repairs (budget + surplus) state) := by
  fun_induction improve s form repairs budget state with
  | case1 budget state hrule =>
    rw [improve_optimal hrule]
    refine .refl surplus fun hexhausted => ?_
    cases hexhausted
  | case2 budget state hrule =>
    rw [improve_unbounded hrule]
    refine .refl surplus fun hexhausted => ?_
    cases hexhausted
  | case3 state place hrule =>
    refine ⟨fun hne => absurd rfl hne, extends_improve _ _ _, fun _ hpos => ?_⟩
    obtain ⟨k, rfl⟩ := Nat.exists_eq_add_of_lt hpos
    rw [Nat.zero_add, Nat.zero_add, improve_pivot hrule]
    exact more_of_advance (extends_improve _ _ _)
  | case4 state place hrule budget ih =>
    rw [Nat.succ_add, improve_pivot hrule]
    exact ih

theorem repair_raised (surplus budget : Nat) (state : State α n m) :
    (repair s form budget state).Raised surplus (repair s form (budget + surplus) state) := by
  fun_induction repair s form budget state with
  | case1 budget state hrule =>
    -- The surplus is carried over into the improvements.
    rw [repair_done hrule]
    exact improve_raised _ surplus budget state
  | case2 budget state row hrule =>
    rw [repair_stuck hrule]
    refine .refl surplus fun hexhausted => ?_
    cases hexhausted
  | case3 state place hrule =>
    refine ⟨fun hne => absurd rfl hne, extends_repair _ _, fun _ hpos => ?_⟩
    obtain ⟨k, rfl⟩ := Nat.exists_eq_add_of_lt hpos
    rw [Nat.zero_add, Nat.zero_add, repair_pivot hrule]
    exact more_of_advance (extends_repair _ _)
  | case4 state place hrule budget ih =>
    rw [Nat.succ_add, repair_pivot hrule]
    exact ih

/-! ## Two limits -/

/-- The limit is no part of the rules. -/
theorem improve_limited (limit repairs budget : Nat) (state : State α n m) :
    improve (s.limited limit) form repairs budget state =
      improve s form repairs budget state := by
  fun_induction improve s form repairs budget state with
  | case1 budget state hrule => exact improve_optimal hrule
  | case2 budget state hrule => exact improve_unbounded hrule
  | case3 state place hrule => exact improve_exhausted hrule
  | case4 state place hrule budget ih => exact (improve_pivot (s := s.limited limit) hrule).trans ih

theorem repair_limited (limit budget : Nat) (state : State α n m) :
    repair (s.limited limit) form budget state = repair s form budget state := by
  fun_induction repair s form budget state with
  | case1 budget state hrule =>
    exact (repair_done (s := s.limited limit) hrule).trans (improve_limited limit _ budget state)
  | case2 budget state row hrule => exact repair_stuck hrule
  | case3 state place hrule => exact repair_exhausted hrule
  | case4 state place hrule budget ih => exact (repair_pivot (s := s.limited limit) hrule).trans ih

theorem run_limited (limit : Nat) :
    (s.limited limit).run form = repair s form limit (start s form) :=
  repair_limited limit limit (start s form)

theorem run_raised {limit higher : Nat} (h : limit ≤ higher) :
    ((s.limited limit).run form).Raised (higher - limit) ((s.limited higher).run form) := by
  have hraised : (repair s form limit (start s form)).Raised (higher - limit)
      (repair s form (limit + (higher - limit)) (start s form)) := repair_raised _ _ _
  rw [Nat.add_sub_cancel' h] at hraised
  rw [run_limited, run_limited]
  exact hraised

/-- A run that ends with its limit has made as many pivots as the limit says. -/
theorem pivots_run_exhausted (h : (s.run form).ending = .exhausted) :
    (s.run form).last.trace.pivots.size = s.maxPivots := by
  have hspent := pivots_repair_exhausted s.maxPivots (start s form) h
  rw [pivots_start, Nat.zero_add] at hspent
  exact hspent

/-! ## Answers under two limits -/

section answers

variable {sense : Sense} {r : Run α n m}

/-- Only the limit itself is ever read from the engine's limit. -/
theorem answer_limited (limit : Nat) (h : r.ending ≠ .exhausted) :
    r.answer (s.limited limit) sense form = r.answer s sense form := by
  unfold Run.answer
  cases hending : r.ending with
  | exhausted => exact absurd hending h
  | infeasible reason => rfl
  | unbounded => rfl
  | optimal => rfl

theorem answer_exhausted (h : r.ending = .exhausted) :
    r.answer s sense form = .error (.pivotLimit s.maxPivots r.last.trace) := by
  unfold Run.answer
  rw [h]

theorem ending_of_pivotLimit {limit : Nat} {trace : Trace α}
    (h : r.answer s sense form = .error (.pivotLimit limit trace)) : r.ending = .exhausted := by
  unfold Run.answer at h
  cases hending : r.ending with
  | exhausted => rfl
  | infeasible reason => rw [hending] at h; cases h
  | unbounded => rw [hending] at h; cases h
  | optimal => rw [hending] at h; cases h

end answers

/-- The trace of an answer, or of the failure at a limit that a run has
    reached. -/
def Records (limit : Nat) (answer : Except (Failure α) (Solution α)) (trace : Trace α) : Prop :=
  (∃ sol, answer = .ok sol ∧ sol.trace = trace) ∨
    answer = .error (.pivotLimit limit trace) ∧ trace.pivots.size = limit

theorem records_run (sense : Sense) (form : StandardForm α n m) :
    Records s.maxPivots ((s.run form).answer s sense form) (s.run form).last.trace := by
  by_cases h : (s.run form).ending = .exhausted
  · exact .inr ⟨answer_exhausted h, pivots_run_exhausted h⟩
  · refine .inl ?_
    unfold Run.answer
    cases hending : (s.run form).ending with
    | exhausted => exact absurd hending h
    | infeasible reason => exact ⟨_, rfl, rfl⟩
    | unbounded => exact ⟨_, rfl, rfl⟩
    | optimal => exact ⟨_, rfl, rfl⟩

/-- Either a model is answered by runs on its standard form, or the answer does
    not depend on the limit. -/
theorem solve_limited_cases (s : Simplex α) (model : Model α) :
    (∃ p : Prepared α model.vars.length, ∀ limit, (s.limited limit).solve model =
      ((s.limited limit).run p.form).answer (s.limited limit) model.sense p.form) ∨
    ∃ answer, (∀ limit, (s.limited limit).solve model = answer) ∧
      ∀ reached trace, answer ≠ .error (.pivotLimit reached trace) := by
  cases hal : model.misalignment with
  | some cause =>
    refine .inr ⟨.error (.misaligned cause), fun limit => ?_, nofun⟩
    unfold solve report
    rw [hal]
  | none =>
    cases hform : model.standardForm s.tolerance with
    | ok p => exact .inl ⟨p, fun limit => solve_eq_answer hal hform⟩
    | error refusal =>
      have hrefusal : ∀ limit, model.standardForm (s.limited limit).tolerance = .error refusal :=
        fun _ => hform
      cases refusal with
      | unsupported cause =>
        refine .inr ⟨.error (.unsupported cause), fun limit => ?_, nofun⟩
        unfold solve report
        rw [hal, hrefusal]
      | infeasible reason =>
        refine .inr ⟨.ok { status := .infeasible, iterations := 0, trace := {} },
          fun limit => ?_, nofun⟩
        unfold solve report
        rw [hal, hrefusal]

/-- Whatever the numbers are, a higher limit changes no answer that a run has
    found under the lower one.  A run that ends with the lower limit has made
    exactly that many pivots, and under the higher one its trace goes on, by at
    least one pivot if the limits differ. -/
theorem solve_limited (s : Simplex α) (model : Model α) {limit higher : Nat}
    (h : limit ≤ higher) :
    ((∀ reached trace, (s.limited limit).solve model ≠ .error (.pivotLimit reached trace)) →
      (s.limited higher).solve model = (s.limited limit).solve model) ∧
    ∀ reached trace, (s.limited limit).solve model = .error (.pivotLimit reached trace) →
      reached = limit ∧ trace.pivots.size = limit ∧
        (s.snapshots = true → trace.snapshots.size = limit + 1) ∧
        ∃ later, Records higher ((s.limited higher).solve model) later ∧ later.Extends trace ∧
          (limit < higher → limit + 1 ≤ later.pivots.size) := by
  obtain ⟨p, hanswer⟩ | ⟨answer, hanswer, hnever⟩ := solve_limited_cases s model
  · have hraised : ((s.limited limit).run p.form).Raised (higher - limit)
        ((s.limited higher).run p.form) := run_raised h
    rw [hanswer, hanswer]
    by_cases hending : ((s.limited limit).run p.form).ending = .exhausted
    · -- The run asks for a pivot that the lower limit does not allow.
      have hspent := pivots_run_exhausted hending
      rw [answer_exhausted hending]
      refine ⟨fun hnever => absurd rfl (hnever _ _), fun reached trace he => ?_⟩
      cases he
      refine ⟨rfl, hspent, fun hs => ?_, _, records_run _ _, hraised.extended, fun hlt => ?_⟩
      · have hreplays := replays_run (s := s.limited limit) hs p.form
        rw [hreplays.size, hspent]
        rfl
      · have hmore := hraised.more hending (Nat.sub_pos_of_lt hlt)
        rw [hspent] at hmore
        exact hmore
    · refine ⟨fun _ => ?_, fun reached trace he => absurd (ending_of_pivotLimit he) hending⟩
      rw [hraised.same hending]
      exact answer_limited (s := s.limited limit) higher hending
  · rw [hanswer, hanswer]
    exact ⟨fun _ => rfl, fun reached trace he => absurd he (hnever reached trace)⟩

/-- The convoy needs a repair and an improvement.  Without any pivots the run
    ends in the repairs; with two it ends in the improvements, with an answer. -/
theorem convoy_limited : ∃ trace sol,
    (({ tolerance := 0 } : Simplex Exact).limited 0).solve convoy =
      .error (.pivotLimit 0 trace) ∧ trace.snapshots.size = 1 ∧
    (({ tolerance := 0 } : Simplex Exact).limited 2).solve convoy = .ok sol ∧
      sol.trace.pivots.size = 2 ∧ sol.trace.Extends trace := by
  have hending : (convoy.standardForm (0 : Exact)).toOption.map (fun p =>
      ((({ tolerance := 0 } : Simplex Exact).limited 0).run p.form).ending) =
        some .exhausted := by
    decide +kernel
  have hrun : ((({ tolerance := 0 } : Simplex Exact).limited 2).solve convoy).toOption.map
      (fun sol => sol.trace.pivots.size) = some 2 := by
    decide +kernel
  have hlimited := solve_limited ({ tolerance := 0 } : Simplex Exact) convoy (Nat.zero_le 2)
  cases hform : convoy.standardForm (0 : Exact) with
  | error refusal => rw [hform] at hending; cases hending
  | ok p =>
    rw [hform] at hending
    have hfailed : (({ tolerance := 0 } : Simplex Exact).limited 0).solve convoy = _ :=
      solve_eq_answer (by decide) hform
    rw [answer_exhausted (Option.some.inj hending)] at hfailed
    obtain ⟨-, -, hsnapshots, later, hrecords, hextends, -⟩ := hlimited.2 _ _ hfailed
    obtain ⟨sol, hsolved, rfl⟩ | ⟨hfailure, -⟩ := hrecords
    · rw [hsolved] at hrun
      exact ⟨_, sol, hfailed, hsnapshots rfl, hsolved, Option.some.inj hrun, hextends⟩
    · rw [hfailure] at hrun
      cases hrun

end Simplex

end IntegerProgramming
