import IntegerProgramming.Number.Exact
import IntegerProgramming.Proofs.Checked.Grid
import IntegerProgramming.Proofs.Simplex.Phases

/-! # Replaying the trace of the simplex method

    A trace with snapshots describes the whole run.  It starts with the tableau
    of the slack basis, and each recorded pivot, made on the cells of one
    snapshot, gives the cells of the next one (`Pivot.Leads`).  So whoever has
    the trace can check the run without the engine: the pivot is the one on
    plain arrays (`Grid.pivotCells`), and rows and columns are looked up by
    their numbers.

    Repairs and improvements choose their pivots by different rules and record
    them in the same way, so one step lemma serves both phases.  Snapshots are
    never read back: without them the run is the same (`Trace.bare`). -/

namespace IntegerProgramming

variable {α : Type} {n m : Nat}

/-! ## Traces that replay -/

/-- The entry of a snapshot in a row and a column. -/
def Snapshot.cell (s : Snapshot α) (i j : Nat) : Option α := s.cells[i]?.bind (·[j]?)

section replays

variable [Scalar α]

/-- A pivot, the `k`-th one from zero, leads from one snapshot to the next. -/
structure Pivot.Leads (tolerance : α) (n m k : Nat) (columns : List String)
    (before after : Snapshot α) (p : Pivot α) : Prop where
  iteration : p.iteration = k + 1
  row : 1 ≤ p.row ∧ p.row ≤ m
  column : p.column < n + m
  entering : columns[p.column]? = some p.entering
  leaving : before.basis[p.row]? = some p.leaving
  element : before.cell p.row p.column = some p.element
  /-- The step is the quotient of the right-hand side and the element. -/
  ratio : ∃ rhs, before.cell p.row (n + m) = some rhs ∧ p.ratio = rhs / p.element
  cells : Grid.pivotCells tolerance before.cells p.row p.column = some after.cells
  basis : after.basis = before.basis.set p.row p.entering

/-- A trace describes a run from the first tableau of a standard form on. -/
structure Trace.Replays (tolerance : α) (form : StandardForm α n m) (t : Trace α) : Prop where
  columns : t.columns = form.columns.toList
  size : t.snapshots.size = t.pivots.size + 1
  iteration : ∀ (k : Nat) (s : Snapshot α), t.snapshots[k]? = some s → s.iteration = k
  /-- The run starts with the slack basis. -/
  first : ∃ s, t.snapshots[0]? = some s ∧
    s.cells = (Tableau.initial form).cells.toArray.map (·.toArray) ∧
    s.basis = "z" :: form.rows.toList.map fun r => "s_" ++ r.name
  pivot : ∀ (k : Nat) (p : Pivot α), t.pivots[k]? = some p → ∃ before after,
    t.snapshots[k]? = some before ∧ t.snapshots[k + 1]? = some after ∧
      p.Leads tolerance n m k t.columns before after

/-- A pivot that leads on from the last snapshot continues a trace. -/
theorem Trace.Replays.push {tolerance : α} {form : StandardForm α n m} {t : Trace α}
    (h : t.Replays tolerance form) {before after : Snapshot α} {p : Pivot α}
    (hbefore : t.snapshots[t.pivots.size]? = some before)
    (hafter : after.iteration = t.pivots.size + 1)
    (hleads : p.Leads tolerance n m t.pivots.size t.columns before after) :
    Trace.Replays tolerance form ⟨t.columns, t.snapshots.push after, t.pivots.push p⟩ := by
  obtain ⟨q, hfirst, hcells, hbasis⟩ := h.first
  -- What was recorded before stays where it is.
  have hold : ∀ (k : Nat) (q : Snapshot α), t.snapshots[k]? = some q →
      (t.snapshots.push after)[k]? = some q := by
    intro k q hq
    obtain ⟨hk, hq⟩ := Array.getElem?_eq_some_iff.mp hq
    rw [Array.getElem?_push_lt hk, hq]
  have hnew : (t.snapshots.push after)[t.pivots.size + 1]? = some after := by
    rw [← h.size]
    exact Array.getElem?_push_size
  refine ⟨h.columns, ?_, fun k q hq => ?_, ⟨q, hold 0 q hfirst, hcells, hbasis⟩,
    fun k p' hp => ?_⟩
  · rw [Array.size_push, Array.size_push, h.size]
  · rw [Array.getElem?_push] at hq
    split at hq
    · rename_i hk
      cases hq
      rw [hk, h.size, hafter]
    · exact h.iteration k q hq
  · rw [Array.getElem?_push] at hp
    split at hp
    · rename_i hk
      cases hp
      subst hk
      exact ⟨before, after, hold _ _ hbefore, hnew, hleads⟩
    · obtain ⟨earlier, later, hearlier, hlater, hown⟩ := h.pivot k p' hp
      exact ⟨earlier, later, hold _ _ hearlier, hold _ _ hlater, hown⟩

end replays

/-! ## The first snapshot -/

section first

variable (form : StandardForm α n m)

/-- A slack column carries the name of its row. -/
theorem label_slack (i : Fin m) : form.label (Fin.natAdd n i) = "s_" ++ (form.rows.get i).name := by
  have hslack : n + i.val < n + m := Nat.add_lt_add_left i.isLt n
  show ((form.names ++ form.rows.map fun r => "s_" ++ r.name).push "rhs")[n + i.val] = _
  rw [Vector.getElem_push_lt hslack, Vector.getElem_append_right hslack (Nat.le_add_right n i)]
  simp [Vector.get]

/-- At first all slacks are basic. -/
theorem basis_initial [Scalar α] : ((Tableau.initial form).snapshot form 0).basis =
    "z" :: form.rows.toList.map fun r => "s_" ++ r.name := by
  have hlabels : (Tableau.initial form).basis.toList.map form.label =
      form.rows.toList.map fun r => "s_" ++ r.name := by
    apply List.ext_getElem
    · simp
    · intro i hi _
      have him : i < m := by simpa using hi
      have hslack := label_slack form ⟨i, him⟩
      simpa [Tableau.initial, Vector.get] using hslack
  exact congrArg ("z" :: ·) hlabels

end first

namespace Simplex

/-! ## One pivot -/

section steps

variable [Scalar α] {s : Simplex α} {form : StandardForm α n m}

/-- The place where a repair ends the step has the ratio of its row. -/
theorem ratio_blockingRow (τ : α) (t : Tableau α n m) (row : Fin m) (column : Fin (n + m)) :
    (t.blockingRow τ row column).ratio =
      t.rhs (t.blockingRow τ row column).row /
        t.entry (t.blockingRow τ row column).row (t.blockingRow τ row column).column := by
  unfold Tableau.blockingRow
  -- Every best place so far has the ratio of its own row.
  refine List.foldlRecOn
    (motive := fun best : Tableau.Place α n m =>
      best.ratio = t.rhs best.row / t.entry best.row best.column)
    _ _ rfl fun best hbest i _ => ?_
  dsimp only
  split
  · rfl
  · exact hbest

/-- The place with the least ratio has the ratio of its row. -/
theorem ratio_leavingRow? {τ : α} {t : Tableau α n m} {column : Fin (n + m)}
    {place : Tableau.Place α n m} (h : t.leavingRow? τ column = some place) :
    place.ratio = t.rhs place.row / t.entry place.row place.column := by
  unfold Tableau.leavingRow? at h
  refine List.foldlRecOn
    (motive := fun best : α × Option (Tableau.Place α n m) => ∀ place, best.2 = some place →
      place.ratio = t.rhs place.row / t.entry place.row place.column)
    _ _ (fun place hplace => by cases hplace) (fun best hbest i _ => ?_) place h
  dsimp only
  split
  · intro place hplace
    cases hplace
    rfl
  · exact hbest

/-- A rule records the quotient of the right-hand side and the entry. -/
theorem ratio_of_asks {τ : α} {t : Tableau α n m} {place : Tableau.Place α n m} {phase : Phase}
    (h : phase.Asks τ t place) :
    place.ratio = t.rhs place.row / t.entry place.row place.column := by
  cases phase with
  | repairing =>
    have hrule : t.repair τ = .pivot place := h
    unfold Tableau.repair at hrule
    split at hrule
    · cases hrule
    · split at hrule
      · cases hrule
      · cases hrule
        exact ratio_blockingRow τ t _ _
  | improving =>
    have hrule : t.improvement τ = .pivot place := h
    unfold Tableau.improvement at hrule
    split at hrule
    · cases hrule
    · split at hrule
      · cases hrule
      · rename_i place' hleaving
        cases hrule
        exact ratio_leavingRow? hleaving

/-- The record of a pivot leads from the snapshot before it to the one
    after it. -/
theorem leads_of_asks {t : Tableau α n m} {place : Tableau.Place α n m} {phase : Phase} (k : Nat)
    (h : phase.Asks s.tolerance t place) :
    (t.step form place (k + 1)).Leads s.tolerance n m k form.columns.toList (t.snapshot form k)
      ((t.pivot s.tolerance place.row place.column).snapshot form (k + 1)) where
  iteration := rfl
  row := ⟨Nat.succ_pos _, place.row.isLt⟩
  column := place.column.isLt
  entering := by
    have hlabel : form.columns.toList[place.column.val]? = some (form.label place.column) := by
      rw [Vector.getElem?_toList]
      exact Vector.getElem?_eq_getElem _
    exact hlabel
  leaving := by
    have hlabel : (t.basis.toList.map form.label)[place.row.val]? =
        some (form.label t.basis[place.row]) := by
      simp
    exact hlabel
  element := t.grid_entry form k place.row place.column
  ratio := ⟨t.rhs place.row, t.grid_rhs form k place.row, ratio_of_asks h⟩
  cells := t.grid_pivotCells form k s.tolerance place.row place.column
  basis := by
    have hset : (t.basis.set place.row place.column).toList.map form.label =
        (t.basis.toList.map form.label).set place.row (form.label place.column) := by
      rw [Vector.toList_set, List.map_set]
    exact congrArg ("z" :: ·) hset

/-- A state whose trace replays, up to the tableau of the state. -/
structure Replayed (s : Simplex α) (form : StandardForm α n m) (state : State α n m) : Prop where
  trace : state.trace.Replays s.tolerance form
  last : state.trace.snapshots[state.trace.pivots.size]? =
    some (state.tableau.snapshot form state.trace.pivots.size)

theorem replayed_start (hs : s.snapshots = true) : Replayed s form (start s form) := by
  have htrace : (start s form).trace =
      ⟨form.columns.toList, #[(Tableau.initial form).snapshot form 0], #[]⟩ := by
    unfold start Trace.addSnapshot
    rw [hs]
    rfl
  have honly : ∀ (k : Nat) (q : Snapshot α), (start s form).trace.snapshots[k]? = some q →
      k = 0 ∧ q = (Tableau.initial form).snapshot form 0 := by
    intro k q hq
    rw [htrace] at hq
    cases k with
    | zero => exact ⟨rfl, (Option.some.inj hq).symm⟩
    | succ k => cases hq
  refine ⟨⟨?_, ?_, fun k q hq => ?_, ⟨_, ?_, rfl, basis_initial form⟩, fun k p hp => ?_⟩, ?_⟩
  · rw [htrace]
  · rw [htrace]
    rfl
  · obtain ⟨rfl, rfl⟩ := honly k q hq
    rfl
  · rw [htrace]
    rfl
  · rw [htrace] at hp
    cases hp
  · rw [htrace]
    rfl

/-- A pivot adds one record and one snapshot. -/
theorem Replayed.advance (hs : s.snapshots = true) {state : State α n m}
    (h : Replayed s form state) {place : Tableau.Place α n m} {phase : Phase}
    (hasks : phase.Asks s.tolerance state.tableau place) :
    Replayed s form (advance s form state place) := by
  have htrace : (Simplex.advance s form state place).trace =
      ⟨state.trace.columns,
        state.trace.snapshots.push
          ((state.tableau.pivot s.tolerance place.row place.column).snapshot form
            (state.trace.pivots.size + 1)),
        state.trace.pivots.push (state.tableau.step form place (state.trace.pivots.size + 1))⟩ := by
    unfold Simplex.advance Trace.addSnapshot
    dsimp only
    rw [if_pos hs]
    rfl
  have hleads : (state.tableau.step form place (state.trace.pivots.size + 1)).Leads s.tolerance n m
      state.trace.pivots.size state.trace.columns
      (state.tableau.snapshot form state.trace.pivots.size)
      ((state.tableau.pivot s.tolerance place.row place.column).snapshot form
        (state.trace.pivots.size + 1)) := by
    rw [h.trace.columns]
    exact leads_of_asks state.trace.pivots.size hasks
  constructor
  · rw [htrace]
    exact h.trace.push h.last rfl hleads
  · have hpivots : (Simplex.advance s form state place).trace.pivots.size =
        state.trace.pivots.size + 1 := by
      rw [htrace, Array.size_push]
    rw [hpivots, htrace, ← h.trace.size]
    exact Array.getElem?_push_size

theorem replayed_of_passes (hs : s.snapshots = true) {phase : Phase} {state : State α n m}
    (h : Passes s form phase state) : Replayed s form state := by
  induction h with
  | start => exact replayed_start hs
  | pivot _ hasks ih => exact ih.advance hs hasks
  | repaired _ _ ih => exact ih

/-! ## The budget -/

theorem pivots_advance (state : State α n m) (place : Tableau.Place α n m) :
    (advance s form state place).trace.pivots.size = state.trace.pivots.size + 1 := by
  unfold advance Trace.addSnapshot Trace.addPivot
  dsimp only
  split
  · exact Array.size_push _
  · exact Array.size_push _

theorem pivots_improve (repairs budget : Nat) (state : State α n m) :
    (improve s form repairs budget state).last.trace.pivots.size ≤
      state.trace.pivots.size + budget := by
  fun_induction improve s form repairs budget state with
  | case1 budget state => exact Nat.le_add_right _ _
  | case2 budget state => exact Nat.le_add_right _ _
  | case3 state => exact Nat.le_add_right _ _
  | case4 state place _ budget ih =>
    rw [pivots_advance] at ih
    omega

theorem pivots_repair (budget : Nat) (state : State α n m) :
    (repair s form budget state).last.trace.pivots.size ≤ state.trace.pivots.size + budget := by
  fun_induction repair s form budget state with
  | case1 budget state => exact pivots_improve _ _ _
  | case2 budget state => exact Nat.le_add_right _ _
  | case3 state => exact Nat.le_add_right _ _
  | case4 state place _ budget ih =>
    rw [pivots_advance] at ih
    omega

theorem pivots_start : (start s form).trace.pivots.size = 0 := by
  unfold start Trace.addSnapshot
  dsimp only
  split
  · rfl
  · rfl

/-- A run makes no more pivots than its budget allows. -/
theorem pivots_run : (s.run form).last.trace.pivots.size ≤ s.maxPivots := by
  have hrun : (repair s form s.maxPivots (start s form)).last.trace.pivots.size ≤
      (start s form).trace.pivots.size + s.maxPivots := pivots_repair _ _
  rw [pivots_start, Nat.zero_add] at hrun
  exact hrun

end steps

end Simplex

/-! ## Runs without snapshots -/

/-- The trace without its snapshots. -/
def Trace.bare (t : Trace α) : Trace α := { t with snapshots := #[] }

/-- The solution with a bare trace, and the same in all else. -/
def Solution.bare (sol : Solution α) : Solution α := { sol with trace := sol.trace.bare }

/-- The failure with a bare trace, if it has one. -/
def Failure.bare : Failure α → Failure α
  | .pivotLimit limit trace => .pivotLimit limit trace.bare
  | failure => failure

namespace Simplex

/-- The engine that keeps no snapshots. -/
def bare (s : Simplex α) : Simplex α := { s with snapshots := false }

def State.bare (state : State α n m) : State α n m := { state with trace := state.trace.bare }

def Run.bare (r : Run α n m) : Run α n m := { r with last := r.last.bare }

section bare

variable [Scalar α] (s : Simplex α) (form : StandardForm α n m)

theorem start_bare : start s.bare form = (start s form).bare := by
  have hbare : s.bare.snapshots = false := rfl
  unfold start Trace.addSnapshot
  rw [hbare]
  cases s.snapshots with
  | false => rfl
  | true => rfl

theorem advance_bare (state : State α n m) (place : Tableau.Place α n m) :
    advance s.bare form state.bare place = (advance s form state place).bare := by
  have hbare : s.bare.snapshots = false := rfl
  unfold advance Trace.addSnapshot
  rw [hbare]
  cases s.snapshots with
  | false => rfl
  | true => rfl

/-- The rules look at the tableau only, so the same pivots are made. -/
theorem improve_bare (repairs budget : Nat) (state : State α n m) :
    improve s.bare form repairs budget state.bare =
      (improve s form repairs budget state).bare := by
  fun_induction improve s form repairs budget state with
  | case1 budget state hrule =>
    have hsame : state.bare.tableau.improvement s.bare.tolerance = .optimal := hrule
    exact improve_optimal hsame
  | case2 budget state hrule =>
    have hsame : state.bare.tableau.improvement s.bare.tolerance = .unbounded := hrule
    exact improve_unbounded hsame
  | case3 state place hrule =>
    have hsame : state.bare.tableau.improvement s.bare.tolerance = .pivot place := hrule
    exact improve_exhausted hsame
  | case4 state place hrule budget ih =>
    have hsame : state.bare.tableau.improvement s.bare.tolerance = .pivot place := hrule
    rw [← ih, ← advance_bare]
    exact improve_pivot hsame

theorem repair_bare (budget : Nat) (state : State α n m) :
    repair s.bare form budget state.bare = (repair s form budget state).bare := by
  fun_induction repair s form budget state with
  | case1 budget state hrule =>
    have hsame : state.bare.tableau.repair s.bare.tolerance = .done := hrule
    rw [repair_done hsame]
    exact improve_bare s form _ budget state
  | case2 budget state row hrule =>
    have hsame : state.bare.tableau.repair s.bare.tolerance = .stuck row := hrule
    exact repair_stuck hsame
  | case3 state place hrule =>
    have hsame : state.bare.tableau.repair s.bare.tolerance = .pivot place := hrule
    exact repair_exhausted hsame
  | case4 state place hrule budget ih =>
    have hsame : state.bare.tableau.repair s.bare.tolerance = .pivot place := hrule
    rw [← ih, ← advance_bare]
    exact repair_pivot hsame

theorem run_bare : s.bare.run form = (s.run form).bare := by
  unfold run
  rw [start_bare]
  exact repair_bare s form _ _

theorem answer_bare (sense : Sense) (r : Run α n m) :
    r.bare.answer s.bare sense form =
      ((r.answer s sense form).map Solution.bare).mapError Failure.bare := by
  unfold Run.answer
  have hending : r.bare.ending = r.ending := rfl
  rw [hending]
  cases r.ending with
  | optimal => rfl
  | unbounded => rfl
  | infeasible reason => rfl
  | exhausted => rfl

/-- Without snapshots the engine gives the same answer, but for the snapshots. -/
theorem solve_bare (model : Model α) :
    s.bare.solve model = ((s.solve model).map Solution.bare).mapError Failure.bare := by
  unfold solve report
  cases model.misalignment with
  | some cause => rfl
  | none =>
    have htolerance : s.bare.tolerance = s.tolerance := rfl
    rw [htolerance]
    cases model.standardForm s.tolerance with
    | error refusal =>
      cases refusal with
      | unsupported cause => rfl
      | infeasible reason => rfl
    | ok p =>
      show (s.bare.run p.form).answer s.bare model.sense p.form = _
      rw [run_bare, answer_bare]

end bare

/-! ## Answers -/

section answers

variable [Scalar α] {s : Simplex α} {model : Model α}

/-- A model with a standard form is answered by a run on it. -/
theorem solve_eq_answer (hal : model.Aligned) {p : Prepared α model.vars.length}
    (hform : model.standardForm s.tolerance = .ok p) :
    s.solve model = (s.run p.form).answer s model.sense p.form := by
  have hnone : model.misalignment = none := hal
  unfold solve report
  rw [hnone, hform]

/-- The trace of an answer is that of the run. -/
theorem trace_of_answer {sense : Sense} {form : StandardForm α n m} {r : Run α n m}
    {sol : Solution α} (h : r.answer s sense form = .ok sol) :
    sol.trace = r.last.trace ∧ sol.iterations = r.last.trace.pivots.size := by
  unfold Run.answer at h
  cases hending : r.ending with
  | exhausted => rw [hending] at h; cases h
  | infeasible reason => rw [hending] at h; cases h; exact ⟨rfl, rfl⟩
  | unbounded => rw [hending] at h; cases h; exact ⟨rfl, rfl⟩
  | optimal => rw [hending] at h; cases h; exact ⟨rfl, rfl⟩

theorem trace_of_pivotLimit {sense : Sense} {form : StandardForm α n m} {r : Run α n m}
    {limit : Nat} {trace : Trace α} (h : r.answer s sense form = .error (.pivotLimit limit trace)) :
    trace = r.last.trace ∧ limit = s.maxPivots := by
  unfold Run.answer at h
  cases hending : r.ending with
  | exhausted => rw [hending] at h; cases h; exact ⟨rfl, rfl⟩
  | infeasible reason => rw [hending] at h; cases h
  | unbounded => rw [hending] at h; cases h
  | optimal => rw [hending] at h; cases h

theorem replays_run (hs : s.snapshots = true) (form : StandardForm α n m) :
    (s.run form).last.trace.Replays s.tolerance form := by
  obtain ⟨phase, hpasses, -⟩ := run_passes s form
  exact (replayed_of_passes hs hpasses).trace

/-- Whatever the numbers are, the trace of an answer and the trace of a run
    that spends its budget replay the run, unless no tableau was built because
    a variable has an empty range.  Keeping no snapshots changes nothing but
    the snapshots. -/
theorem trace_replays (s : Simplex α) (model : Model α) (hal : model.Aligned) :
    (s.snapshots = true →
      (∀ sol, s.solve model = .ok sol →
        (∃ reason, model.standardForm s.tolerance = .error (.infeasible reason)) ∨
        ∃ p, model.standardForm s.tolerance = .ok p ∧ sol.trace.Replays s.tolerance p.form ∧
          sol.iterations = sol.trace.pivots.size ∧ sol.iterations ≤ s.maxPivots) ∧
      ∀ limit trace, s.solve model = .error (.pivotLimit limit trace) →
        ∃ p, model.standardForm s.tolerance = .ok p ∧ trace.Replays s.tolerance p.form ∧
          trace.pivots.size ≤ s.maxPivots) ∧
    s.bare.solve model = ((s.solve model).map Solution.bare).mapError Failure.bare := by
  refine ⟨fun hs => ?_, solve_bare s model⟩
  cases hform : model.standardForm s.tolerance with
  | error refusal =>
    have hnone : model.misalignment = none := hal
    unfold solve report
    rw [hnone, hform]
    cases refusal with
    | unsupported cause => exact ⟨nofun, nofun⟩
    | infeasible reason => exact ⟨fun _ _ => .inl ⟨reason, rfl⟩, nofun⟩
  | ok p =>
    rw [solve_eq_answer hal hform]
    have hreplays := replays_run hs p.form
    have hbudget : (s.run p.form).last.trace.pivots.size ≤ s.maxPivots := pivots_run
    constructor
    · intro sol hsol
      obtain ⟨htrace, hiterations⟩ := trace_of_answer hsol
      rw [htrace, hiterations]
      exact .inr ⟨p, rfl, hreplays, rfl, hbudget⟩
    · intro limit trace hlimit
      obtain ⟨rfl, -⟩ := trace_of_pivotLimit hlimit
      exact ⟨p, rfl, hreplays, hbudget⟩

/-- A program that needs a repair, because of the lower bound of a variable, and
    improvements after it. -/
def convoy : Model Exact where
  sense := .maximize
  vars := [⟨"lead", .continuous, some (.rational 2), none⟩, ⟨"tail", .continuous, none, none⟩]
  objective := [.rational 3, .rational 1]
  constraints := [⟨"gap", [.rational 1, .rational (-1)], .atMost, .rational 1⟩,
    ⟨"length", [.rational 1, .rational 2], .atMost, .rational 10⟩]

/-- The run makes two pivots; with room for one of them only, it ends with the
    limit. -/
theorem convoy_replayed :
    (∃ sol p, ({ tolerance := 0 } : Simplex Exact).solve convoy = .ok sol ∧
      convoy.standardForm 0 = .ok p ∧ sol.iterations = 2 ∧
      sol.trace.Replays (0 : Exact) p.form) ∧
    ∃ trace p, ({ tolerance := 0, maxPivots := 1 } : Simplex Exact).solve convoy =
        .error (.pivotLimit 1 trace) ∧
      convoy.standardForm 0 = .ok p ∧ trace.Replays (0 : Exact) p.form := by
  have hal : convoy.Aligned := by decide
  have hprepared : ∀ reason, convoy.standardForm (0 : Exact) ≠ .error (.infeasible reason) := by
    intro reason hreason
    have hform : (convoy.standardForm (0 : Exact)).isOk = true := by decide +kernel
    rw [hreason] at hform
    cases hform
  constructor
  · have hrun : (({ tolerance := 0 } : Simplex Exact).solve convoy).toOption.map
        Solution.iterations = some 2 := by
      decide +kernel
    cases h : ({ tolerance := 0 } : Simplex Exact).solve convoy with
    | error failure => rw [h] at hrun; cases hrun
    | ok sol =>
      rw [h] at hrun
      obtain ⟨reason, hreason⟩ | ⟨p, hform, hreplays, -⟩ :=
        ((({ tolerance := 0 } : Simplex Exact).trace_replays convoy hal).1 rfl).1 sol h
      · exact absurd hreason (hprepared reason)
      · exact ⟨sol, p, rfl, hform, Option.some.inj hrun, hreplays⟩
  · have hrun : (match ({ tolerance := 0, maxPivots := 1 } : Simplex Exact).solve convoy with
        | .error (.pivotLimit limit _) => decide (limit = 1)
        | _ => false) = true := by
      decide +kernel
    cases h : ({ tolerance := 0, maxPivots := 1 } : Simplex Exact).solve convoy with
    | ok sol => rw [h] at hrun; cases hrun
    | error failure =>
      rw [h] at hrun
      cases failure with
      | pivotLimit limit trace =>
        have hcut := ({ tolerance := 0, maxPivots := 1 } : Simplex Exact).trace_replays convoy hal
        obtain ⟨p, hform, hreplays, -⟩ := (hcut.1 rfl).2 limit trace h
        have hlimit : limit = 1 := of_decide_eq_true hrun
        exact ⟨trace, p, by rw [hlimit], hform, hreplays⟩
      | _ => cases hrun

end answers

end Simplex

end IntegerProgramming
