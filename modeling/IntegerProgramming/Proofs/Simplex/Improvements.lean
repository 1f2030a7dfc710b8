import IntegerProgramming.Proofs.Simplex.Repairs

/-! # Improvements lose nothing

    When the repairs are done no right-hand side is negative, and every pivot
    from then on is an improvement: the leftmost of the columns with the most
    negative reduced cost enters, at the first of the rows with the least ratio
    (`Tableau.Improves`).

    Both choices are made by a scan that compares strictly with its best entry
    so far, which starts at something that every entry that counts is below.
    Such a scan ends with the first least entry, because an equal one that comes
    later does not replace it (`Tableau.keepsFirst_foldl`).  The column and the row
    are two cases of this one fact.

    The least ratio keeps the right-hand sides from becoming negative, and the
    objective gains the ratio times what the entering column is worth.  It
    grows whenever the ratio is positive; a ratio of zero leaves it as it is.
    Along a run the objective therefore never falls
    (`Simplex.objective_le_of_improving`). -/

namespace IntegerProgramming

open Exact

namespace Tableau

/-! ## Scans for the first least entry -/

section scans

variable {k : Nat} {β : Type} {counts : Fin k → Prop} {f : Fin k → ℚ} {keep : Fin k → β}
  {start : Exact}

/-- Of the entries seen that count, this one is least, and all that stand
    before it are larger. -/
structure FirstLeast (counts : Fin k → Prop) (f : Fin k → ℚ) (seen : List (Fin k)) (c : Fin k) :
    Prop where
  mem : c ∈ seen
  counted : counts c
  least : ∀ j ∈ seen, counts j → f c ≤ f j
  first : ∀ j ∈ seen, counts j → j < c → f c < f j

/-- What a scan knows after some entries: none of them counts, or it keeps the
    first least one. -/
inductive KeepsFirst (counts : Fin k → Prop) (f : Fin k → ℚ) (keep : Fin k → β) (start : Exact)
    (seen : List (Fin k)) : Exact × Option β → Prop where
  | nothing (h : ∀ j ∈ seen, ¬ counts j) : KeepsFirst counts f keep start seen (start, none)
  | found (c : Fin k) (h : FirstLeast counts f seen c) :
      KeepsFirst counts f keep start seen (rational (f c), some (keep c))

variable {seen : List (Fin k)} {best : Exact × Option β} {j : Fin k}

/-- An entry below the best one replaces it: it is less than all before it. -/
theorem KeepsFirst.replace (h : KeepsFirst counts f keep start seen best) (hj : counts j)
    (hlt : rational (f j) < best.1) :
    KeepsFirst counts f keep start (seen ++ [j]) (rational (f j), some (keep j)) := by
  have hbelow : ∀ i ∈ seen, counts i → f j < f i := by
    intro i hi hcounts
    cases h with
    | nothing hnone => exact absurd hcounts (hnone i hi)
    | found c hfirst =>
      have hbest : f j < f c := (rational_lt _ _).mp hlt
      exact hbest.trans_le (hfirst.least i hi hcounts)
  refine .found j ⟨by simp, hj, ?_, ?_⟩
  · exact forall_mem_snoc (fun i hi hcounts => (hbelow i hi hcounts).le) fun _ => le_rfl
  · exact forall_mem_snoc (fun i hi hcounts _ => hbelow i hi hcounts)
      fun _ hlt => absurd hlt (lt_irrefl j)

/-- An entry that does not count or is not below the best one changes nothing,
    since it stands behind all others. -/
theorem KeepsFirst.pass (h : KeepsFirst counts f keep start seen best) (hlast : ∀ i ∈ seen, i < j)
    (hstart : ∀ i, counts i → rational (f i) < start)
    (hpass : ¬ (counts j ∧ rational (f j) < best.1)) :
    KeepsFirst counts f keep start (seen ++ [j]) best := by
  cases h with
  | nothing hnone =>
    exact .nothing (forall_mem_snoc hnone fun hj => hpass ⟨hj, hstart j hj⟩)
  | found c hfirst =>
    have hle : counts j → f c ≤ f j := by
      intro hj
      by_contra hlt
      exact hpass ⟨hj, (rational_lt _ _).mpr (not_le.mp hlt)⟩
    refine .found c ⟨List.mem_append_left _ hfirst.mem, hfirst.counted, ?_, ?_⟩
    · exact forall_mem_snoc hfirst.least hle
    · exact forall_mem_snoc hfirst.first
        fun _ hbefore => absurd hbefore (hlast c hfirst.mem).asymm

/-- A scan that takes an entry exactly if it counts and is below the best one
    ends with the first least entry. -/
theorem keepsFirst_foldl (step : Exact × Option β → Fin k → Exact × Option β)
    (hstart : ∀ i, counts i → rational (f i) < start)
    (htakes : ∀ seen best j, KeepsFirst counts f keep start seen best →
      counts j ∧ rational (f j) < best.1 → step best j = (rational (f j), some (keep j)))
    (hpasses : ∀ seen best j, KeepsFirst counts f keep start seen best →
      ¬ (counts j ∧ rational (f j) < best.1) → step best j = best) :
    KeepsFirst counts f keep start (List.finRange k)
      ((List.finRange k).foldl step (start, none)) := by
  have hscan : ∀ entries : List (Fin k), entries.Pairwise (· < ·) →
      KeepsFirst counts f keep start entries (entries.foldl step (start, none)) := by
    intro entries
    induction entries using List.reverseRecOn with
    | nil =>
      intro _
      exact .nothing fun j hj => absurd hj List.not_mem_nil
    | append_singleton entries j ih =>
      intro hsorted
      obtain ⟨hentries, -, hlast⟩ := List.pairwise_append.mp hsorted
      have hseen := ih hentries
      rw [List.foldl_append, List.foldl_cons, List.foldl_nil]
      by_cases htake : counts j ∧ rational (f j) < (entries.foldl step (start, none)).1
      · rw [htakes entries _ j hseen htake]
        exact hseen.replace htake.1 htake.2
      · rw [hpasses entries _ j hseen htake]
        exact hseen.pass (fun i hi => hlast i hi j (List.mem_singleton_self j)) hstart htake
  exact hscan _ (List.pairwise_lt_finRange k)

end scans

/-! ## The entering column and the leaving row -/

section choices

variable {n m : Nat} {t : Tableau Exact n m}

theorem IsRational.entry_pos_iff (h : t.IsRational) (i : Fin m) (c : Fin (n + m)) :
    0 < t.entry i c ↔ 0 < t.coefficient i c := by
  rw [h.entry_eq]
  exact rational_lt 0 _

theorem IsRational.ratio_eq (h : t.IsRational) {i : Fin m} {c : Fin (n + m)}
    (hi : 0 < t.coefficient i c) :
    t.rhs i / t.entry i c = rational (t.level i / t.coefficient i c) := by
  rw [h.rhs_eq, h.entry_eq, rational_div hi.ne']

/-- The first least negative entry is the first least entry: the others that do
    not count are not negative. -/
theorem FirstLeast.of_negative {k : Nat} {f : Fin k → ℚ} {c : Fin k}
    (h : FirstLeast (fun j => f j < 0) f (List.finRange k) c) :
    (∀ j, f c ≤ f j) ∧ ∀ j, j < c → f c < f j := by
  have hcounted : f c < 0 := h.counted
  constructor
  · intro j
    by_cases hj : f j < 0
    · exact h.least j (List.mem_finRange j) hj
    · linarith
  · intro j hbefore
    by_cases hj : f j < 0
    · exact h.first j (List.mem_finRange j) hj hbefore
    · linarith

theorem enteringColumn?_first (h : t.IsRational) {c : Fin (n + m)}
    (hc : t.enteringColumn? 0 = some c) :
    FirstLeast (fun j => t.cost j < 0) t.cost (List.finRange (n + m)) c := by
  have hscan : KeepsFirst (fun j => t.cost j < 0) t.cost id (-0) (List.finRange (n + m))
      ((List.finRange (n + m)).foldl
        (fun best j => if t.reducedCost j < best.1 then (t.reducedCost j, some j) else best)
        (-0, none)) := by
    apply keepsFirst_foldl
    · intro j hj
      simpa using hj
    · intro seen best j _ htake
      rw [h.reducedCost_eq, if_pos htake.2]
      rfl
    · intro seen best j hbest hpass
      refine if_neg fun hlt => hpass ?_
      rw [h.reducedCost_eq] at hlt
      -- A cost below the best one is negative, because the best one is not positive.
      refine ⟨?_, hlt⟩
      cases hbest with
      | nothing _ => simpa using hlt
      | found c hfirst => exact ((rational_lt _ _).mp hlt).trans hfirst.counted
  unfold enteringColumn? at hc
  generalize (List.finRange (n + m)).foldl _ _ = best at hscan hc
  cases hscan with
  | nothing _ => cases hc
  | found c' hfirst =>
    cases hc
    exact hfirst

theorem leavingRow?_first (h : t.IsRational) {c : Fin (n + m)} {place : Place Exact n m}
    (hr : t.leavingRow? 0 c = some place) :
    place = ⟨place.row, c, t.rhs place.row / t.entry place.row c⟩ ∧
      FirstLeast (fun i => 0 < t.coefficient i c) (fun i => t.level i / t.coefficient i c)
        (List.finRange m) place.row := by
  have hscan : KeepsFirst (fun i => 0 < t.coefficient i c)
      (fun i => t.level i / t.coefficient i c)
      (fun i => (⟨i, c, t.rhs i / t.entry i c⟩ : Place Exact n m)) Scalar.infinity
      (List.finRange m)
      ((List.finRange m).foldl
        (fun best i =>
          let ratio := t.rhs i / t.entry i c
          if 0 < t.entry i c ∧ ratio < best.1 - 0 then (ratio, some ⟨i, c, ratio⟩) else best)
        (Scalar.infinity, none)) := by
    apply keepsFirst_foldl
    · intro i _
      exact rational_lt_plusInfinity _
    · intro seen best i _ htake
      dsimp only
      rw [sub_zero_eq, h.ratio_eq htake.1, if_pos ⟨(h.entry_pos_iff i c).mpr htake.1, htake.2⟩]
    · intro seen best i _ hpass
      refine if_neg ?_
      rintro ⟨hentry, hlt⟩
      have hi := (h.entry_pos_iff i c).mp hentry
      rw [sub_zero_eq, h.ratio_eq hi] at hlt
      exact hpass ⟨hi, hlt⟩
  unfold leavingRow? at hr
  generalize (List.finRange m).foldl _ _ = best at hscan hr
  cases hscan with
  | nothing _ => cases hr
  | found i hfirst =>
    cases hr
    exact ⟨rfl, hfirst⟩

end choices

/-! ## One improvement -/

/-- What the improvement rule chooses in a tableau without negative right-hand
    sides, and what the pivot makes of it. -/
structure Improves {α : Type} [Scalar α] {n m : Nat} (t t' : Tableau α n m)
    (place : Place α n m) : Prop where
  feasible : ∀ i, 0 ≤ t.rhs i
  /-- No right-hand side becomes negative. -/
  kept : ∀ i, 0 ≤ t'.rhs i
  negative : t.reducedCost place.column < 0
  /-- No column has a smaller reduced cost. -/
  steepest : ∀ j, t.reducedCost place.column ≤ t.reducedCost j
  leftmost : ∀ j, j < place.column → t.reducedCost place.column < t.reducedCost j
  positive : 0 < t.entry place.row place.column
  ratio_eq : place.ratio = t.rhs place.row / t.entry place.row place.column
  /-- No row that could end the step has a smaller ratio. -/
  least : ∀ i, 0 < t.entry i place.column → place.ratio ≤ t.rhs i / t.entry i place.column
  first : ∀ i, i < place.row → 0 < t.entry i place.column →
    place.ratio < t.rhs i / t.entry i place.column
  gain : t'.objective = t.objective + -t.reducedCost place.column * place.ratio
  objective_le : t.objective ≤ t'.objective
  objective_lt : 0 < place.ratio → t.objective < t'.objective

section improvements

variable {n m : Nat} {t : Tableau Exact n m} {r : Fin m} {c : Fin (n + m)}

/-- The objective gains the step times what the entering column is worth. -/
theorem worth_pivot (h : t.IsRational) (ha : t.coefficient r c ≠ 0) :
    (t.pivot 0 r c).worth = t.worth + -t.cost c * (t.level r / t.coefficient r c) := by
  have hcell := cell_pivot_of_ne h ha (Fin.succ_ne_zero r).symm (Fin.last (n + m))
  show (t.pivot 0 r c).cell 0 (Fin.last (n + m)) = _
  rw [hcell, neg_mul, ← sub_eq_add_neg]
  rfl

/-- A pivot at the first of the steepest columns and the first of the rows with
    the least ratio. -/
theorem improves_of_first (h : t.IsRational) (hl : ∀ i, 0 ≤ t.level i)
    (hcolumn : FirstLeast (fun j => t.cost j < 0) t.cost (List.finRange (n + m)) c)
    (hrow : FirstLeast (fun i => 0 < t.coefficient i c) (fun i => t.level i / t.coefficient i c)
      (List.finRange m) r) :
    t.Improves (t.pivot 0 r c) ⟨r, c, t.rhs r / t.entry r c⟩ := by
  have hcost : t.cost c < 0 := hcolumn.counted
  have hpositive : 0 < t.coefficient r c := hrow.counted
  obtain ⟨hsteepest, hleftmost⟩ := hcolumn.of_negative
  have hafter : (t.pivot 0 r c).IsRational := h.pivot hpositive.ne' 0
  have hworth := worth_pivot h hpositive.ne'
  have hratio := h.ratio_eq hpositive
  have hstep : 0 ≤ t.level r / t.coefficient r c := div_nonneg (hl r) hpositive.le
  exact {
    feasible := by
      intro i
      exact (h.rhs_nonneg_iff i).mpr (hl i)
    kept := by
      intro i
      rw [hafter.rhs_nonneg_iff]
      exact Simplex.level_pivot_nonneg h hl hpositive
        (fun k hk => hrow.least k (List.mem_finRange k) hk) i
    negative := by
      rw [h.reducedCost_eq]
      exact (rational_lt _ 0).mpr hcost
    steepest := by
      intro j
      rw [h.reducedCost_eq, h.reducedCost_eq, rational_le]
      exact hsteepest j
    leftmost := by
      intro j hbefore
      rw [h.reducedCost_eq, h.reducedCost_eq, rational_lt]
      exact hleftmost j hbefore
    positive := (h.entry_pos_iff r c).mpr hpositive
    ratio_eq := rfl
    least := by
      intro i hi
      have hcoefficient := (h.entry_pos_iff i c).mp hi
      rw [hratio, h.ratio_eq hcoefficient, rational_le]
      exact hrow.least i (List.mem_finRange i) hcoefficient
    first := by
      intro i hbefore hi
      have hcoefficient := (h.entry_pos_iff i c).mp hi
      rw [hratio, h.ratio_eq hcoefficient, rational_lt]
      exact hrow.first i (List.mem_finRange i) hcoefficient hbefore
    gain := by
      rw [hafter.objective_eq, h.objective_eq, h.reducedCost_eq, hratio, hworth]
      simp
    objective_le := by
      rw [hafter.objective_eq, h.objective_eq, rational_le, hworth]
      have hgain := mul_nonneg (neg_pos.mpr hcost).le hstep
      linarith
    objective_lt := by
      intro hpos
      rw [hratio] at hpos
      have hgrows : 0 < t.level r / t.coefficient r c := (rational_lt 0 _).mp hpos
      rw [hafter.objective_eq, h.objective_eq, rational_lt, hworth]
      have hgain := mul_pos (neg_pos.mpr hcost) hgrows
      linarith }

/-- An improvement of a tableau without negative right-hand sides. -/
theorem improvement_improves (h : t.IsRational) (hl : ∀ i, 0 ≤ t.level i)
    {place : Place Exact n m} (hp : t.improvement 0 = .pivot place) :
    t.Improves (t.pivot 0 place.row place.column) place := by
  unfold improvement at hp
  cases hc : t.enteringColumn? 0 with
  | none => rw [hc] at hp; cases hp
  | some c =>
    rw [hc] at hp
    dsimp only at hp
    cases hr : t.leavingRow? 0 c with
    | none => rw [hr] at hp; cases hp
    | some chosen =>
      rw [hr] at hp
      obtain rfl : chosen = place := Improvement.pivot.inj hp
      obtain ⟨hchosen, hrow⟩ := leavingRow?_first h hr
      rw [hchosen]
      exact improves_of_first h hl (enteringColumn?_first h hc) hrow

end improvements

end Tableau

/-! ## The phase -/

namespace Simplex

/-- One improvement of a run. -/
def Improving {α : Type} [Scalar α] {n m : Nat} (s : Simplex α) (form : StandardForm α n m)
    (state state' : State α n m) : Prop :=
  ∃ place, state.tableau.improvement s.tolerance = .pivot place ∧
    state' = advance s form state place

variable {s : Simplex Exact}

section phase

variable {n m : Nat} {form : StandardForm Exact n m}

theorem improves_of_passes (hs : s.tolerance = 0) (hf : form.IsRational) {state : State Exact n m}
    {place : Tableau.Place Exact n m} (h : Passes s form .improving state)
    (hasks : state.tableau.improvement s.tolerance = .pivot place) :
    state.tableau.Improves (advance s form state place).tableau place := by
  have hreached := reached_of_passes le_rfl hs hf (unrounded_of_exact hs) h
  have hlevel := level_nonneg_of_passes le_rfl hs hf (unrounded_of_exact hs)
    (thorough_of_exact hs hf) h rfl
  rw [hs] at hasks
  rw [advance_tableau, hs]
  exact Tableau.improvement_improves hreached.rational hlevel hasks

/-- From one improvement to the next the objective does not fall. -/
theorem objective_le_of_improving (hs : s.tolerance = 0) (hf : form.IsRational)
    {state state' : State Exact n m} (h : Passes s form .improving state)
    (hrun : Relation.ReflTransGen (Improving s form) state state') :
    Passes s form .improving state' ∧ state.tableau.objective ≤ state'.tableau.objective := by
  -- By induction on the run: each improvement starts in a state that the run passes.
  induction hrun with
  | refl =>
    have hreached := reached_of_passes le_rfl hs hf (unrounded_of_exact hs) h
    refine ⟨h, ?_⟩
    rw [hreached.rational.objective_eq, rational_le]
  | @tail mid last _ hstep ih =>
    obtain ⟨hmid, hle⟩ := ih
    obtain ⟨place, hasks, rfl⟩ := hstep
    have himproves := improves_of_passes hs hf hmid hasks
    have hlast : Passes s form .improving (advance s form mid place) := hmid.pivot hasks
    refine ⟨hlast, ?_⟩
    have hstart := (reached_of_passes le_rfl hs hf (unrounded_of_exact hs) h).rational
    have hbefore := (reached_of_passes le_rfl hs hf (unrounded_of_exact hs) hmid).rational
    have hafter := (reached_of_passes le_rfl hs hf (unrounded_of_exact hs) hlast).rational
    have hmore := himproves.objective_le
    rw [hbefore.objective_eq, hafter.objective_eq, rational_le] at hmore
    rw [hstart.objective_eq, hbefore.objective_eq, rational_le] at hle
    rw [hstart.objective_eq, hafter.objective_eq, rational_le]
    exact hle.trans hmore

end phase

variable {m : Model Exact} {p : Prepared Exact m.vars.length}

/-- Without tolerance every pivot after the repairs is an improvement, and the
    objective never falls from one state of the phase to a later one. -/
theorem improvements_monotone (hs : s.tolerance = 0) (hm : m.RationalForms)
    (hp : m.standardForm s.tolerance = .ok p) :
    (∀ state place, Passes s p.form .improving state →
      state.tableau.improvement s.tolerance = .pivot place →
        state.tableau.Improves (advance s p.form state place).tableau place) ∧
    ∀ state state', Passes s p.form .improving state →
      Relation.ReflTransGen (Improving s p.form) state state' →
        state.tableau.objective ≤ state'.tableau.objective := by
  obtain ⟨hadmitted, rfl⟩ := Model.standardForm_ok hp
  have hf := hm.prepared_isRational hadmitted
  constructor
  · intro state place h hasks
    exact improves_of_passes hs hf h hasks
  · intro state state' h hrun
    exact (objective_le_of_improving hs hf h hrun).2

/-- The gap has to be repaired.  Then the first and the third variable are worth
    the same, and the field and the water run out at the same time. -/
def orchard : Model Exact where
  sense := .maximize
  vars := [⟨"x", .continuous, some (rational 2), none⟩, ⟨"y", .continuous, none, none⟩,
    ⟨"z", .continuous, none, none⟩]
  objective := [rational 1, rational 1, rational 2]
  constraints := [⟨"gap", [rational 1, rational (-1), rational 0], .atMost, rational 1⟩,
    ⟨"field", [rational 1, rational 1, rational 0], .atMost, rational 7⟩,
    ⟨"water", [rational 1, rational 0, rational 1], .atMost, rational 4⟩]

/-- The tableau of the orchard after its only repair. -/
def ploughed : Tableau Exact orchard.vars.length orchard.prepared.height :=
  (Tableau.initial orchard.prepared.form).pivot 0 ⟨0, by decide⟩ ⟨1, by decide⟩

/-- The repair leads from the first tableau to the one that was ploughed, where
    nothing is left to repair. -/
theorem passes_ploughed : ∃ state,
    ({ tolerance := 0 } : Simplex Exact).Passes orchard.prepared.form .improving state ∧
      state.tableau = ploughed := by
  have hrepair : (match (Tableau.initial orchard.prepared.form).repair 0 with
      | .pivot place => decide (place.row.val = 0 ∧ place.column.val = 1)
      | _ => false) = true := by
    decide +kernel
  have hdone : (match ploughed.repair 0 with
      | .done => true
      | _ => false) = true := by
    decide +kernel
  obtain ⟨state, hpasses, htableau⟩ : ∃ state,
      ({ tolerance := 0 } : Simplex Exact).Passes orchard.prepared.form .repairing state ∧
        state.tableau = ploughed := by
    cases hrule : (Tableau.initial orchard.prepared.form).repair 0 with
    | done => rw [hrule] at hrepair; cases hrepair
    | stuck row => rw [hrule] at hrepair; cases hrepair
    | pivot place =>
      rw [hrule] at hrepair
      obtain ⟨hrow, hcolumn⟩ := of_decide_eq_true hrepair
      have hrow : place.row = ⟨0, by decide⟩ := Fin.ext hrow
      have hcolumn : place.column = ⟨1, by decide⟩ := Fin.ext hcolumn
      refine ⟨_, .pivot .start hrule, ?_⟩
      rw [advance_tableau, hrow, hcolumn]
      rfl
  have hrepaired : state.tableau.repair 0 = .done := by
    rw [htableau]
    cases hrule : ploughed.repair 0 with
    | done => rfl
    | _ => rw [hrule] at hdone; cases hdone
  exact ⟨state, .repaired hpasses hrepaired, htableau⟩

/-- The first variable enters at the field, which raises the objective and leaves
    nothing negative. -/
theorem orchard_improves : ∃ state place,
    ({ tolerance := 0 } : Simplex Exact).Passes orchard.prepared.form .improving state ∧
      state.tableau = ploughed ∧ ploughed.improvement 0 = .pivot place ∧
      place.row.val = 1 ∧ place.column.val = 0 ∧
      ploughed.objective < (ploughed.pivot 0 place.row place.column).objective ∧
      (∀ i, 0 ≤ (ploughed.pivot 0 place.row place.column).rhs i) ∧
      ∀ state', Relation.ReflTransGen
        (Improving ({ tolerance := 0 } : Simplex Exact) orchard.prepared.form) state state' →
          ploughed.objective ≤ state'.tableau.objective := by
  have hform : orchard.standardForm 0 = .ok orchard.prepared :=
    Model.standardForm_eq_prepared (by decide +kernel)
  obtain ⟨himproves, hmonotone⟩ := improvements_monotone (s := { tolerance := 0 }) rfl (by decide)
    hform
  obtain ⟨state, hphase, htableau⟩ := passes_ploughed
  have hchoice : (match ploughed.improvement 0 with
      | .pivot place => decide (place.row.val = 1 ∧ place.column.val = 0 ∧ 0 < place.ratio)
      | _ => false) = true := by
    decide +kernel
  cases hrule : ploughed.improvement 0 with
  | optimal => rw [hrule] at hchoice; cases hchoice
  | unbounded => rw [hrule] at hchoice; cases hchoice
  | pivot place =>
    rw [hrule] at hchoice
    obtain ⟨hrow, hcolumn, hratio⟩ := of_decide_eq_true hchoice
    have himproved := himproves state place hphase (by rw [htableau]; exact hrule)
    rw [advance_tableau, htableau] at himproved
    refine ⟨state, place, hphase, htableau, rfl, hrow, hcolumn, himproved.objective_lt hratio,
      himproved.kept, ?_⟩
    intro state' hrun
    rw [← htableau]
    exact hmonotone state state' hphase hrun

end Simplex

end IntegerProgramming
