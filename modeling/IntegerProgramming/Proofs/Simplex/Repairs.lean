import IntegerProgramming.Proofs.Simplex.Optimality

/-! # Repairs make progress and lose nothing

    A repair looks at the first row with a negative right-hand side and lets a
    column enter that is negative in it.  The step would bring this row to zero,
    but a row that is in order may be exhausted earlier; the pivot is then made
    at that row, the one with the least ratio (`Tableau.Blocking`).

    Hence no row that is in order becomes negative.  The row to be repaired
    becomes positive if the pivot is made at it, and otherwise it comes no
    further below zero and keeps its basic column (`Tableau.repair_mends`).
    Rows that are negative and wait for their turn are not looked at: the step
    may raise or lower them, but it adds none to their number.

    The phase ends with all rows in order, or with a row that is negative at
    every nonnegative point.  In the second case no point is feasible, whatever
    the rows are that still wait. -/

namespace IntegerProgramming

open Exact

namespace Tableau

/-! ## The row that ends the step -/

section blocking

variable {n m : Nat} {t : Tableau Exact n m} {τ : ℚ} {r : Fin m} {c : Fin (n + m)}

/-- The running best of the scan for the row that ends a repair, after some
    rows.  It is the row to be repaired or a row that is in order, and no row
    seen so far that is in order has a smaller ratio, up to the tolerance. -/
structure Blocking (τ : ℚ) (t : Tableau Exact n m) (r : Fin m) (c : Fin (n + m))
    (seen : List (Fin m)) (best : Place Exact n m) : Prop where
  ratio : best.ratio = rational (t.level best.row / t.coefficient best.row c)
  row : best.row ≠ r → τ < t.coefficient best.row c ∧ -τ ≤ t.level best.row
  least : ∀ i ∈ seen, i ≠ r → τ < t.coefficient i c → -τ ≤ t.level i →
    t.level best.row / t.coefficient best.row c ≤ t.level i / t.coefficient i c + τ

theorem Blocking.step (h : t.IsRational) (hτ : 0 ≤ τ) {seen : List (Fin m)}
    {best : Place Exact n m} (hb : Blocking τ t r c seen best) (i : Fin m) :
    Blocking τ t r c (seen ++ [i])
      (if i ≠ r ∧ rational τ < t.entry i c ∧ -rational τ ≤ t.rhs i ∧
          t.rhs i / t.entry i c < best.ratio - rational τ then
        ⟨i, c, t.rhs i / t.entry i c⟩
      else best) := by
  by_cases hblocks : i ≠ r ∧ τ < t.coefficient i c ∧ -τ ≤ t.level i
  · obtain ⟨hne, hpos, hlevel⟩ := hblocks
    have hratio : t.rhs i / t.entry i c = rational (t.level i / t.coefficient i c) := by
      rw [h.rhs_eq, h.entry_eq, rational_div (hτ.trans_lt hpos).ne']
    rw [hratio]
    by_cases hlt : t.level i / t.coefficient i c < t.level best.row / t.coefficient best.row c - τ
    · -- The new row takes over: all earlier ratios are larger still.
      rw [if_pos (by simpa [h.entry_eq, h.rhs_eq, hb.ratio] using ⟨hne, hpos, hlevel, hlt⟩)]
      refine ⟨rfl, fun _ => ⟨hpos, hlevel⟩, forall_mem_snoc (fun k hk hk' hkpos hklevel => ?_) ?_⟩
      · have hbest := hb.least k hk hk' hkpos hklevel
        show t.level i / t.coefficient i c ≤ _
        linarith
      · intro _ _ _
        exact le_add_of_nonneg_right hτ
    · rw [if_neg fun hand => hlt (by simpa [hb.ratio] using hand.2.2.2)]
      exact ⟨hb.ratio, hb.row, forall_mem_snoc hb.least fun _ _ _ => by linarith⟩
  · -- A row that cannot end the step changes nothing.
    have hnot : ¬ (i ≠ r ∧ rational τ < t.entry i c ∧ -rational τ ≤ t.rhs i ∧
        t.rhs i / t.entry i c < best.ratio - rational τ) := by
      rintro ⟨hne, hpos, hlevel, -⟩
      rw [h.entry_eq, rational_lt] at hpos
      rw [h.rhs_eq, rational_neg, rational_le] at hlevel
      exact hblocks ⟨hne, hpos, hlevel⟩
    rw [if_neg hnot]
    refine ⟨hb.ratio, hb.row, forall_mem_snoc hb.least fun hne hpos hlevel => ?_⟩
    exact absurd ⟨hne, hpos, hlevel⟩ hblocks

theorem blocking_scan (h : t.IsRational) (hτ : 0 ≤ τ) (hc : t.coefficient r c ≠ 0) :
    Blocking τ t r c (List.finRange m) (t.blockingRow (rational τ) r c) := by
  have hscan : ∀ rows : List (Fin m), Blocking τ t r c rows
      (rows.foldl (fun best i =>
        let ratio := t.rhs i / t.entry i c
        if i ≠ r ∧ rational τ < t.entry i c ∧ -rational τ ≤ t.rhs i ∧
            ratio < best.ratio - rational τ then
          ⟨i, c, ratio⟩
        else best)
        ⟨r, c, t.rhs r / t.entry r c⟩) := by
    intro rows
    induction rows using List.reverseRecOn with
    | nil =>
      refine ⟨?_, fun hne => absurd rfl hne, fun i hi => absurd hi List.not_mem_nil⟩
      show t.rhs r / t.entry r c = _
      rw [h.rhs_eq, h.entry_eq, rational_div hc]
      rfl
    | append_singleton rows i ih =>
      rw [List.foldl_append, List.foldl_cons, List.foldl_nil]
      exact ih.step h hτ i
  exact hscan (List.finRange m)

end blocking

/-! ## One repair -/

section mending

variable {α : Type} [Scalar α] {n m : Nat}

/-- The row is negative, and all rows before it are in order. -/
def IsFirstNegative (t : Tableau α n m) (r : Fin m) : Prop :=
  t.rhs r < 0 ∧ ∀ i, i < r → 0 ≤ t.rhs i

/-- The number of negative rows. -/
def deficits (t : Tableau α n m) : Nat := (List.finRange m).countP fun i => t.rhs i < 0

/-- What a pivot makes of the right-hand sides that is due because of a
    negative row. -/
structure Mends (t t' : Tableau α n m) (r : Fin m) (place : Place α n m) : Prop where
  /-- No row that is in order becomes negative. -/
  kept : ∀ i, 0 ≤ t.rhs i → 0 ≤ t'.rhs i
  /-- A pivot at the row itself makes it positive. -/
  cleared : place.row = r → 0 < t'.rhs r
  /-- A pivot at another row does not lower it, and raises it if the step is not
      zero. -/
  blocked : place.row ≠ r → t'.basis.get r = t.basis.get r ∧ t.rhs r ≤ t'.rhs r ∧
    (0 < place.ratio → t.rhs r < t'.rhs r)
  fewer : t'.deficits ≤ t.deficits

end mending

section repairs

variable {n m : Nat} {t : Tableau Exact n m} {r : Fin m} {c : Fin (n + m)}

theorem IsRational.rhs_nonneg_iff (h : t.IsRational) (i : Fin m) : 0 ≤ t.rhs i ↔ 0 ≤ t.level i := by
  rw [h.rhs_eq]
  exact rational_le 0 _

theorem IsRational.rhs_pos_iff (h : t.IsRational) (i : Fin m) : 0 < t.rhs i ↔ 0 < t.level i := by
  rw [h.rhs_eq]
  exact rational_lt 0 _

theorem negativeRow?_isFirst (h : t.IsRational) (hr : t.negativeRow? 0 = some r) :
    t.IsFirstNegative r := by
  obtain ⟨hneg, k, hk, hget, hbefore⟩ := List.find?_eq_some_iff_getElem.mp hr
  rw [List.getElem_finRange] at hget
  refine ⟨by simpa using hneg, fun i hi => ?_⟩
  -- The rows before the one found are those that the search has passed over.
  have hik : i.val < k := by
    rw [← hget] at hi
    exact hi
  have hpassed := hbefore i hik
  rw [List.getElem_finRange] at hpassed
  simpa [h.rhs_eq] using hpassed

/-- If no row in order becomes negative, there are no more negative rows than
    before. -/
theorem deficits_le {t' : Tableau Exact n m} (h : t.IsRational) (h' : t'.IsRational)
    (hkept : ∀ i, 0 ≤ t.level i → 0 ≤ t'.level i) : t'.deficits ≤ t.deficits := by
  unfold deficits
  refine List.countP_mono_left fun i _ hi => ?_
  have hneg : t'.level i < 0 := by simpa [h'.rhs_eq] using hi
  have hlt : t.level i < 0 := by
    by_contra hle
    linarith [hkept i (not_lt.mp hle)]
  simpa [h.rhs_eq] using hlt

/-- A pivot at the row that ends the step keeps the rows that are in order. -/
theorem level_repair_nonneg (h : t.IsRational) {p : Fin m} (hneg : t.level r < 0)
    (ha : t.coefficient p c ≠ 0) (hstep : 0 ≤ t.level p / t.coefficient p c)
    (hleast : ∀ i, i ≠ r → 0 < t.coefficient i c → 0 ≤ t.level i →
      t.level p / t.coefficient p c ≤ t.level i / t.coefficient i c)
    (i : Fin m) (hi : 0 ≤ t.level i) : 0 ≤ (t.pivot 0 p c).level i := by
  by_cases hip : i = p
  · rw [hip, level_pivot_row h ha]
    exact hstep
  · rw [level_pivot_of_ne h ha hip]
    -- Only a row with a positive entry loses anything, and then it could end the step.
    by_cases hpos : 0 < t.coefficient i c
    · have hir : i ≠ r := by
        intro he
        rw [he] at hi
        linarith
      have hbound := mul_le_mul_of_nonneg_left (hleast i hir hpos hi) hpos.le
      rw [mul_div_cancel₀ _ hpos.ne'] at hbound
      linarith
    · have hloss := mul_nonpos_of_nonpos_of_nonneg (not_lt.mp hpos) hstep
      linarith

/-- A repair mends the first negative row. -/
theorem repair_mends (h : t.IsRational) {place : Place Exact n m}
    (hp : t.repair 0 = .pivot place) : ∃ r, t.IsFirstNegative r ∧
      t.Mends (t.pivot 0 place.row place.column) r place := by
  unfold repair at hp
  cases hr : t.negativeRow? 0 with
  | none => rw [hr] at hp; cases hp
  | some r =>
    rw [hr] at hp
    dsimp only at hp
    cases hc : t.negativeColumn? 0 r with
    | none => rw [hc] at hp; cases hp
    | some c =>
      rw [hc] at hp
      have hplace : t.blockingRow 0 r c = place := Repair.pivot.inj hp
      have hneg : t.level r < 0 := by simpa using negativeRow?_eq_some h hr
      have hentry : t.coefficient r c < 0 := by simpa using negativeColumn?_eq_some h hc
      have hcolumn : place.column = c := by
        rw [← hplace]
        exact (blockingRow_place h 0 r c).1
      have hscan := blocking_scan h le_rfl hentry.ne
      rw [← zero_eq, hplace] at hscan
      rw [hcolumn]
      -- The step is positive if it ends at the row itself, and not negative in any case.
      have hown : place.row = r → 0 < t.level place.row / t.coefficient place.row c := by
        intro he
        rw [he]
        exact div_pos_of_neg_of_neg hneg hentry
      have hother : place.row ≠ r →
          0 < t.coefficient place.row c ∧ 0 ≤ t.level place.row := by
        intro hne
        simpa using hscan.row hne
      have hpivot : t.coefficient place.row c ≠ 0 := by
        by_cases he : place.row = r
        · rw [he]
          exact hentry.ne
        · exact (hother he).1.ne'
      have hstep : 0 ≤ t.level place.row / t.coefficient place.row c := by
        by_cases he : place.row = r
        · exact (hown he).le
        · exact div_nonneg (hother he).2 (hother he).1.le
      have hkept := level_repair_nonneg h hneg hpivot hstep fun i hi hpos hlevel => by
        simpa using hscan.least i (List.mem_finRange i) hi hpos (by simpa using hlevel)
      have hafter : (t.pivot 0 place.row c).IsRational := h.pivot hpivot 0
      refine ⟨r, negativeRow?_isFirst h hr, ?_, ?_, ?_, deficits_le h hafter hkept⟩
      · intro i hi
        rw [h.rhs_nonneg_iff] at hi
        rw [hafter.rhs_nonneg_iff]
        exact hkept i hi
      · intro he
        rw [hafter.rhs_pos_iff, ← he, level_pivot_row h hpivot]
        exact hown he
      · intro hne
        have hlevel := level_pivot_of_ne h hpivot (Ne.symm hne)
        refine ⟨?_, ?_, fun hpos => ?_⟩
        · show (t.basis.set place.row c).get r = _
          simp [Fin.val_ne_of_ne hne]
        · have hgain := mul_nonpos_of_nonpos_of_nonneg hentry.le hstep
          rw [h.rhs_eq, hafter.rhs_eq, rational_le, hlevel]
          linarith
        · rw [hscan.ratio] at hpos
          have hgain := mul_neg_of_neg_of_pos hentry ((rational_lt _ _).mp hpos)
          rw [h.rhs_eq, hafter.rhs_eq, rational_lt, hlevel]
          linarith

end repairs

end Tableau

/-! ## The phase -/

namespace Simplex

variable {s : Simplex Exact}

section phase

variable {n m : Nat} {form : StandardForm Exact n m}

theorem mends_of_passes (hs : s.tolerance = 0) (hf : form.IsRational) {state : State Exact n m}
    {place : Tableau.Place Exact n m} (h : Passes s form .repairing state)
    (hasks : state.tableau.repair s.tolerance = .pivot place) :
    ∃ r, state.tableau.IsFirstNegative r ∧
      state.tableau.Mends (advance s form state place).tableau r place := by
  have hreached := reached_of_passes le_rfl hs hf (unrounded_of_exact hs) h
  rw [hs] at hasks
  rw [advance_tableau, hs]
  exact Tableau.repair_mends hreached.rational hasks

/-- From the first tableau on no row in order is lost, and the number of
    negative rows does not grow. -/
theorem repaired_of_passes (hs : s.tolerance = 0) (hf : form.IsRational) {phase : Phase}
    {state : State Exact n m} (h : Passes s form phase state) : phase = .repairing →
      (∀ i, 0 ≤ (Tableau.initial form).rhs i → 0 ≤ state.tableau.rhs i) ∧
        state.tableau.deficits ≤ (Tableau.initial form).deficits := by
  -- By induction on the run: every pivot of the phase mends a row.
  induction h with
  | start => exact fun _ => ⟨fun i hi => hi, le_rfl⟩
  | @pivot phase state place hpasses hasks ih =>
    intro hphase
    subst hphase
    obtain ⟨hkept, hfewer⟩ := ih rfl
    obtain ⟨r, -, hmends⟩ := mends_of_passes hs hf hpasses hasks
    exact ⟨fun i hi => hmends.kept i (hkept i hi), hmends.fewer.trans hfewer⟩
  | repaired _ _ _ => exact nofun

end phase

variable {m : Model Exact} {p : Prepared Exact m.vars.length}

/-- Without tolerance every repair mends the first negative row, and from the
    first tableau on no row in order is lost.  When there is nothing left to
    repair, all rows are in order; when a row cannot be repaired, the model has
    no feasible point. -/
theorem repairs_progress (hs : s.tolerance = 0) (hm : m.RationalForms) (hal : m.Aligned)
    (hp : m.standardForm s.tolerance = .ok p) :
    (∀ state place, Passes s p.form .repairing state →
      state.tableau.repair s.tolerance = .pivot place →
        ∃ r, state.tableau.IsFirstNegative r ∧
          state.tableau.Mends (advance s p.form state place).tableau r place) ∧
    (∀ state, Passes s p.form .repairing state →
      (∀ i, 0 ≤ (Tableau.initial p.form).rhs i → 0 ≤ state.tableau.rhs i) ∧
        state.tableau.deficits ≤ (Tableau.initial p.form).deficits) ∧
    (∀ state, Passes s p.form .repairing state → state.tableau.repair s.tolerance = .done →
      ∀ i, 0 ≤ state.tableau.rhs i) ∧
    ∀ state r, Passes s p.form .repairing state → state.tableau.repair s.tolerance = .stuck r →
      ∀ x : List ℚ, ¬ m.IsFeasible (x.map rational) 0 := by
  obtain ⟨hadmitted, rfl⟩ := Model.standardForm_ok hp
  have hf := hm.prepared_isRational hadmitted
  refine ⟨fun state place h hasks => mends_of_passes hs hf h hasks,
    fun state h => repaired_of_passes hs hf h rfl, fun state h hdone i => ?_,
    fun state r h hstuck x hx => ?_⟩
  · have hreached := reached_of_passes le_rfl hs hf (unrounded_of_exact hs) h
    have hlevel := (thorough_of_exact hs hf).repaired state h hdone i
    rw [hreached.rational.rhs_nonneg_iff]
    exact hlevel
  · have hreached := reached_of_passes le_rfl hs hf (unrounded_of_exact hs) h
    have hrule := Tableau.repair_describes hreached.rational 0
    rw [hs] at hstuck
    rw [← zero_eq, hstuck] at hrule
    obtain ⟨hlevel, hrow⟩ := hrule
    have hwithin := Model.within_of_feasible hm hadmitted hal hx
    exact hreached.not_feasible (by simpa using hlevel) (fun j => by simpa using hrow j) _
      (StandardForm.feasibleWithin_zero.mp hwithin)

/-- The leader has to be two ahead of zero: too far for the gap and for the
    bridge, and the length leaves the other one no room to follow. -/
def detour : Model Exact where
  sense := .maximize
  vars := [⟨"lead", .continuous, some (rational 2), none⟩, ⟨"tail", .continuous, none, none⟩]
  objective := [rational 1, rational 1]
  constraints := [⟨"gap", [rational 1, rational (-1)], .atMost, rational 1⟩,
    ⟨"length", [rational 1, rational 2], .atMost, rational 3⟩,
    ⟨"bridge", [rational 1, rational 0], .atMost, rational 1⟩]

/-- The first tableau of the detour. -/
def detoured : Tableau Exact detour.vars.length detour.prepared.height :=
  Tableau.initial detour.prepared.form

/-- The length ends the step that is made for the gap.  The gap is halved and
    cannot be repaired further, while the bridge is still negative. -/
theorem detour_repairs : ∃ place, detoured.repair 0 = .pivot place ∧
    (∃ r, detoured.IsFirstNegative r ∧ place.row ≠ r ∧
      detoured.rhs r < (detoured.pivot 0 place.row place.column).rhs r) ∧
    (∃ r i, (detoured.pivot 0 place.row place.column).repair 0 = .stuck r ∧ i ≠ r ∧
      (detoured.pivot 0 place.row place.column).rhs i < 0) ∧
    ∀ x : List ℚ, ¬ detour.IsFeasible (x.map rational) 0 := by
  have hform : detour.standardForm 0 = .ok detour.prepared :=
    Model.standardForm_eq_prepared (by decide +kernel)
  obtain ⟨hmends, -, -, hstuck⟩ := repairs_progress (s := { tolerance := 0 }) rfl (by decide)
    (by decide) hform
  have hfirst : (match detoured.repair 0 with
      | .pivot place => decide (place.row.val = 1 ∧ place.column.val = 1 ∧
          place.ratio = rational (1 / 2))
      | _ => false) = true := by
    decide +kernel
  cases hrule : detoured.repair 0 with
  | done => rw [hrule] at hfirst; cases hfirst
  | stuck row => rw [hrule] at hfirst; cases hfirst
  | pivot place =>
    rw [hrule] at hfirst
    obtain ⟨hrow, hcolumn, hratio⟩ := of_decide_eq_true hfirst
    obtain ⟨r, hnegative, hmended⟩ := hmends _ place .start hrule
    have hne : place.row ≠ r := by
      intro he
      have hpositive : ¬ detoured.rhs ⟨1, by decide⟩ < 0 := by decide +kernel
      have hlast : r = ⟨1, by decide⟩ := by
        rw [← he]
        exact Fin.ext hrow
      rw [hlast] at hnegative
      exact hpositive hnegative.1
    have hraised := (hmended.blocked hne).2.2 (by rw [hratio]; decide +kernel)
    have hpassed : ({ tolerance := 0 } : Simplex Exact).Passes detour.prepared.form .repairing _ :=
      Passes.pivot .start hrule
    have hrow : place.row = ⟨1, by decide⟩ := Fin.ext hrow
    have hcolumn : place.column = ⟨1, by decide⟩ := Fin.ext hcolumn
    have hsecond : (match (detoured.pivot 0 ⟨1, by decide⟩ ⟨1, by decide⟩).repair 0 with
        | .stuck row => decide (row.val = 0)
        | _ => false) = true := by
      decide +kernel
    have hbridge : (detoured.pivot 0 ⟨1, by decide⟩ ⟨1, by decide⟩).rhs ⟨2, by decide⟩ < 0 := by
      decide +kernel
    rw [← hrow, ← hcolumn] at hsecond hbridge
    refine ⟨place, rfl, ⟨r, hnegative, hne, hraised⟩, ?_⟩
    cases hnext : (detoured.pivot 0 place.row place.column).repair 0 with
    | done => rw [hnext] at hsecond; cases hsecond
    | pivot place' => rw [hnext] at hsecond; cases hsecond
    | stuck row =>
      rw [hnext] at hsecond
      have hzero : row.val = 0 := of_decide_eq_true hsecond
      have hbehind : (⟨2, by decide⟩ : Fin detour.prepared.height) ≠ row := by
        intro he
        rw [← he] at hzero
        cases hzero
      exact ⟨⟨row, _, rfl, hbehind, hbridge⟩, hstuck _ row hpassed hnext⟩

end Simplex

end IntegerProgramming
