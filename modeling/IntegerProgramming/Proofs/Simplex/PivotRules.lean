import IntegerProgramming.Proofs.Simplex.Equations

/-! # What the pivot rules find

    One statement for each of the two rules, over tableaux of rational numbers
    and at every tolerance: what holds of the tableau when the rule has nothing
    left to do, when it is stuck, and what is known about the place that it
    chooses.

    Each rule scans a list with a running best entry.  The invariants of these
    scans speak about the entries seen so far, so the inductions run over the
    list from its end. -/

namespace IntegerProgramming

namespace Tableau

open Exact

variable {n m : Nat} {t : Tableau Exact n m}

/-! ## Repairs -/

/-- What each outcome of the repair rule says about the tableau. -/
def Repair.Describes (τ : ℚ) (t : Tableau Exact n m) : Repair Exact n m → Prop
  | .done => ∀ i, -τ ≤ t.level i
  | .stuck r => t.level r < -τ ∧ ∀ j, -τ ≤ t.coefficient r j
  | .pivot p => t.coefficient p.row p.column < -τ ∨ τ < t.coefficient p.row p.column

theorem negativeRow?_eq_none (h : t.IsRational) {τ : ℚ}
    (hr : t.negativeRow? (rational τ) = none) (i : Fin m) : -τ ≤ t.level i := by
  have hi := List.find?_eq_none.mp hr i (List.mem_finRange i)
  simpa [h.rhs_eq] using hi

theorem negativeRow?_eq_some (h : t.IsRational) {τ : ℚ} {r : Fin m}
    (hr : t.negativeRow? (rational τ) = some r) : t.level r < -τ := by
  have hi := List.find?_some hr
  simpa [h.rhs_eq] using hi

theorem negativeColumn?_eq_none (h : t.IsRational) {τ : ℚ} {r : Fin m}
    (hc : t.negativeColumn? (rational τ) r = none) (j : Fin (n + m)) :
    -τ ≤ t.coefficient r j := by
  have hj := List.find?_eq_none.mp hc j (List.mem_finRange j)
  simpa [h.entry_eq] using hj

theorem negativeColumn?_eq_some (h : t.IsRational) {τ : ℚ} {r : Fin m} {c : Fin (n + m)}
    (hc : t.negativeColumn? (rational τ) r = some c) : t.coefficient r c < -τ := by
  have hj := List.find?_some hc
  simpa [h.entry_eq] using hj

/-- The step is ended by the negative row itself or by a row with a positive
    entry. -/
theorem blockingRow_place (h : t.IsRational) (τ : ℚ) (r : Fin m) (c : Fin (n + m)) :
    (t.blockingRow (rational τ) r c).column = c ∧
      ((t.blockingRow (rational τ) r c).row = r ∨
        τ < t.coefficient (t.blockingRow (rational τ) r c).row c) := by
  unfold blockingRow
  refine List.foldlRecOn
    (motive := fun best : Place Exact n m =>
      best.column = c ∧ (best.row = r ∨ τ < t.coefficient best.row c))
    _ _ ⟨rfl, Or.inl rfl⟩ fun best hbest i _ => ?_
  dsimp only
  split
  · -- A row replaces the best one only if its entry is positive.
    rename_i hblock
    have hentry : rational τ < t.entry i c := hblock.2.1
    rw [h.entry_eq, rational_lt] at hentry
    exact ⟨rfl, Or.inr hentry⟩
  · exact hbest

theorem repair_describes (h : t.IsRational) (τ : ℚ) :
    (t.repair (rational τ)).Describes τ t := by
  unfold repair
  cases hr : t.negativeRow? (rational τ) with
  | none => exact negativeRow?_eq_none h hr
  | some r =>
    dsimp only
    cases hc : t.negativeColumn? (rational τ) r with
    | none => exact ⟨negativeRow?_eq_some h hr, negativeColumn?_eq_none h hc⟩
    | some c =>
      obtain ⟨hcolumn, hrow⟩ := blockingRow_place h τ r c
      show t.coefficient _ _ < -τ ∨ τ < t.coefficient _ _
      rw [hcolumn]
      rcases hrow with hrow | hrow
      · rw [hrow]
        exact Or.inl (negativeColumn?_eq_some h hc)
      · exact Or.inr hrow

/-- The entering column of a repair is negative in a row, which need not be the
    row that it enters at. -/
theorem repair_column_neg (h : t.IsRational) {τ : ℚ} {p : Place Exact n m}
    (hp : t.repair (rational τ) = .pivot p) : ∃ r, t.coefficient r p.column < -τ := by
  unfold repair at hp
  cases hr : t.negativeRow? (rational τ) with
  | none => rw [hr] at hp; cases hp
  | some r =>
    rw [hr] at hp
    dsimp only at hp
    cases hc : t.negativeColumn? (rational τ) r with
    | none => rw [hc] at hp; cases hp
    | some c =>
      rw [hc] at hp
      obtain rfl := Repair.pivot.inj hp
      refine ⟨r, ?_⟩
      rw [(blockingRow_place h τ r c).1]
      exact negativeColumn?_eq_some h hc

/-! ## Improvements -/

/-- What each outcome of the improvement rule says about the tableau.  The
    ratio of the chosen row is the least one, up to the tolerance. -/
def Improvement.Describes (τ : ℚ) (t : Tableau Exact n m) : Improvement Exact n m → Prop
  | .optimal => ∀ j, -τ ≤ t.cost j
  | .unbounded => ∃ c, t.cost c < -τ ∧ ∀ i, t.coefficient i c ≤ τ
  | .pivot p => t.cost p.column < -τ ∧ τ < t.coefficient p.row p.column ∧
      ∀ i, τ < t.coefficient i p.column →
        t.level p.row / t.coefficient p.row p.column ≤ t.level i / t.coefficient i p.column + τ

/-- The running best of the scan for an entering column, after some columns. -/
structure Entering (τ : ℚ) (t : Tableau Exact n m) (seen : List (Fin (n + m)))
    (best : Exact × Option (Fin (n + m))) (least : ℚ) : Prop where
  least_eq : best.1 = rational least
  least_le : ∀ j ∈ seen, least ≤ t.cost j
  start : best.2 = none → least = -τ
  found : ∀ c, best.2 = some c → t.cost c = least ∧ least < -τ
  start_le : least ≤ -τ

/-- A fact about all columns seen so far and about the next one. -/
theorem forall_mem_snoc {β : Type} {P : β → Prop} {seen : List β} {x : β}
    (hseen : ∀ y ∈ seen, P y) (hx : P x) : ∀ y ∈ seen ++ [x], P y := by
  intro y hy
  rcases List.mem_append.mp hy with hy | hy
  · exact hseen y hy
  · rwa [List.mem_singleton.mp hy]

theorem Entering.step (h : t.IsRational) {τ : ℚ} {seen : List (Fin (n + m))}
    {best : Exact × Option (Fin (n + m))} {least : ℚ} (hb : Entering τ t seen best least)
    (j : Fin (n + m)) :
    ∃ least', Entering τ t (seen ++ [j])
      (if t.reducedCost j < best.1 then (t.reducedCost j, some j) else best) least' := by
  have hiff : t.reducedCost j < best.1 ↔ t.cost j < least := by
    rw [h.reducedCost_eq, hb.least_eq, rational_lt]
  by_cases hj : t.cost j < least
  · -- A smaller cost becomes the least one.
    rw [if_pos (hiff.mpr hj)]
    refine ⟨t.cost j, h.reducedCost_eq j, ?_, fun hn => absurd hn (Option.some_ne_none j), ?_,
      hj.le.trans hb.start_le⟩
    · exact forall_mem_snoc (fun k hk => hj.le.trans (hb.least_le k hk)) le_rfl
    · intro c hc
      rw [← Option.some.inj hc]
      exact ⟨rfl, hj.trans_le hb.start_le⟩
  · rw [if_neg (mt hiff.mp hj)]
    exact ⟨least, hb.least_eq, forall_mem_snoc hb.least_le (not_lt.mp hj), hb.start, hb.found,
      hb.start_le⟩

theorem entering_scan (h : t.IsRational) (τ : ℚ) (columns : List (Fin (n + m))) :
    ∃ least, Entering τ t columns
      (columns.foldl (fun best j =>
        if t.reducedCost j < best.1 then (t.reducedCost j, some j) else best)
        (-rational τ, none)) least := by
  induction columns using List.reverseRecOn with
  | nil =>
    exact ⟨-τ, rfl, fun j hj => absurd hj List.not_mem_nil, fun _ => rfl,
      fun c hc => absurd hc (Option.some_ne_none c).symm, le_rfl⟩
  | append_singleton columns j ih =>
    obtain ⟨least, hleast⟩ := ih
    rw [List.foldl_append, List.foldl_cons, List.foldl_nil]
    exact hleast.step h j

theorem enteringColumn?_eq_none (h : t.IsRational) {τ : ℚ}
    (hc : t.enteringColumn? (rational τ) = none) (j : Fin (n + m)) : -τ ≤ t.cost j := by
  obtain ⟨least, hleast⟩ := entering_scan h τ (List.finRange (n + m))
  rw [← hleast.start hc]
  exact hleast.least_le j (List.mem_finRange j)

theorem enteringColumn?_eq_some (h : t.IsRational) {τ : ℚ} {c : Fin (n + m)}
    (hc : t.enteringColumn? (rational τ) = some c) : t.cost c < -τ := by
  obtain ⟨least, hleast⟩ := entering_scan h τ (List.finRange (n + m))
  obtain ⟨hcost, hlt⟩ := hleast.found c hc
  rwa [hcost]

/-- The running best of the scan for a leaving row, after some rows.  Nothing
    has been found, or the ratio kept is the least so far up to the
    tolerance. -/
inductive Leaving (τ : ℚ) (t : Tableau Exact n m) (c : Fin (n + m)) (seen : List (Fin m)) :
    Exact × Option (Place Exact n m) → Prop where
  | start (none_positive : ∀ i ∈ seen, t.coefficient i c ≤ τ) :
      Leaving τ t c seen (plusInfinity, none)
  | found (p : Place Exact n m) (column_eq : p.column = c) (positive : τ < t.coefficient p.row c)
      (least : ∀ i ∈ seen, τ < t.coefficient i c →
        t.level p.row / t.coefficient p.row c ≤ t.level i / t.coefficient i c + τ) :
      Leaving τ t c seen (rational (t.level p.row / t.coefficient p.row c), some p)

theorem Leaving.step (h : t.IsRational) {τ : ℚ} (hτ : 0 ≤ τ) {c : Fin (n + m)}
    {seen : List (Fin m)} {best : Exact × Option (Place Exact n m)}
    (hb : Leaving τ t c seen best) (i : Fin m) :
    Leaving τ t c (seen ++ [i])
      (if rational τ < t.entry i c ∧ t.rhs i / t.entry i c < best.1 - rational τ then
        (t.rhs i / t.entry i c, some ⟨i, c, t.rhs i / t.entry i c⟩)
      else best) := by
  by_cases hpos : τ < t.coefficient i c
  · have hentry : rational τ < t.entry i c := by rwa [h.entry_eq, rational_lt]
    have hratio : t.rhs i / t.entry i c = rational (t.level i / t.coefficient i c) := by
      rw [h.rhs_eq, h.entry_eq, rational_div (hτ.trans_lt hpos).ne']
    have hself : t.level i / t.coefficient i c ≤ t.level i / t.coefficient i c + τ :=
      le_add_of_nonneg_right hτ
    rw [hratio]
    cases hb with
    | start hnone =>
      have hlt : rational (t.level i / t.coefficient i c) < plusInfinity - rational τ := by
        rw [plusInfinity_sub_rational]
        exact rational_lt_plusInfinity _
      -- The first row that qualifies beats the infinite start.
      rw [if_pos ⟨hentry, hlt⟩]
      refine .found ⟨i, c, _⟩ rfl hpos (forall_mem_snoc (fun k hk hk' => ?_) fun _ => hself)
      exact absurd hk' (not_lt.mpr (hnone k hk))
    | found p hcolumn hp hleast =>
      by_cases hlt : t.level i / t.coefficient i c <
          t.level p.row / t.coefficient p.row c - τ
      · rw [if_pos ⟨hentry, by rwa [rational_sub, rational_lt]⟩]
        refine .found ⟨i, c, _⟩ rfl hpos (forall_mem_snoc (fun k hk hk' => ?_) fun _ => hself)
        show t.level i / t.coefficient i c ≤ _
        linarith [hleast k hk hk']
      · -- The best row stays, and the new ratio is at least its own.
        rw [if_neg (fun hand => hlt (by simpa using hand.2))]
        exact .found p hcolumn hp (forall_mem_snoc hleast fun _ => by linarith)
  · -- A row that does not qualify changes nothing.
    have hentry : ¬ rational τ < t.entry i c := by rwa [h.entry_eq, rational_lt]
    rw [if_neg fun hand => hentry hand.1]
    cases hb with
    | start hnone => exact .start (forall_mem_snoc hnone (not_lt.mp hpos))
    | found p hcolumn hp hleast =>
      exact .found p hcolumn hp (forall_mem_snoc hleast fun hi => absurd hi hpos)

theorem leaving_scan (h : t.IsRational) {τ : ℚ} (hτ : 0 ≤ τ) (c : Fin (n + m))
    (rows : List (Fin m)) :
    Leaving τ t c rows
      (rows.foldl (fun best i =>
        let ratio := t.rhs i / t.entry i c
        if rational τ < t.entry i c ∧ ratio < best.1 - rational τ then
          (ratio, some ⟨i, c, ratio⟩)
        else best)
        (Scalar.infinity, none)) := by
  induction rows using List.reverseRecOn with
  | nil => exact .start fun i hi => absurd hi List.not_mem_nil
  | append_singleton rows i ih =>
    rw [List.foldl_append, List.foldl_cons, List.foldl_nil]
    exact ih.step h hτ i

theorem improvement_describes (h : t.IsRational) {τ : ℚ} (hτ : 0 ≤ τ) :
    (t.improvement (rational τ)).Describes τ t := by
  unfold improvement
  cases hc : t.enteringColumn? (rational τ) with
  | none => exact enteringColumn?_eq_none h hc
  | some c =>
    have hcost := enteringColumn?_eq_some h hc
    have hscan := leaving_scan h hτ c (List.finRange m)
    unfold leavingRow?
    dsimp only
    generalize (List.finRange m).foldl _ _ = best at hscan ⊢
    cases hscan with
    | start hnone => exact ⟨c, hcost, fun i => hnone i (List.mem_finRange i)⟩
    | found p hcolumn hp hleast =>
      show _ ∧ _ ∧ _
      rw [hcolumn]
      exact ⟨hcost, hp, fun i => hleast i (List.mem_finRange i)⟩

end Tableau

end IntegerProgramming
