import IntegerProgramming.Proofs.Simplex.Basis

/-! # The point that a tableau stands for

    Values are read off unit columns, whether they are basic or not: a row
    belongs to the first variable whose column is a unit column there.  A row
    that no variable claims belongs to its basic column, which is a slack.  So
    every row has a unit column that holds it, and the values read are those of
    the point that gives each row's right-hand side to its holder
    (`values_eq_spread`). -/

namespace IntegerProgramming

namespace Tableau

/-! ## Claims on rows -/

section claims

variable {α : Type} [Scalar α] {n m : Nat}

/-- The first of the given variables whose column is a unit column in a row. -/
def claimant (τ : α) (t : Tableau α n m) (columns : List (Fin n)) (i : Fin m) : Option (Fin n) :=
  columns.find? fun j => t.unitRow? τ (j.castAdd m) = some i

/-- The value that a variable gets. -/
def claimed (τ : α) (t : Tableau α n m) (columns : List (Fin n)) (j : Fin n) : α :=
  match t.unitRow? τ (j.castAdd m) with
  | some i => if t.claimant τ columns i = some j then t.rhs i else 0
  | none => 0

/-- One step of the scan that reads the values off. -/
def claim (τ : α) (t : Tableau α n m) (state : List (Fin m) × List α) (j : Fin n) :
    List (Fin m) × List α :=
  match t.unitRow? τ (j.castAdd m) with
  | some i =>
    if state.1.contains i then (state.1, state.2 ++ [0])
    else (i :: state.1, state.2 ++ [t.rhs i])
  | none => (state.1, state.2 ++ [0])

theorem values_eq_foldl (τ : α) (t : Tableau α n m) :
    t.values τ = ((List.finRange n).foldl (t.claim τ) ([], [])).2 := by
  unfold values
  congr 2
  funext state j
  unfold claim
  cases t.unitRow? τ (j.castAdd m) with
  | none => rfl
  | some i => simp only [List.contains_iff_mem]

variable {τ : α} {t : Tableau α n m}

theorem claimant_isSome_iff (columns : List (Fin n)) (i : Fin m) :
    (t.claimant τ columns i).isSome ↔ ∃ j ∈ columns, t.unitRow? τ (j.castAdd m) = some i := by
  unfold claimant
  rw [List.find?_isSome]
  simp

theorem claimant_snoc (columns : List (Fin n)) (j : Fin n) (i : Fin m) :
    t.claimant τ (columns ++ [j]) i =
      (t.claimant τ columns i).or
        (if t.unitRow? τ (j.castAdd m) = some i then some j else none) := by
  unfold claimant
  rw [List.find?_append]
  by_cases hj : t.unitRow? τ (j.castAdd m) = some i <;> simp [hj]

/-- Later variables do not take a row away from an earlier one. -/
theorem claimed_snoc {columns : List (Fin n)} {j k : Fin n} (hk : k ∈ columns) :
    t.claimed τ (columns ++ [j]) k = t.claimed τ columns k := by
  unfold claimed
  cases hu : t.unitRow? τ (k.castAdd m) with
  | none => rfl
  | some i =>
    -- The row has a claimant already, and the first one counts.
    have hsome : (t.claimant τ columns i).isSome := (claimant_isSome_iff columns i).mpr ⟨k, hk, hu⟩
    dsimp only
    rw [claimant_snoc, Option.or_of_isSome hsome]

/-- The scan after some variables: the rows that they claim and the values that
    they get. -/
structure Scanned (τ : α) (t : Tableau α n m) (columns : List (Fin n))
    (state : List (Fin m) × List α) : Prop where
  rows : ∀ i, i ∈ state.1 ↔ (t.claimant τ columns i).isSome
  values : state.2 = columns.map (t.claimed τ columns)

theorem mem_claim {state : List (Fin m) × List α} {j : Fin n} {i : Fin m}
    (hu : t.unitRow? τ (j.castAdd m) = some i) (k : Fin m) :
    k ∈ (t.claim τ state j).1 ↔ k ∈ state.1 ∨ i = k := by
  unfold claim
  rw [hu]
  dsimp only
  by_cases hi : i ∈ state.1
  · rw [if_pos (List.contains_iff_mem.mpr hi)]
    exact (or_iff_left_of_imp fun hk => hk ▸ hi).symm
  · rw [if_neg (mt List.contains_iff_mem.mp hi), List.mem_cons, or_comm, eq_comm]

theorem Scanned.step {columns : List (Fin n)} {state : List (Fin m) × List α}
    (h : Scanned τ t columns state) {j : Fin n} (hj : j ∉ columns) :
    Scanned τ t (columns ++ [j]) (t.claim τ state j) := by
  cases hu : t.unitRow? τ (j.castAdd m) with
  | none =>
    constructor
    · intro k
      rw [claimant_snoc, hu, if_neg (Option.some_ne_none k).symm, Option.or_none, claim, hu]
      exact h.rows k
    · rw [List.map_append, List.map_congr_left fun k hk => claimed_snoc hk, ← h.values, claim,
        List.map_singleton, claimed, hu]
  | some i =>
    constructor
    · intro k
      rw [mem_claim hu, h.rows k, claimant_snoc, hu]
      by_cases hk : i = k <;> simp [hk]
    · rw [List.map_append, List.map_congr_left fun k hk => claimed_snoc hk, ← h.values, claim,
        List.map_singleton, claimed, hu]
      dsimp only
      by_cases hi : i ∈ state.1
      · -- The row is taken, by a variable other than `j`.
        have htaken : (t.claimant τ columns i).isSome := (h.rows i).mp hi
        have hother : t.claimant τ columns i ≠ some j := fun he => hj (List.mem_of_find?_eq_some he)
        rw [if_pos (List.contains_iff_mem.mpr hi), claimant_snoc, Option.or_of_isSome htaken,
          if_neg hother]
      · have hfree : t.claimant τ columns i = none := by
          rw [← Option.not_isSome_iff_eq_none]
          exact mt (h.rows i).mpr hi
        rw [if_neg (mt List.contains_iff_mem.mp hi), claimant_snoc, hfree, hu, if_pos rfl,
          Option.none_or, if_pos rfl]

theorem claim_scan (columns : List (Fin n)) (hnd : columns.Nodup) :
    Scanned τ t columns (columns.foldl (t.claim τ) ([], [])) := by
  induction columns using List.reverseRecOn with
  | nil => exact ⟨fun i => by simp [claimant], rfl⟩
  | append_singleton columns j ih =>
    obtain ⟨hnd, -, hdisjoint⟩ := List.nodup_append.mp hnd
    have hj : j ∉ columns := fun hmem => hdisjoint j hmem j (List.mem_singleton.mpr rfl) rfl
    rw [List.foldl_append, List.foldl_cons, List.foldl_nil]
    exact (ih hnd).step hj

theorem values_eq_map (τ : α) (t : Tableau α n m) :
    t.values τ = (List.finRange n).map (t.claimed τ (List.finRange n)) := by
  rw [values_eq_foldl]
  exact (claim_scan (List.finRange n) (List.nodup_finRange n)).values

end claims

/-! ## Values without tolerance -/

open Exact

variable {n m : Nat} {t : Tableau Exact n m}

theorem abs_sub_one_le_zero_iff (h : t.IsRational) (k : Fin m) (j : Fin (n + m)) :
    decide (Scalar.abs (t.entry k j - 1) ≤ (0 : Exact)) = true ↔ t.coefficient k j = 1 := by
  rw [decide_eq_true_iff, h.entry_eq]
  simp [sub_eq_zero]

theorem clearOutside_iff (h : t.IsRational) (i : Fin m) (j : Fin (n + m)) :
    t.ClearOutside 0 i j ↔ ∀ k, k ≠ i.succ → t.cell k j.castSucc = 0 := by
  unfold ClearOutside
  simp only [h.reducedCost_eq, h.entry_eq, zero_eq, abs_rational, rational_lt, abs_pos, not_not]
  constructor
  · rintro ⟨hcost, hrows⟩ k hk
    cases k using Fin.cases with
    | zero => exact hcost
    | succ k => exact hrows k fun he => hk (congrArg Fin.succ he)
  · intro hzero
    exact ⟨hzero 0 (Fin.succ_ne_zero i).symm,
      fun k hk => hzero k.succ fun he => hk (Fin.succ_injective m he)⟩

/-- Without tolerance the unit columns that are recognized are the unit
    columns. -/
theorem unitRow?_eq_some_iff (h : t.IsRational) (j : Fin (n + m)) (i : Fin m) :
    t.unitRow? 0 j = some i ↔ t.IsUnit j i := by
  unfold unitRow?
  rw [Option.filter_eq_some_iff, decide_eq_true_iff, clearOutside_iff h]
  constructor
  · rintro ⟨hfind, hzero⟩
    have hfound := List.find?_some hfind
    exact ⟨(abs_sub_one_le_zero_iff h i j).mp hfound, hzero⟩
  · rintro ⟨hone, hzero⟩
    refine ⟨?_, hzero⟩
    cases hfind : (List.finRange m).find? fun k => Scalar.abs (t.entry k j - 1) ≤ (0 : Exact) with
    | none =>
      have hi := List.find?_eq_none.mp hfind i (List.mem_finRange i)
      exact absurd ((abs_sub_one_le_zero_iff h i j).mpr hone) hi
    | some k =>
      -- Only row `i` has a one: a column that is clear outside has zeros elsewhere.
      have hfound := List.find?_some hfind
      have hk := (abs_sub_one_le_zero_iff h k j).mp hfound
      by_cases hki : k = i
      · rw [hki]
      · have hz := hzero k.succ fun he => hki (Fin.succ_injective m he)
        exact absurd (hz.symm.trans hk) zero_ne_one

/-- The column that holds a row: the first variable that claims it, or else its
    basic column. -/
def holder (t : Tableau Exact n m) (i : Fin m) : Fin (n + m) :=
  match t.claimant 0 (List.finRange n) i with
  | some j => j.castAdd m
  | none => t.basis.get i

theorem holder_isUnit (h : t.IsRational) (hb : t.Based) (i : Fin m) : t.IsUnit (t.holder i) i := by
  unfold holder
  cases hc : t.claimant 0 (List.finRange n) i with
  | none => exact hb i
  | some j =>
    have hu := List.find?_some hc
    exact (unitRow?_eq_some_iff h _ i).mp (of_decide_eq_true hu)

theorem holder_eq_iff {i : Fin m} {j : Fin n} (h : t.IsRational) (hu : t.IsUnit (j.castAdd m) i) :
    t.holder i = j.castAdd m ↔ t.claimant 0 (List.finRange n) i = some j := by
  have hsome : (t.claimant 0 (List.finRange n) i).isSome :=
    (claimant_isSome_iff _ i).mpr ⟨j, List.mem_finRange j, (unitRow?_eq_some_iff h _ i).mpr hu⟩
  unfold holder
  cases hc : t.claimant 0 (List.finRange n) i with
  | none =>
    rw [hc] at hsome
    exact absurd hsome Bool.false_ne_true
  | some k => simp

theorem claimed_eq_spread (h : t.IsRational) (hb : t.Based) (j : Fin n) :
    t.claimed 0 (List.finRange n) j = rational (spread t.holder t.level (j.castAdd m)) := by
  unfold claimed spread
  cases hu : t.unitRow? 0 (j.castAdd m) with
  | none =>
    -- A row that the column holds would make it a unit column.
    have hnone : ∀ i, t.holder i ≠ j.castAdd m := by
      intro i hi
      have hunit := holder_isUnit h hb i
      rw [hi, ← unitRow?_eq_some_iff h, hu] at hunit
      exact Option.some_ne_none i hunit.symm
    rw [Finset.sum_eq_zero fun i _ => if_neg (hnone i)]
    rfl
  | some i =>
    have hunit : t.IsUnit (j.castAdd m) i := (unitRow?_eq_some_iff h _ i).mp hu
    have hsingle : ∀ k, k ≠ i → t.holder k ≠ j.castAdd m := by
      intro k hk hkj
      have hkunit := holder_isUnit h hb k
      rw [hkj] at hkunit
      exact hk (hkunit.row_unique hunit)
    rw [Finset.sum_eq_single i (fun k _ hk => if_neg (hsingle k hk))
      (fun hi => absurd (Finset.mem_univ i) hi)]
    dsimp only
    by_cases hc : t.claimant 0 (List.finRange n) i = some j
    · rw [if_pos hc, if_pos ((holder_eq_iff h hunit).mpr hc), h.rhs_eq]
    · rw [if_neg hc, if_neg (mt (holder_eq_iff h hunit).mp hc)]
      rfl

/-- The values read off are those of the point in which every row's holder
    has the row's right-hand side. -/
theorem values_eq_spread (h : t.IsRational) (hb : t.Based) :
    t.values 0 =
      (List.finRange n).map fun j => rational (spread t.holder t.level (j.castAdd m)) := by
  rw [values_eq_map]
  exact List.map_congr_left fun j _ => claimed_eq_spread h hb j

end Tableau

end IntegerProgramming
