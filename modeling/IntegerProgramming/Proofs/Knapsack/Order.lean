import IntegerProgramming.Knapsack.Basic
import IntegerProgramming.Proofs.Number.Rational

/-! # The order of decision

    Items are compared by tier, then by descending ratio, then by position.
    This is a total preorder whatever the numbers are, so sorting by it works:
    of two sorted items the first one goes no later (`sorted_pairwise`).

    For items with rational values and rational weights from zero up, an
    earlier item is worth at least as much per weight as a later one
    (`value_mul_weight_le`), weightless items included. -/

namespace IntegerProgramming

open Exact

namespace Knapsack

/-! ## Sorting -/

section order

variable {α : Type} [Scalar α]

/-- Where the ratios of two items count, the first one is at least as good. -/
def Item.AtLeastAsGood (a b : Item α) : Prop :=
  a.tier = 1 → Scalar.precedes b.ratio a.ratio = true

theorem Item.noLater_iff (a b : Item α) :
    a.noLater b = true ↔ a.tier < b.tier ∨
      a.tier = b.tier ∧ a.AtLeastAsGood b ∧ (b.AtLeastAsGood a → a.index ≤ b.index) := by
  unfold noLater AtLeastAsGood
  by_cases htier : a.tier = b.tier
  · rw [if_neg (not_not.mpr htier), ← htier]
    by_cases hone : a.tier = 1
    · cases hba : Scalar.precedes b.ratio a.ratio with
      | false => simp [hone]
      | true => cases hab : Scalar.precedes a.ratio b.ratio <;> simp [hone]
    · simp [hone]
  · rw [if_pos htier, decide_eq_true_iff]
    simp [htier]

theorem Item.noLater_trans (a b c : Item α) (hab : a.noLater b = true) (hbc : b.noLater c = true) :
    a.noLater c = true := by
  rw [noLater_iff] at hab hbc ⊢
  rcases hab with hab | ⟨hab, hgood, hindex⟩
  · rcases hbc with hbc | ⟨hbc, -, -⟩
    · exact .inl (hab.trans hbc)
    · exact .inl (hbc ▸ hab)
  · rcases hbc with hbc | ⟨hbc, hgood', hindex'⟩
    · exact .inl (hab ▸ hbc)
    · refine .inr ⟨hab.trans hbc, fun hone => ?_, fun hca => ?_⟩
      · exact Scalar.precedes_trans _ _ _ (hgood' (hab ▸ hone)) (hgood hone)
      · -- If `c` is as good as `a`, all three are equally good.
        have hba : b.AtLeastAsGood a := fun hone =>
          Scalar.precedes_trans _ _ _ (hca (hbc ▸ hone)) (hgood' hone)
        have hcb : c.AtLeastAsGood b := fun hone =>
          Scalar.precedes_trans _ _ _ (hgood (hab.trans hbc ▸ hone)) (hca hone)
        exact (hindex hba).trans (hindex' hcb)

theorem Item.noLater_total (a b : Item α) : (a.noLater b || b.noLater a) = true := by
  rw [Bool.or_eq_true, noLater_iff, noLater_iff]
  -- Tiers decide first, then ratios, and positions break the tie.
  rcases lt_trichotomy a.tier b.tier with hlt | heq | hgt
  · exact .inl (.inl hlt)
  · by_cases hab : a.AtLeastAsGood b
    · by_cases hba : b.AtLeastAsGood a
      · rcases Nat.le_total a.index b.index with hle | hle
        · exact .inl (.inr ⟨heq, hab, fun _ => hle⟩)
        · exact .inr (.inr ⟨heq.symm, hba, fun _ => hle⟩)
      · exact .inl (.inr ⟨heq, hab, fun h => absurd h hba⟩)
    · have hba : b.AtLeastAsGood a := by
        intro _
        unfold AtLeastAsGood at hab
        rw [Classical.not_imp, Bool.not_eq_true] at hab
        have htotal := Scalar.precedes_total a.ratio b.ratio
        rw [hab.2, Bool.or_false] at htotal
        exact htotal
      exact .inr (.inr ⟨heq.symm, hba, fun h => absurd h hab⟩)
  · exact .inr (.inl hgt)

/-- Of two sorted items the first one goes no later. -/
theorem sorted_pairwise (items : List (Item α)) :
    (items.mergeSort Item.noLater).Pairwise fun a b => a.noLater b = true :=
  List.pairwise_mergeSort Item.noLater_trans Item.noLater_total items

end order

/-! ## Ratios of rational items -/

/-- An item with a rational value and a rational weight from zero up. -/
structure Item.IsRational (item : Item Exact) : Prop where
  value : item.value.IsRational
  weight : item.weight.IsRational
  nonneg : 0 ≤ item.weight.toRat

variable {a b : Item Exact}

theorem Item.IsRational.ratio_of_pos (h : a.IsRational) (hw : 0 < a.weight.toRat) :
    a.ratio = rational (a.value.toRat / a.weight.toRat) := by
  have hvalue : a.value = rational _ := h.value
  have hweight : a.weight = rational _ := h.weight
  have hpos : (0 : Exact) < a.weight := by rw [hweight]; simpa using hw
  unfold ratio
  rw [if_pos hpos, ← rational_div hw.ne', ← hvalue, ← hweight]

theorem Item.IsRational.ratio_of_weightless (h : a.IsRational) (hw : a.weight.toRat = 0) :
    a.ratio = if (0 : Exact) < a.value then plusInfinity
      else if a.value < 0 then minusInfinity else 0 := by
  have hweight : a.weight = rational _ := h.weight
  have hpos : ¬ (0 : Exact) < a.weight := by rw [hweight, hw]; simp
  unfold ratio
  rw [if_neg hpos]
  rfl

theorem Item.IsRational.tier_eq (h : a.IsRational) : a.tier = 1 := by
  have hsame : (a.ratio == a.ratio) = true := by
    rcases h.nonneg.eq_or_lt with hw | hw
    · rw [h.ratio_of_weightless hw.symm]
      split
      · rfl
      · split <;> rfl
    · rw [h.ratio_of_pos hw]
      simp
  unfold tier
  rw [if_pos hsame]

/-- An item that goes no later is worth at least as much per weight. -/
theorem Item.IsRational.value_mul_weight_le (ha : a.IsRational) (hb : b.IsRational)
    (h : a.noLater b = true) (hva : 0 < a.value.toRat) (hvb : 0 < b.value.toRat) :
    b.value.toRat * a.weight.toRat ≤ a.value.toRat * b.weight.toRat := by
  rw [noLater_iff, ha.tier_eq, hb.tier_eq] at h
  rcases h with hlt | ⟨-, hgood, -⟩
  · exact absurd hlt (lt_irrefl 1)
  · have hratio := hgood ha.tier_eq
    rcases ha.nonneg.eq_or_lt with hwa | hwa
    · -- A weightless first item is worth more than any weight can be.
      rw [← hwa, mul_zero]
      exact mul_nonneg hva.le hb.nonneg
    · rw [ha.ratio_of_pos hwa] at hratio
      rcases hb.nonneg.eq_or_lt with hwb | hwb
      · -- A weightless item of value only comes after weightless ones.
        have hpos : (0 : Exact) < b.value := by
          have hvalue : b.value = rational _ := hb.value
          rw [hvalue]
          simpa using hvb
        rw [hb.ratio_of_weightless hwb.symm, if_pos hpos] at hratio
        cases hratio
      · rw [hb.ratio_of_pos hwb] at hratio
        exact (div_le_div_iff₀ hwb hwa).mp ((rational_le _ _).mp hratio)

end Knapsack

end IntegerProgramming
