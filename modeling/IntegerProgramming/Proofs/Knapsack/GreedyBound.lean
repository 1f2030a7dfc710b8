import IntegerProgramming.Proofs.Knapsack.Order
import IntegerProgramming.Proofs.Number.Ordered

/-! # The greedy bound

    Filling the rest of the capacity greedily gives the value of a price: each
    unit of capacity costs the price, and every item earns what its value
    exceeds the price of its weight by, if it does (`fill_eq`).  The price is
    the ratio of the item that is cut, or zero if no item is.

    At any price from zero up this is more than any fractions of the items are
    worth that fit (`worth_le`), so no selection beats the greedy bound
    (`le_fill`), and no price makes the items worth less than it (`fill_le`). -/

namespace IntegerProgramming

open Exact

namespace Knapsack

/-! ## Prices -/

/-- What the items earn at a price of the capacity. -/
def surplus (price : ℚ) (items : List (Item Exact)) : ℚ :=
  (items.map fun i => max 0 (i.value.toRat - price * i.weight.toRat)).sum

/-- The weight of fractions of the items. -/
def load (items : List (Item Exact)) (x : ℕ → ℚ) : ℚ :=
  (items.map fun i => i.weight.toRat * x i.index).sum

/-- The value of fractions of the items. -/
def worth (items : List (Item Exact)) (x : ℕ → ℚ) : ℚ :=
  (items.map fun i => i.value.toRat * x i.index).sum

theorem surplus_nonneg (price : ℚ) (items : List (Item Exact)) : 0 ≤ surplus price items := by
  refine List.sum_nonneg fun q hq => ?_
  obtain ⟨i, -, rfl⟩ := List.mem_map.mp hq
  exact le_max_left _ _

theorem load_nonneg {items : List (Item Exact)} (hitems : ∀ i ∈ items, i.IsRational) {x : ℕ → ℚ}
    (hx : ∀ i ∈ items, 0 ≤ x i.index) : 0 ≤ load items x := by
  refine List.sum_nonneg fun q hq => ?_
  obtain ⟨i, hi, rfl⟩ := List.mem_map.mp hq
  exact mul_nonneg (hitems i hi).nonneg (hx i hi)

/-- Fractions of items are worth at most the price of their weight and the
    surplus. -/
theorem worth_le (price : ℚ) (items : List (Item Exact)) {x : ℕ → ℚ}
    (hx : ∀ i ∈ items, 0 ≤ x i.index ∧ x i.index ≤ 1) :
    worth items x ≤ price * load items x + surplus price items := by
  induction items with
  | nil => simp [worth, load, surplus]
  | cons i items ih =>
    obtain ⟨⟨hlow, hhigh⟩, hrest⟩ := List.forall_mem_cons.mp hx
    have hrest := ih hrest
    have hown : i.value.toRat * x i.index ≤
        price * (i.weight.toRat * x i.index) +
          max 0 (i.value.toRat - price * i.weight.toRat) := by
      -- The surplus is at least what the item earns, and at least nothing.
      have hle := le_max_right 0 (i.value.toRat - price * i.weight.toRat)
      have hnonneg := le_max_left 0 (i.value.toRat - price * i.weight.toRat)
      have hscaled := mul_le_mul_of_nonneg_right hle hlow
      have hcapped := mul_le_mul_of_nonneg_left hhigh hnonneg
      linarith
    unfold worth load surplus at hrest ⊢
    simp only [List.map_cons, List.sum_cons]
    linarith

/-! ## Filling -/

/-- A price at which an item of the list breaks even, or zero. -/
def IsPrice (price : ℚ) (items : List (Item Exact)) : Prop :=
  price = 0 ∨ ∃ i ∈ items, 0 < i.value.toRat ∧ 0 < i.weight.toRat ∧
    price = i.value.toRat / i.weight.toRat

theorem IsPrice.nonneg {price : ℚ} {items : List (Item Exact)} (h : IsPrice price items) :
    0 ≤ price := by
  rcases h with rfl | ⟨i, -, hvalue, hweight, rfl⟩
  · exact le_rfl
  · exact (div_pos hvalue hweight).le

/-- An item of value at the front earns at least nothing at the price of a
    later one. -/
theorem IsPrice.mul_weight_le {price : ℚ} {item : Item Exact} {items : List (Item Exact)}
    (h : IsPrice price items) (hitem : item.IsRational) (hitems : ∀ i ∈ items, i.IsRational)
    (hfirst : ∀ i ∈ items, item.noLater i = true) (hvalue : 0 < item.value.toRat) :
    price * item.weight.toRat ≤ item.value.toRat := by
  rcases h with rfl | ⟨i, hi, hvi, hwi, rfl⟩
  · rw [zero_mul]
    exact hvalue.le
  · rw [div_mul_eq_mul_div, div_le_iff₀ hwi]
    exact hitem.value_mul_weight_le (hitems i hi) (hfirst i hi) hvalue hvi

/-- Behind an item that is cut nothing earns anything at its price. -/
theorem surplus_eq_zero {item : Item Exact} {items : List (Item Exact)} (hitem : item.IsRational)
    (hitems : ∀ i ∈ items, i.IsRational) (hfirst : ∀ i ∈ items, item.noLater i = true)
    (hvalue : 0 < item.value.toRat) (hweight : 0 < item.weight.toRat) :
    surplus (item.value.toRat / item.weight.toRat) items = 0 := by
  refine List.sum_eq_zero fun q hq => ?_
  obtain ⟨i, hi, rfl⟩ := List.mem_map.mp hq
  refine max_eq_left (sub_nonpos.mpr ?_)
  rcases le_or_gt i.value.toRat 0 with hneg | hpos
  · exact hneg.trans (mul_nonneg (div_pos hvalue hweight).le (hitems i hi).nonneg)
  · rw [div_mul_eq_mul_div, le_div_iff₀ hweight]
    exact hitem.value_mul_weight_le (hitems i hi) (hfirst i hi) hvalue hpos

/-- A rational item is passed over, taken, or cut. -/
theorem fill_cons {item : Item Exact} (hitem : item.IsRational) (items : List (Item Exact))
    {capacity : ℚ} (hcapacity : 0 ≤ capacity) (value : ℚ) :
    fill (item :: items) (rational capacity) (rational value) =
      if item.value.toRat ≤ 0 then fill items (rational capacity) (rational value)
      else if item.weight.toRat ≤ capacity then
        fill items (rational (capacity - item.weight.toRat)) (rational (value + item.value.toRat))
      else rational (value + capacity / item.weight.toRat * item.value.toRat) := by
  have hvalue : item.value = rational item.value.toRat := hitem.value
  have hweight : item.weight = rational item.weight.toRat := hitem.weight
  have hpassed : item.value ≤ 0 ↔ item.value.toRat ≤ 0 := by
    conv_lhs => rw [hvalue, zero_eq, rational_le]
  have hfits : item.weight ≤ rational capacity ↔ item.weight.toRat ≤ capacity := by
    conv_lhs => rw [hweight, rational_le]
  rw [fill]
  refine ite_congr (propext hpassed) (fun _ => rfl) fun _ => ?_
  refine ite_congr (propext hfits) (fun _ => ?_) fun hcut => ?_
  · conv_lhs => rw [hvalue, hweight, rational_sub, rational_add]
  · -- Only what weighs more than the capacity is divided by.
    have hpos : 0 < item.weight.toRat := hcapacity.trans_lt (not_le.mp hcut)
    conv_lhs => rw [hvalue, hweight, rational_div hpos.ne', rational_mul, rational_add]

/-- Filling greedily gives the value of a price. -/
theorem fill_eq {items : List (Item Exact)} (hitems : ∀ i ∈ items, i.IsRational)
    (hsorted : items.Pairwise fun a b => a.noLater b = true) {capacity value : ℚ}
    (hcapacity : 0 ≤ capacity) :
    ∃ price, IsPrice price items ∧
      fill items (rational capacity) (rational value) =
        rational (value + price * capacity + surplus price items) := by
  -- Each item that fits leaves less capacity to those behind it.
  induction items generalizing capacity value with
  | nil => exact ⟨0, .inl rfl, by simp [fill, surplus]⟩
  | cons item items ih =>
    obtain ⟨hitem, hitems⟩ := List.forall_mem_cons.mp hitems
    obtain ⟨hfirst, hsorted⟩ := List.pairwise_cons.mp hsorted
    have hlater {price : ℚ} (h : IsPrice price items) : IsPrice price (item :: items) :=
      h.imp_right fun ⟨i, hi, hrest⟩ => ⟨i, List.mem_cons_of_mem item hi, hrest⟩
    have hsurplus (price : ℚ) : surplus price (item :: items) =
        max 0 (item.value.toRat - price * item.weight.toRat) + surplus price items := rfl
    rw [fill_cons hitem items hcapacity]
    rcases le_or_gt item.value.toRat 0 with hvalue | hvalue
    · -- An item without value earns nothing at any price.
      obtain ⟨price, hprice, hfill⟩ := ih hitems hsorted hcapacity
      refine ⟨price, hlater hprice, ?_⟩
      have hnothing : item.value.toRat - price * item.weight.toRat ≤ 0 :=
        sub_nonpos.mpr (hvalue.trans (mul_nonneg hprice.nonneg hitem.nonneg))
      rw [if_pos hvalue, hfill, hsurplus, max_eq_left hnothing, zero_add]
    · rw [if_neg (not_le.mpr hvalue)]
      rcases le_or_gt item.weight.toRat capacity with hfits | hcut
      · -- A later item sets the price, and this one earns its value at it.
        obtain ⟨price, hprice, hfill⟩ := ih hitems hsorted (sub_nonneg.mpr hfits)
        refine ⟨price, hlater hprice, ?_⟩
        have hearns := hprice.mul_weight_le hitem hitems hfirst hvalue
        rw [if_pos hfits, hfill, hsurplus, max_eq_right (sub_nonneg.mpr hearns)]
        congr 1
        ring
      · -- The item that is cut sets the price, so that it just breaks even.
        have hweight : 0 < item.weight.toRat := hcapacity.trans_lt hcut
        refine ⟨item.value.toRat / item.weight.toRat,
          .inr ⟨item, List.mem_cons_self, hvalue, hweight, rfl⟩, ?_⟩
        rw [if_neg (not_le.mpr hcut), hsurplus,
          surplus_eq_zero hitem hitems hfirst hvalue hweight, div_mul_cancel₀ _ hweight.ne',
          sub_self, max_self]
        congr 1
        ring

/-- No fractions of the items that fit are worth more than the greedy
    filling. -/
theorem le_fill {items : List (Item Exact)} (hitems : ∀ i ∈ items, i.IsRational)
    (hsorted : items.Pairwise fun a b => a.noLater b = true) {capacity value : ℚ}
    (hcapacity : 0 ≤ capacity) {x : ℕ → ℚ} (hx : ∀ i ∈ items, 0 ≤ x i.index ∧ x i.index ≤ 1)
    (hload : load items x ≤ capacity) :
    rational (value + worth items x) ≤ fill items (rational capacity) (rational value) := by
  obtain ⟨price, hprice, hfill⟩ := fill_eq hitems hsorted hcapacity
  have hworth := worth_le price items hx
  have hcost := mul_le_mul_of_nonneg_left hload hprice.nonneg
  rw [hfill, rational_le]
  linarith

/-- No price from zero up makes the capacity and the items worth less than the
    greedy filling, in whatever order the items are. -/
theorem fill_le {price : ℚ} (hprice : 0 ≤ price) {items : List (Item Exact)}
    (hitems : ∀ i ∈ items, i.IsRational) {capacity value : ℚ} (hcapacity : 0 ≤ capacity) :
    fill items (rational capacity) (rational value) ≤
      rational (value + price * capacity + surplus price items) := by
  induction items generalizing capacity value with
  | nil =>
    have hcost := mul_nonneg hprice hcapacity
    simp [fill, surplus, hcost]
  | cons item items ih =>
    obtain ⟨hitem, hitems⟩ := List.forall_mem_cons.mp hitems
    have hsurplus : surplus price (item :: items) =
        max 0 (item.value.toRat - price * item.weight.toRat) + surplus price items := rfl
    have hnothing := le_max_left 0 (item.value.toRat - price * item.weight.toRat)
    have hearns := le_max_right 0 (item.value.toRat - price * item.weight.toRat)
    rw [fill_cons hitem items hcapacity, hsurplus]
    rcases le_or_gt item.value.toRat 0 with hvalue | hvalue
    · rw [if_pos hvalue]
      refine Scalar.Ordered.le_trans (ih hitems hcapacity) ((rational_le _ _).mpr ?_)
      linarith
    · rw [if_neg (not_le.mpr hvalue)]
      rcases le_or_gt item.weight.toRat capacity with hfits | hcut
      · -- The item pays for its weight and earns no more than its surplus.
        rw [if_pos hfits]
        refine Scalar.Ordered.le_trans (ih hitems (sub_nonneg.mpr hfits))
          ((rational_le _ _).mpr ?_)
        linarith
      · -- The same holds of a fraction of the item.
        have hweight : 0 < item.weight.toRat := hcapacity.trans_lt hcut
        have hopen := surplus_nonneg price items
        have hfraction : 0 ≤ capacity / item.weight.toRat := div_nonneg hcapacity hweight.le
        have hpart : capacity / item.weight.toRat ≤ 1 := (div_le_one hweight).mpr hcut.le
        have hscaled := mul_le_mul_of_nonneg_left hearns hfraction
        have hcapped := mul_le_mul_of_nonneg_right hpart hnothing
        have hpaid : capacity / item.weight.toRat * (price * item.weight.toRat) =
            price * capacity := by
          field_simp
        rw [if_neg (not_le.mpr hcut), rational_le]
        linarith

/-- Deciding the first item does not raise the filling: an item that is left out
    is not missed, and one that is taken pays for its weight. -/
theorem fill_decide_le {item : Item Exact} {items : List (Item Exact)}
    (hitems : ∀ i ∈ item :: items, i.IsRational)
    (hsorted : (item :: items).Pairwise fun a b => a.noLater b = true) {capacity : ℚ}
    (hcapacity : 0 ≤ capacity) (value : ℚ) :
    fill items (rational capacity) (rational value) ≤
        fill (item :: items) (rational capacity) (rational value) ∧
      (item.weight.toRat ≤ capacity →
        fill items (rational (capacity - item.weight.toRat))
            (rational (value + item.value.toRat)) ≤
          fill (item :: items) (rational capacity) (rational value)) := by
  obtain ⟨price, hprice, hfill⟩ := @fill_eq _ hitems hsorted capacity value hcapacity
  have hrest := (List.forall_mem_cons.mp hitems).2
  have hsurplus : surplus price (item :: items) =
      max 0 (item.value.toRat - price * item.weight.toRat) + surplus price items := rfl
  -- At the price of the whole filling the rest is worth no more.
  rw [hfill, hsurplus]
  constructor
  · have hnothing := le_max_left 0 (item.value.toRat - price * item.weight.toRat)
    refine Scalar.Ordered.le_trans (fill_le hprice.nonneg hrest hcapacity)
      ((rational_le _ _).mpr ?_)
    linarith
  · intro hfits
    have hearns := le_max_right 0 (item.value.toRat - price * item.weight.toRat)
    refine Scalar.Ordered.le_trans (fill_le hprice.nonneg hrest (sub_nonneg.mpr hfits))
      ((rational_le _ _).mpr ?_)
    linarith

end Knapsack

end IntegerProgramming
