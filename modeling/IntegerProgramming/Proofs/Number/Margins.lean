import IntegerProgramming.Proofs.Number.Compared
import IntegerProgramming.Proofs.Number.Negation

/-! # Margins

    A number that is above another one by a margin is above it.  For exact
    numbers that is a matter of signs.  Doubles round the sum before it is
    compared, and the law rests on two facts about rounding: it is monotone, and
    it leaves alone what is a double already.  So the rounded sum of a double
    and a number that is not negative is at least that double.

    Undefined numbers need no mention: a comparison with one of them fails, and
    a sum with one of them is undefined again. -/

namespace IntegerProgramming

/-- Numbers that are beaten if they are beaten by a finite margin. -/
class Scalar.Margins (α : Type) [Scalar α] : Prop where
  lt_of_add_lt {x y t : α} (ht : IsFinite t) (hpos : 0 ≤ t) (h : x + t < y) : x < y
  lt_of_lt_sub {x y t : α} (ht : IsFinite t) (hpos : 0 ≤ t) (h : y < x - t) : y < x

/-! ## Exact numbers -/

namespace Exact

open Scalar

theorem le_add_rational {x : Exact} (hx : x ≠ undefined) {q : ℚ} (hq : 0 ≤ q) :
    x ≤ x + rational q := by
  cases x with
  | undefined => exact absurd rfl hx
  | minusInfinity => rfl
  | plusInfinity => rfl
  | rational p =>
    rw [rational_add, rational_le]
    linarith

theorem sub_rational_le {x : Exact} (hx : x ≠ undefined) {q : ℚ} (hq : 0 ≤ q) :
    x - rational q ≤ x := by
  cases x with
  | undefined => exact absurd rfl hx
  | minusInfinity => rfl
  | plusInfinity => rfl
  | rational p =>
    rw [rational_sub, rational_le]
    linarith

instance : Margins Exact where
  lt_of_add_lt {x y t} ht hpos h := by
    have hx : x ≠ undefined := by
      rintro rfl
      exact absurd h Bool.false_ne_true
    rw [(isRational_iff_isFinite t).mpr ht] at hpos h
    have hle := le_add_rational hx ((rational_le 0 _).mp hpos)
    exact Compared.lt_of_le_of_lt ((isDefined_iff x).mpr hx) hle h
  lt_of_lt_sub {x y t} ht hpos h := by
    have hx : x ≠ undefined := by
      rintro rfl
      cases y <;> exact absurd h Bool.false_ne_true
    rw [(isRational_iff_isFinite t).mpr ht] at hpos h
    have hle := sub_rational_le hx ((rational_le 0 _).mp hpos)
    exact Compared.lt_of_lt_of_le ((isDefined_iff x).mpr hx) h hle

end Exact

/-! ## Doubles -/

namespace Double

open Exact Float.Model Scalar

/-- What a double stands for is not rounded. -/
theorem settle_of_reads {u : UnpackedFloat} {x : Exact} (h : Reads u x) : settle x = x := by
  cases h with
  | undefined | plusInfinity | minusInfinity => rfl
  | zero s => exact settle_zero
  | finite s hpos hm hk => rw [settle_int, roundedInt_apply s hm hk]

section floats

variable {x t : Float} {a b c : Exact}

theorem clip_settle_of_reads (hx : Reads x.toModel.unpack a) : clip (settle a) = a := by
  rw [settle_of_reads hx, clip_of_reads hx]

/-- Rounding a number does not take it below a double that it is not below. -/
theorem le_clip_settle (hx : Reads x.toModel.unpack a) (h : a ≤ b) : a ≤ clip (settle b) := by
  have hmono := clip_mono (settle_mono h)
  rwa [clip_settle_of_reads hx] at hmono

theorem clip_settle_le (hx : Reads x.toModel.unpack a) (h : b ≤ a) : clip (settle b) ≤ a := by
  have hmono := clip_mono (settle_mono h)
  rwa [clip_settle_of_reads hx] at hmono

/-- A finite double that is not negative stands for such a number. -/
theorem exists_rational_of_reads (ht : Reads t.toModel.unpack c) (hfinite : IsFinite t)
    (hpos : atMost 0 t = true) : ∃ q : ℚ, c = rational q ∧ 0 ≤ q := by
  have hzero : Reads (0 : Float).toModel.unpack (rational 0) := .zero .positive
  have hrational : c = rational c.toRat :=
    (isRational_iff_isFinite c).mpr (isFinite_of_reads ht hfinite)
  have hle : rational 0 ≤ c := (atMost_eq hzero ht).symm.trans hpos
  rw [hrational] at hle
  exact ⟨c.toRat, hrational, (rational_le 0 _).mp hle⟩

end floats

instance : Margins Float where
  lt_of_add_lt {x y t} ht hpos h := by
    obtain ⟨a, ha⟩ := reads_float x
    obtain ⟨b, hb⟩ := reads_float y
    obtain ⟨c, hc⟩ := reads_float t
    obtain ⟨q, rfl, hq⟩ := exists_rational_of_reads hc ht hpos
    have hsum : clip (settle (a + rational q)) < b := (below_eq (reads_add ha hc) hb).symm.trans h
    have hdefined : a ≠ undefined := by
      rintro rfl
      exact absurd hsum Bool.false_ne_true
    have hle := le_clip_settle ha (le_add_rational hdefined hq)
    have hlt : a < b := Compared.lt_of_le_of_lt ((Exact.isDefined_iff a).mpr hdefined) hle hsum
    exact (below_eq ha hb).trans hlt
  lt_of_lt_sub {x y t} ht hpos h := by
    obtain ⟨a, ha⟩ := reads_float x
    obtain ⟨b, hb⟩ := reads_float y
    obtain ⟨c, hc⟩ := reads_float t
    obtain ⟨q, rfl, hq⟩ := exists_rational_of_reads hc ht hpos
    have hdifference : b < clip (settle (a - rational q)) :=
      (below_eq hb (reads_sub ha hc)).symm.trans h
    have hdefined : a ≠ undefined := by
      rintro rfl
      cases b <;> exact absurd hdifference Bool.false_ne_true
    have hle := clip_settle_le ha (sub_rational_le hdefined hq)
    have hlt : b < a :=
      Compared.lt_of_lt_of_le ((Exact.isDefined_iff a).mpr hdefined) hdifference hle
    exact (below_eq hb ha).trans hlt

end Double

end IntegerProgramming
