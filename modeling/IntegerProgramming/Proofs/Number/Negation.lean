import IntegerProgramming.Proofs.Number.Double

/-! # Negation

    Negating a number is exact: negating it twice gives it back, and numbers
    compare the other way round when both are negated.  Rounding is symmetric
    as well, so a sum and the sum of the negated numbers compare the other way
    round with everything; they need not be each other's negation, because the
    sum of a number and its opposite is zero with the same sign both times.

    None of this asks whether the numbers are defined: an undefined one is its
    own negation and is smaller than nothing either way. -/

namespace IntegerProgramming

/-- Numbers that negation mirrors. -/
class Scalar.Symmetric (α : Type) [Scalar α] : Prop where
  neg_neg (x : α) : - -x = x
  below_neg (x y : α) : below (-x) (-y) = below y x
  below_neg_sub (x y t : α) : below (-x) (-y - t) = below (y + t) x

namespace Scalar

variable {α : Type} [Scalar α] [Symmetric α]

theorem neg_lt_neg_iff (x y : α) : -x < -y ↔ y < x := by
  show below (-x) (-y) = true ↔ below y x = true
  rw [Symmetric.below_neg]

theorem neg_lt_neg_sub_iff (x y t : α) : -x < -y - t ↔ y + t < x := by
  show below (-x) (-y - t) = true ↔ below (y + t) x = true
  rw [Symmetric.below_neg_sub]

theorem neg_add_lt_neg_iff (x y t : α) : -y + t < -x ↔ x < y - t := by
  rw [← neg_lt_neg_sub_iff (-x) (-y) t, Symmetric.neg_neg, Symmetric.neg_neg]

end Scalar

/-! ## Exact numbers -/

namespace Exact

theorem neg_involutive (x : Exact) : - -x = x := by
  cases x with
  | rational q => exact congrArg rational (neg_neg q)
  | undefined | minusInfinity | plusInfinity => rfl

theorem below_neg_neg (x y : Exact) : below (-x) (-y) = below y x := by
  cases x <;> cases y <;> first
    | rfl
    | exact decide_eq_decide.mpr neg_lt_neg_iff

theorem neg_sub_eq (x y : Exact) : -x - y = -(x + y) := by
  cases x <;> cases y <;> first
    | rfl
    | exact congrArg rational (neg_add _ _).symm

instance : Scalar.Symmetric Exact where
  neg_neg := neg_involutive
  below_neg := below_neg_neg
  below_neg_sub x y t := by
    rw [neg_sub_eq]
    exact below_neg_neg x (y + t)

end Exact

/-! ## Doubles -/

namespace Double

open Exact Float.Model Float.Model.UnpackedFloat

/-! ### Bit patterns -/

/-- A bit pattern consists of its sign, its exponent and its mantissa. -/
theorem packComponents_fields (b : BitVec Format.binary64.numBits) :
    packComponents .binary64 (Sign.ofBitVec (unpackSign b)) (unpackExponent b)
      (unpackMantissa b) = b := by
  have hsign : ∀ v : BitVec 1, (Sign.ofBitVec v).toBitVec = v := by decide
  unfold packComponents
  rw [hsign]
  unfold unpackSign unpackExponent unpackMantissa BitVec.extractLsb
  ext i hi
  grind

/-- Negating a number that is not undefined turns its sign around and keeps the
    other bits. -/
theorem pack_neg_unpack (s : Sign) {e : BitVec 11} {m : BitVec 52}
    (hdefined : e = -1#11 → m = 0#52) :
    UnpackedFloat.pack .binary64
        (UnpackedFloat.unpack .binary64 (packComponents .binary64 s e m)).neg =
      packComponents .binary64 (-s) e m := by
  have hm : m.toNat < 2 ^ 52 := m.isLt
  unfold UnpackedFloat.unpack
  simp only [unpackMantissa_packComponents, unpackExponent_packComponents,
    unpackSign_packComponents, ofBitVec_toBitVec]
  -- The largest exponent field, then the least one, then all others.
  by_cases hlargest : e = -1#11
  · obtain rfl := hdefined hlargest
    subst hlargest
    rfl
  · by_cases hleast : e = 0#11
    · subst hleast
      by_cases hzero : m = 0#52
      · subst hzero
        rfl
      · -- A subnormal number has no leading one.
        have hpos : m.toNat ≠ 0 := fun h => hzero (BitVec.eq_of_toNat_eq h)
        have hlog : ¬ m.toNat.log2 + 1 = Format.binary64.mantissaBits := by
          have h : m.toNat.log2 < 52 := (Nat.log2_lt hpos).mpr hm
          show ¬ m.toNat.log2 + 1 = 53
          omega
        rw [if_neg (by decide), if_pos rfl, dif_neg hzero]
        unfold UnpackedFloat.neg UnpackedFloat.pack
        dsimp only
        rw [if_neg (by decide), if_neg hlog, BitVec.ofNat_toNat, BitVec.setWidth_eq]
    · -- The leading one of a normal number is dropped again.
      have hrange : e.toNat < 2047 := by
        have hlt : e.toNat < 2048 := e.isLt
        have hne : e.toNat ≠ 2047 := fun h => hlargest (BitVec.eq_of_toNat_eq h)
        omega
      have hlog : (1#1 ++ m).toNat.log2 + 1 = Format.binary64.mantissaBits := by
        have h : (1#1 ++ m).toNat.log2 = 52 := by
          rw [toNat_append_one, Nat.log2_eq_iff (by omega)]
          omega
        rw [h]
        rfl
      have hexponent : ((e.toNat : ℤ) - (Format.binary64.exponentBias +
          Format.binary64.mantissaBitsWithoutImplicit) + Format.binary64.exponentBias +
            Format.binary64.mantissaBitsWithoutImplicit).toNat = e.toNat := by
        omega
      have hmantissa : BitVec.ofNat 52 (1#1 ++ m).toNat = m := by
        apply BitVec.eq_of_toNat_eq
        rw [toNat_append_one, BitVec.toNat_ofNat]
        omega
      rw [if_neg hlargest, if_neg hleast]
      unfold UnpackedFloat.neg UnpackedFloat.pack
      dsimp only
      rw [hexponent, if_neg (by norm_num; omega), if_pos hlog, hmantissa, BitVec.ofNat_toNat,
        BitVec.setWidth_eq]

theorem sign_neg_neg (s : Sign) : - -s = s := by
  cases s <;> rfl

/-- Negating a bit pattern twice gives it back, if undefined numbers have one
    pattern only. -/
theorem pack_neg_neg {b : BitVec Format.binary64.numBits} (hvalid : Format.binary64.Valid b) :
    UnpackedFloat.pack .binary64 (UnpackedFloat.unpack .binary64
      (UnpackedFloat.pack .binary64 (UnpackedFloat.unpack .binary64 b).neg)).neg = b := by
  by_cases hundefined : unpackExponent b = -1#11 ∧ unpackMantissa b ≠ 0#52
  · rw [hvalid.eq_packedNaN hundefined.1 hundefined.2]
    rfl
  · have hdefined : unpackExponent b = -1#11 → unpackMantissa b = 0#52 := fun h =>
      not_not.mp fun hne => hundefined ⟨h, hne⟩
    rw [← packComponents_fields b, pack_neg_unpack _ hdefined, pack_neg_unpack _ hdefined,
      sign_neg_neg]

/-- Negating a double twice gives it back. -/
theorem float_neg_neg (x : Float) : - -x = x := by
  obtain ⟨⟨⟨b⟩, hvalid⟩⟩ := x
  have hbits := pack_neg_neg hvalid
  have hmodel : (Float.Model.neg (Float.Model.neg ⟨⟨b⟩, hvalid⟩)) = ⟨⟨b⟩, hvalid⟩ := by
    rw [Float.Model.mk.injEq]
    exact congrArg UInt64.ofBitVec hbits
  exact congrArg Float.ofModel hmodel

/-! ### Read as exact numbers -/

/-- A double stands for one number only. -/
theorem Reads.unique {u : UnpackedFloat} {x y : Exact} (hx : Reads u x) (hy : Reads u y) :
    x = y := by
  cases hx with
  | undefined | plusInfinity | minusInfinity | zero => cases hy; rfl
  | @finite s m k hpos hm hk =>
    generalize hexponent : (k : ℤ) - 1074 = e at hy
    cases hy with
    | @finite s m l =>
      obtain rfl : k = l := by omega
      rfl

theorem clip_neg (x : Exact) : clip (-x) = -clip x := by
  cases x with
  | undefined | minusInfinity | plusInfinity => rfl
  | rational q =>
    have hpos : (0 : ℚ) < overflow := Nat.cast_pos.mpr overflow_pos
    rw [rational_neg]
    unfold clip
    dsimp only
    by_cases hhigh : (overflow : ℚ) ≤ q
    · rw [if_neg (by linarith), if_pos (by linarith), if_pos hhigh]
      rfl
    · by_cases hlow : q ≤ -(overflow : ℚ)
      · rw [if_pos (by linarith), if_neg hhigh, if_pos hlow]
        rfl
      · rw [if_neg (by linarith), if_neg (by linarith), if_neg hhigh, if_neg hlow]
        rfl

theorem clip_clip (x : Exact) : clip (clip x) = clip x := by
  cases x with
  | undefined | minusInfinity | plusInfinity => rfl
  | rational q =>
    by_cases hhigh : (overflow : ℚ) ≤ q
    · have hclip : clip (rational q) = .plusInfinity := if_pos hhigh
      rw [hclip]
      rfl
    · by_cases hlow : q ≤ -(overflow : ℚ)
      · have hclip : clip (rational q) = .minusInfinity := (if_neg hhigh).trans (if_pos hlow)
        rw [hclip]
        rfl
      · have hclip : clip (rational q) = rational q := (if_neg hhigh).trans (if_neg hlow)
        rw [hclip, hclip]

/-- A whole number of the smallest doubles, unless it is not rational at all. -/
def IsCount (x : Exact) : Prop := ∀ q, x = rational q → ∃ z : ℤ, q = z

theorem Reads.isCount {u : UnpackedFloat} {x : Exact} (h : Reads u x) : IsCount x := by
  intro q hq
  cases h with
  | undefined | plusInfinity | minusInfinity => cases hq
  | zero s => exact ⟨0, (rational.inj hq).symm.trans Int.cast_zero.symm⟩
  | finite s hpos hm hk => exact ⟨_, (rational.inj hq).symm⟩

theorem IsCount.add {x y : Exact} (hx : IsCount x) (hy : IsCount y) : IsCount (x + y) := by
  intro q hq
  cases x with
  | rational p =>
    cases y with
    | rational r =>
      obtain ⟨z, rfl⟩ := hx p rfl
      obtain ⟨w, rfl⟩ := hy r rfl
      rw [rational_add] at hq
      exact ⟨z + w, by rw [← rational.inj hq, Int.cast_add]⟩
    | undefined | minusInfinity | plusInfinity => cases hq
  | undefined | minusInfinity | plusInfinity => cases y <;> cases hq

/-- Rounding whole numbers is symmetric. -/
theorem settle_neg {x : Exact} (hx : IsCount x) : settle (-x) = -settle x := by
  cases x with
  | undefined | minusInfinity | plusInfinity => rfl
  | rational q =>
    obtain ⟨z, rfl⟩ := hx q rfl
    rw [rational_neg, ← Int.cast_neg, settle_int, settle_int, roundedInt_neg, rational_neg,
      Int.cast_neg]

section floats

variable {x y t : Float} {a b c : Exact}

/-- Numbers that doubles stand for are in range. -/
theorem clip_of_reads (hx : Reads x.toModel.unpack a) : clip a = a := by
  obtain ⟨b, hb⟩ := reads_float (-x)
  have htwice : Reads (- -x).toModel.unpack (clip (-b)) := hb.neg.pack
  rw [float_neg_neg] at htwice
  rw [hx.unique htwice, clip_clip]

theorem reads_neg (hx : Reads x.toModel.unpack a) : Reads (-x).toModel.unpack (-a) := by
  have hneg : Reads (-x).toModel.unpack (clip (-a)) := hx.neg.pack
  rwa [clip_neg, clip_of_reads hx] at hneg

end floats

/-- Doubles are mirrored by negation. -/
instance : Scalar.Symmetric Float where
  neg_neg := float_neg_neg
  below_neg x y := by
    obtain ⟨a, ha⟩ := reads_float x
    obtain ⟨b, hb⟩ := reads_float y
    rw [below_eq (reads_neg ha) (reads_neg hb), below_eq hb ha]
    exact below_neg_neg a b
  below_neg_sub x y t := by
    obtain ⟨a, ha⟩ := reads_float x
    obtain ⟨b, hb⟩ := reads_float y
    obtain ⟨c, hc⟩ := reads_float t
    rw [below_eq (reads_neg ha) (reads_sub (reads_neg hb) hc), below_eq (reads_add hb hc) ha,
      neg_sub_eq, settle_neg (hb.isCount.add hc.isCount), clip_neg]
    exact below_neg_neg a _

end Double

end IntegerProgramming
