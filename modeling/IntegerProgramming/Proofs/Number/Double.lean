import IntegerProgramming.Number.Double
import IntegerProgramming.Proofs.Number.Ordered
import IntegerProgramming.Proofs.Number.Rounding

/-! # Doubles are ordered scalars

    Read as exact numbers, doubles are compared as these are
    (`Reads.compare_eq`), and a sum of doubles is the exact sum, rounded to 53
    bits and replaced by an infinity if it is out of range (`reads_add`).  Both
    steps are monotone.  Doubles are therefore ordered in the sense that
    arguments about comparisons ask for, although their sums are not exact. -/

namespace IntegerProgramming

namespace Double

open Exact Float.Model Float.Model.UnpackedFloat

/-! ## Sums -/

/-- Rounds a number that is counted in the smallest double. -/
def settle : Exact → Exact
  | rational q => rational (roundedInt ⌊q⌋)
  | x => x

theorem settle_int (z : ℤ) : settle (rational z) = rational (roundedInt z) := by
  show rational (roundedInt ⌊(z : ℚ)⌋) = rational (roundedInt z)
  rw [Int.floor_intCast]

theorem settle_zero : settle (rational 0) = rational 0 := settle_int 0

theorem apply_eq (s : Sign) (z : ℤ) : s.apply z = s.apply 1 * z := by
  cases s with
  | negative => exact (neg_one_mul z).symm
  | positive => exact (one_mul z).symm

/-- Numbers in canonical form are not rounded. -/
theorem roundedInt_apply (s : Sign) {m k : ℕ} (hm : m < 2 ^ 53) (hk : 2 ^ 52 ≤ m ∨ k = 0) :
    roundedInt (s.apply (m * 2 ^ k : ℕ)) = s.apply (m * 2 ^ k : ℕ) := by
  cases s with
  | positive =>
    show roundedInt ((m * 2 ^ k : ℕ) : ℤ) = (m * 2 ^ k : ℕ)
    rw [roundedInt_natCast, rounded_eq hm hk]
  | negative =>
    show roundedInt (-((m * 2 ^ k : ℕ) : ℤ)) = -((m * 2 ^ k : ℕ) : ℤ)
    rw [roundedInt_neg, roundedInt_natCast, rounded_eq hm hk]

/-- The bits that are shifted in do not change the number. -/
theorem apply_decreaseExponent (s : Sign) (m : ℕ) {i k : ℕ} (hi : i ≤ k) :
    s.apply ((decreaseExponent m (k - 1074) (i - 1074)).1 : ℕ) * 2 ^ i =
      s.apply (m * 2 ^ k : ℕ) := by
  have hshift : ((k : ℤ) - 1074 - (i - 1074)).toNat = k - i := by omega
  unfold decreaseExponent
  dsimp only
  rw [hshift, Nat.shiftLeft_eq, apply_eq s, apply_eq s ((m * 2 ^ k : ℕ) : ℤ), mul_assoc]
  congr 1
  have hpow : m * 2 ^ (k - i) * 2 ^ i = m * 2 ^ k := by
    rw [mul_assoc, ← pow_add, Nat.sub_add_cancel hi]
  exact_mod_cast hpow

/-- A sum of doubles is the rounded sum of what they stand for. -/
theorem Reads.add {u v : UnpackedFloat} {x y : Exact} (hu : Reads u x) (hv : Reads v y) :
    Reads (UnpackedFloat.add .binary64 u v) (settle (x + y)) := by
  cases hu with
  | undefined => cases hv <;> exact .undefined
  | plusInfinity =>
    cases hv with
    | minusInfinity => exact .undefined
    | undefined => exact .undefined
    | plusInfinity => exact .plusInfinity
    | zero => exact .plusInfinity
    | finite => exact .plusInfinity
  | minusInfinity =>
    cases hv with
    | plusInfinity => exact .undefined
    | undefined => exact .undefined
    | minusInfinity => exact .minusInfinity
    | zero => exact .minusInfinity
    | finite => exact .minusInfinity
  | zero s =>
    cases hv with
    | undefined => exact .undefined
    | plusInfinity => exact .plusInfinity
    | minusInfinity => exact .minusInfinity
    | zero t =>
      rw [rational_add, add_zero, settle_zero]
      cases s <;> cases t <;> exact .zero _
    | finite t hpos hm hk =>
      rw [rational_add, zero_add, settle_int, roundedInt_apply t hm hk]
      exact .finite t hpos hm hk
  | @finite s m k hpos hm hk =>
    cases hv with
    | undefined => exact .undefined
    | plusInfinity => exact .plusInfinity
    | minusInfinity => exact .minusInfinity
    | zero t =>
      rw [rational_add, add_zero, settle_int, roundedInt_apply s hm hk]
      exact .finite s hpos hm hk
    | @finite t n l _ hn hl =>
      -- With the smaller of the two exponents the mantissas are added exactly.
      have hmin : min ((k : ℤ) - 1074) (l - 1074) = (min k l : ℕ) - 1074 := by omega
      have hsum : (s.apply (m * 2 ^ k : ℕ) + t.apply (n * 2 ^ l : ℕ) : ℚ) =
          ((s.apply ((decreaseExponent m (k - 1074) ((min k l : ℕ) - 1074)).1 : ℕ) +
            t.apply ((decreaseExponent n (l - 1074) ((min k l : ℕ) - 1074)).1 : ℕ)) *
              2 ^ min k l : ℤ) := by
        rw [add_mul, apply_decreaseExponent s m (min_le_left k l),
          apply_decreaseExponent t n (min_le_right k l), Int.cast_add]
      unfold UnpackedFloat.add
      dsimp only
      rw [hmin, rational_add, hsum, settle_int]
      exact normalize_reads _ _ _

theorem sub_eq_add_neg (spec : Format) (u v : UnpackedFloat) :
    UnpackedFloat.sub spec u v = UnpackedFloat.add spec u v.neg := by
  have hminus : ∀ (s t : Sign) (a b : ℤ), s.apply a - t.apply b = s.apply a + (-t).apply b := by
    intro s t a b
    cases t
    · exact sub_neg_eq_add _ _
    · exact Int.sub_eq_add_neg
  cases u <;> cases v <;> first
    | rfl
    | simp only [UnpackedFloat.sub, UnpackedFloat.add, UnpackedFloat.neg, hminus]

theorem Reads.neg {u : UnpackedFloat} {x : Exact} (h : Reads u x) : Reads u.neg (-x) := by
  cases h with
  | undefined => exact .undefined
  | plusInfinity => exact .minusInfinity
  | minusInfinity => exact .plusInfinity
  | zero s =>
    rw [rational_neg, neg_zero]
    exact .zero _
  | @finite s m k hpos hm hk =>
    have hneg : -s.apply (m * 2 ^ k : ℕ) = (-s).apply (m * 2 ^ k : ℕ) := by
      cases s
      · exact neg_neg _
      · rfl
    rw [rational_neg, ← Int.cast_neg, hneg]
    exact .finite _ hpos hm hk

theorem Reads.sub {u v : UnpackedFloat} {x y : Exact} (hu : Reads u x) (hv : Reads v y) :
    Reads (UnpackedFloat.sub .binary64 u v) (settle (x - y)) := by
  rw [sub_eq_add_neg]
  exact hu.add hv.neg

/-! ## Packing -/

theorem unpackSign_packComponents (spec : Format) (s : Sign) (e : BitVec spec.exponentBits)
    (m : BitVec spec.mantissaBitsWithoutImplicit) :
    unpackSign (packComponents spec s e m) = s.toBitVec := by
  apply BitVec.eq_of_getLsbD_eq
  intro i hi
  have hzero : i = 0 := by omega
  subst hzero
  simp [unpackSign, packComponents, BitVec.getLsbD_append, BitVec.getElem_append]

theorem ofBitVec_toBitVec (s : Sign) : Sign.ofBitVec s.toBitVec = s := by
  cases s <;> rfl

theorem toNat_append_one (m : BitVec 52) : (1#1 ++ m).toNat = 2 ^ 52 + m.toNat := by
  rw [BitVec.toNat_append, ← Nat.shiftLeft_add_eq_or_of_lt m.isLt]
  rfl

/-- Every bit pattern stands for a number in canonical form. -/
theorem exists_reads (b : BitVec Format.binary64.numBits) :
    ∃ x, Reads (UnpackedFloat.unpack .binary64 b) x := by
  have hm : (unpackMantissa b).toNat < 2 ^ 52 := (unpackMantissa b).isLt
  unfold UnpackedFloat.unpack
  dsimp only
  -- The largest exponent field, then the least one, then all others.
  split
  · split
    · cases Sign.ofBitVec (unpackSign b) with
      | positive => exact ⟨_, .plusInfinity⟩
      | negative => exact ⟨_, .minusInfinity⟩
    · exact ⟨_, .undefined⟩
  · split
    · rename_i hexponent
      split
      · exact ⟨_, .zero _⟩
      · rename_i hmantissa
        have hpos : 0 < (unpackMantissa b).toNat := by
          simpa [BitVec.toNat_pos, BitVec.pos_iff_ne_zero] using hmantissa
        have hreads := Reads.finite (k := 0) (Sign.ofBitVec (unpackSign b)) hpos (by omega)
          (.inr rfl)
        rw [hexponent]
        exact ⟨_, hreads⟩
    · rename_i hexponent
      have hone : 1 ≤ (unpackExponent b).toNat := by
        rw [Nat.one_le_iff_ne_zero]
        intro hzero
        exact hexponent (BitVec.eq_of_toNat_eq hzero)
      have hreads := Reads.finite (m := (1#1 ++ unpackMantissa b).toNat)
        (k := (unpackExponent b).toNat - 1) (Sign.ofBitVec (unpackSign b))
        (by rw [toNat_append_one]; omega) (by rw [toNat_append_one]; omega)
        (.inl (by rw [toNat_append_one]; omega))
      have hbias : ((unpackExponent b).toNat : ℤ) - (1023 + 52) =
          ((unpackExponent b).toNat - 1 : ℕ) - 1074 := by omega
      rw [← hbias] at hreads
      exact ⟨_, hreads⟩

theorem biasedExponent_eq (k : ℕ) :
    ((k : ℤ) - 1074 + Format.binary64.exponentBias +
      Format.binary64.mantissaBitsWithoutImplicit).toNat = k + 1 := by
  show ((k : ℤ) - 1074 + (1023 : ℕ) + (52 : ℕ)).toNat = k + 1
  omega

theorem ofNat_exponent {k : ℕ} (hk : k ≤ 2045) :
    BitVec.ofNat 11 (k + 1) ≠ -1#11 ∧ BitVec.ofNat 11 (k + 1) ≠ 0#11 ∧
      (BitVec.ofNat 11 (k + 1)).toNat = k + 1 := by
  have hnat : (BitVec.ofNat 11 (k + 1)).toNat = k + 1 := by
    rw [BitVec.toNat_ofNat, Nat.mod_eq_of_lt (by omega)]
  refine ⟨fun h => ?_, fun h => ?_, hnat⟩
  · have hones := hnat.symm.trans (congrArg BitVec.toNat h)
    have hmax : (-1#11 : BitVec 11).toNat = 2047 := rfl
    omega
  · have hzero := hnat.symm.trans (congrArg BitVec.toNat h)
    exact absurd hzero (Nat.succ_ne_zero k)

/-- In range, packing loses nothing. -/
theorem unpack_pack_finite (s : Sign) {m k : ℕ} (hpos : 0 < m) (hm : m < 2 ^ 53)
    (hk : 2 ^ 52 ≤ m ∨ k = 0) (hrange : k ≤ 2045) :
    UnpackedFloat.unpack .binary64 (UnpackedFloat.pack .binary64 (.finite s m (k - 1074) hpos)) =
      .finite s m (k - 1074) hpos := by
  unfold UnpackedFloat.pack
  dsimp only
  rw [biasedExponent_eq, if_neg (by norm_num; omega)]
  -- The leading one of a normal number is not stored; a subnormal number has none.
  by_cases hnormal : 2 ^ 52 ≤ m
  · have hlog : m.log2 + 1 = Format.binary64.mantissaBits := by
      have h : m.log2 = 52 := (Nat.log2_eq_iff hpos.ne').mpr ⟨hnormal, hm⟩
      rw [h]
      rfl
    have hmantissa : (1#1 ++ BitVec.ofNat 52 m).toNat = m := by
      rw [toNat_append_one, BitVec.toNat_ofNat]
      omega
    obtain ⟨hinfinite, hzero, hnat⟩ := ofNat_exponent hrange
    rw [if_pos hlog]
    unfold UnpackedFloat.unpack
    simp only [unpackMantissa_packComponents, unpackExponent_packComponents,
      unpackSign_packComponents, ofBitVec_toBitVec]
    rw [if_neg hinfinite, if_neg hzero, UnpackedFloat.finite.injEq]
    refine ⟨rfl, hmantissa, ?_⟩
    rw [hnat]
    show ((k + 1 : ℕ) : ℤ) - ((1023 : ℕ) + (52 : ℕ)) = k - 1074
    omega
  · obtain rfl : k = 0 := hk.resolve_left hnormal
    have hlog : ¬ m.log2 + 1 = Format.binary64.mantissaBits := by
      have h : m.log2 < 52 := (Nat.log2_lt hpos.ne').mpr (not_le.mp hnormal)
      show ¬ m.log2 + 1 = 53
      omega
    have hmantissa : (BitVec.ofNat 52 m).toNat = m := by
      rw [BitVec.toNat_ofNat, Nat.mod_eq_of_lt (not_le.mp hnormal)]
    have hne : BitVec.ofNat 52 m ≠ 0#52 := by
      intro h
      rw [h] at hmantissa
      exact hpos.ne hmantissa
    rw [if_neg hlog]
    unfold UnpackedFloat.unpack
    simp only [unpackMantissa_packComponents, unpackExponent_packComponents,
      unpackSign_packComponents, ofBitVec_toBitVec]
    rw [if_neg (by decide), if_pos trivial, dif_neg hne, UnpackedFloat.finite.injEq]
    exact ⟨rfl, hmantissa, rfl⟩

/-- The number of exponents of finite doubles. -/
def exponents : ℕ := 2046

/-- The first number, counted in the smallest double, that is too large. -/
def overflow : ℕ := 2 ^ (52 + exponents)

theorem overflow_pos : 0 < overflow := Nat.two_pow_pos _

/-- Replaces numbers that are too large by infinities. -/
def clip : Exact → Exact
  | rational q =>
    if (overflow : ℚ) ≤ q then .plusInfinity
    else if q ≤ -(overflow : ℚ) then .minusInfinity
    else rational q
  | x => x

theorem overflow_le_iff {m k : ℕ} (hm : m < 2 ^ 53) (hk : 2 ^ 52 ≤ m ∨ k = 0) :
    overflow ≤ m * 2 ^ k ↔ exponents ≤ k := by
  unfold overflow
  constructor
  · intro hle
    by_contra hlt
    have hsum : 53 + k ≤ 52 + exponents := by omega
    apply absurd hle
    rw [not_le]
    calc m * 2 ^ k < 2 ^ 53 * 2 ^ k := Nat.mul_lt_mul_of_pos_right hm (Nat.two_pow_pos k)
      _ = 2 ^ (53 + k) := (pow_add 2 53 k).symm
      _ ≤ 2 ^ (52 + exponents) := pow_le_pow_right₀ one_le_two hsum
  · intro hle
    have hexponents : exponents = 2046 := rfl
    have hnormal : 2 ^ 52 ≤ m := hk.resolve_right (by omega)
    have hsum : 52 + exponents ≤ 52 + k := by omega
    calc 2 ^ (52 + exponents) ≤ 2 ^ (52 + k) := pow_le_pow_right₀ one_le_two hsum
      _ = 2 ^ 52 * 2 ^ k := pow_add 2 52 k
      _ ≤ m * 2 ^ k := Nat.mul_le_mul_right _ hnormal

theorem clip_of_lt {s : Sign} {n : ℕ} (h : n < overflow) :
    clip (rational (s.apply n)) = rational (s.apply n) := by
  have hn : (n : ℚ) < overflow := Nat.cast_lt.mpr h
  have hnonneg : (0 : ℚ) ≤ n := Nat.cast_nonneg n
  unfold clip
  dsimp only
  cases s with
  | positive => rw [cast_apply_positive, if_neg (by linarith), if_neg (by linarith)]
  | negative => rw [cast_apply_negative, if_neg (by linarith), if_neg (by linarith)]

theorem reads_infinity {s : Sign} {n : ℕ} (h : overflow ≤ n) :
    Reads (.infinity s) (clip (rational (s.apply n))) := by
  have hn : (overflow : ℚ) ≤ n := Nat.cast_le.mpr h
  have hpos : (0 : ℚ) < overflow := Nat.cast_pos.mpr overflow_pos
  unfold clip
  dsimp only
  cases s with
  | positive =>
    rw [cast_apply_positive, if_pos hn]
    exact .plusInfinity
  | negative =>
    rw [cast_apply_negative, if_neg (by linarith), if_pos (by linarith)]
    exact .minusInfinity

/-- Packing keeps numbers in range and replaces the others by infinities. -/
theorem Reads.pack {u : UnpackedFloat} {x : Exact} (h : Reads u x) :
    Reads (UnpackedFloat.unpack .binary64 (UnpackedFloat.pack .binary64 u)) (clip x) := by
  cases h with
  | undefined => exact .undefined
  | plusInfinity => exact .plusInfinity
  | minusInfinity => exact .minusInfinity
  | zero s =>
    have hclip := clip_of_lt (s := .positive) (n := 0) overflow_pos
    rw [cast_apply_positive, Nat.cast_zero] at hclip
    rw [hclip]
    cases s <;> exact .zero _
  | @finite s m k hpos hm hk =>
    have hexponents : exponents = 2046 := rfl
    by_cases hrange : k ≤ 2045
    · have hlt : m * 2 ^ k < overflow := by
        rw [← not_le, overflow_le_iff hm hk]
        omega
      rw [unpack_pack_finite s hpos hm hk hrange, clip_of_lt hlt]
      exact .finite s hpos hm hk
    · have hle : overflow ≤ m * 2 ^ k := (overflow_le_iff hm hk).mpr (by omega)
      have hpacked : UnpackedFloat.unpack .binary64
          (UnpackedFloat.pack .binary64 (.finite s m (k - 1074) hpos)) = .infinity s := by
        unfold UnpackedFloat.pack
        dsimp only
        rw [biasedExponent_eq, if_pos (by norm_num; omega)]
        cases s <;> rfl
      rw [hpacked]
      exact reads_infinity hle

/-! ## Comparisons -/

/-- How two numbers compare; undefined ones do not. -/
def order : Exact → Exact → Option Ordering
  | .undefined, _ | _, .undefined => none
  | rational p, rational q => some (compare p q)
  | .minusInfinity, .minusInfinity | .plusInfinity, .plusInfinity => some .eq
  | .minusInfinity, _ | _, .plusInfinity => some .lt
  | _, _ => some .gt

theorem atMost_eq_order (x y : Exact) : atMost x y = (order x y).any (·.isLE) := by
  cases x <;> cases y <;> try rfl
  rename_i p q
  show decide (p ≤ q) = (compare p q).isLE
  rw [Bool.eq_iff_iff, decide_eq_true_iff, Ordering.isLE_iff_ne_gt, compare_gt_iff_gt]
  exact not_lt.symm

theorem below_eq_order (x y : Exact) : below x y = (order x y == some .lt) := by
  cases x <;> cases y <;> try rfl
  rename_i p q
  show decide (p < q) = (some (compare p q) == some .lt)
  rw [Bool.eq_iff_iff, decide_eq_true_iff, beq_iff_eq, Option.some.injEq]
  exact compare_lt_iff_lt.symm

theorem same_eq_order (x y : Exact) : same x y = (order x y == some .eq) := by
  cases x <;> cases y <;> try rfl
  rename_i p q
  show decide (p = q) = (some (compare p q) == some .eq)
  rw [Bool.eq_iff_iff, decide_eq_true_iff, beq_iff_eq, Option.some.injEq]
  exact compare_eq_iff_eq.symm

theorem compare_neg_neg (p q : ℚ) : compare (-p) (-q) = (compare p q).swap := by
  rcases lt_trichotomy p q with hlt | rfl | hgt
  · rw [compare_lt_iff_lt.mpr hlt, compare_gt_iff_gt.mpr (neg_lt_neg hlt)]
    rfl
  · rw [compare_eq_iff_eq.mpr rfl, compare_eq_iff_eq.mpr rfl]
    rfl
  · rw [compare_gt_iff_gt.mpr hgt, compare_lt_iff_lt.mpr (neg_lt_neg hgt)]
    rfl

/-- In canonical form a larger exponent makes a larger number. -/
theorem compare_canonical {m k n l : ℕ} (hm : m < 2 ^ 53) (hk : 2 ^ 52 ≤ m ∨ k = 0)
    (hn : n < 2 ^ 53) (hl : 2 ^ 52 ≤ n ∨ l = 0) :
    (compare ((k : ℤ) - 1074) (l - 1074)).then (compare m n) =
      compare ((m * 2 ^ k : ℕ) : ℚ) ((n * 2 ^ l : ℕ) : ℚ) := by
  have hbelow : ∀ {m k n l : ℕ}, m < 2 ^ 53 → 2 ^ 52 ≤ n ∨ l = 0 → k < l →
      ((m * 2 ^ k : ℕ) : ℚ) < ((n * 2 ^ l : ℕ) : ℚ) := by
    intro m k n l hm hl hlt
    have hnormal : 2 ^ 52 ≤ n := hl.resolve_right (by omega)
    rw [Nat.cast_lt]
    calc m * 2 ^ k < 2 ^ 53 * 2 ^ k := Nat.mul_lt_mul_of_pos_right hm (Nat.two_pow_pos k)
      _ = 2 ^ 52 * 2 ^ (k + 1) := by rw [pow_succ 2 k]; ring
      _ ≤ 2 ^ 52 * 2 ^ l := Nat.mul_le_mul_left _ (Nat.pow_le_pow_right two_pos hlt)
      _ ≤ n * 2 ^ l := Nat.mul_le_mul_right _ hnormal
  rcases lt_trichotomy k l with hlt | rfl | hgt
  · rw [compare_lt_iff_lt.mpr (by omega), compare_lt_iff_lt.mpr (hbelow hm hl hlt)]
    rfl
  · rw [compare_eq_iff_eq.mpr rfl]
    have hpos : 0 < 2 ^ k := Nat.two_pow_pos k
    show compare m n = _
    rcases lt_trichotomy m n with hlt | rfl | hgt
    · rw [compare_lt_iff_lt.mpr hlt, eq_comm, compare_lt_iff_lt, Nat.cast_lt]
      exact Nat.mul_lt_mul_of_pos_right hlt hpos
    · rw [compare_eq_iff_eq.mpr rfl, compare_eq_iff_eq.mpr rfl]
    · rw [compare_gt_iff_gt.mpr hgt, eq_comm, compare_gt_iff_gt, Nat.cast_lt]
      exact Nat.mul_lt_mul_of_pos_right hgt hpos
  · rw [compare_gt_iff_gt.mpr (by omega), compare_gt_iff_gt.mpr (hbelow hn hk hgt)]
    rfl

/-- Doubles compare as the numbers that they stand for. -/
theorem Reads.compare_eq {u v : UnpackedFloat} {x y : Exact} (hu : Reads u x) (hv : Reads v y) :
    u.compare v = order x y := by
  have hcast : ∀ {m : ℕ} (k : ℕ), 0 < m → (0 : ℚ) < ((m * 2 ^ k : ℕ) : ℚ) := by
    intro m k hpos
    exact Nat.cast_pos.mpr (Nat.mul_pos hpos (Nat.two_pow_pos k))
  cases hu with
  | undefined => cases hv <;> rfl
  | plusInfinity => cases hv <;> rfl
  | minusInfinity => cases hv <;> rfl
  | zero s =>
    cases hv with
    | undefined => rfl
    | plusInfinity => rfl
    | minusInfinity => rfl
    | zero t => rfl
    | @finite t n l hpos =>
      show _ = some (compare _ _)
      cases t with
      | positive =>
        rw [cast_apply_positive, compare_lt_iff_lt.mpr (hcast l hpos)]
        rfl
      | negative =>
        rw [cast_apply_negative, compare_gt_iff_gt.mpr (neg_lt_zero.mpr (hcast l hpos))]
        rfl
  | @finite s m k hposm hm hk =>
    cases hv with
    | undefined => cases s <;> rfl
    | plusInfinity => cases s <;> rfl
    | minusInfinity => cases s <;> rfl
    | zero t =>
      show _ = some (compare _ _)
      cases s with
      | positive =>
        rw [cast_apply_positive, compare_gt_iff_gt.mpr (hcast k hposm)]
        rfl
      | negative =>
        rw [cast_apply_negative, compare_lt_iff_lt.mpr (neg_lt_zero.mpr (hcast k hposm))]
        rfl
    | @finite t n l hposn hn hl =>
      have hcanonical := compare_canonical hm hk hn hl
      show _ = some (compare _ _)
      cases s with
      | positive =>
        cases t with
        | positive =>
          rw [cast_apply_positive, cast_apply_positive, ← hcanonical]
          rfl
        | negative =>
          have hlt := (neg_lt_zero.mpr (hcast l hposn)).trans (hcast k hposm)
          rw [cast_apply_positive, cast_apply_negative, compare_gt_iff_gt.mpr hlt]
          rfl
      | negative =>
        cases t with
        | positive =>
          have hlt := (neg_lt_zero.mpr (hcast k hposm)).trans (hcast l hposn)
          rw [cast_apply_negative, cast_apply_positive, compare_lt_iff_lt.mpr hlt]
          rfl
        | negative =>
          rw [cast_apply_negative, cast_apply_negative, compare_neg_neg, ← hcanonical]
          rfl

/-! ## Monotonicity -/

theorem settle_mono {x y : Exact} (h : x ≤ y) : settle x ≤ settle y := by
  cases x with
  | undefined => exact absurd h Bool.false_ne_true
  | minusInfinity => cases y <;> exact h
  | plusInfinity => cases y <;> exact h
  | rational p =>
    cases y with
    | undefined => exact h
    | minusInfinity => exact h
    | plusInfinity => exact h
    | rational q =>
      rw [rational_le] at h
      show rational (roundedInt ⌊p⌋) ≤ rational (roundedInt ⌊q⌋)
      rw [rational_le, Int.cast_le]
      exact roundedInt_mono (Int.floor_le_floor h)

theorem clip_bounded (q : ℚ) :
    .minusInfinity ≤ clip (rational q) ∧ clip (rational q) ≤ .plusInfinity := by
  unfold clip
  dsimp only
  split_ifs <;> exact ⟨rfl, rfl⟩

theorem clip_rational_mono {p q : ℚ} (h : p ≤ q) : clip (rational p) ≤ clip (rational q) := by
  by_cases hp : (overflow : ℚ) ≤ p
  · have hclip : clip (rational q) = .plusInfinity := if_pos (hp.trans h)
    rw [hclip]
    exact (clip_bounded p).2
  by_cases hq : q ≤ -(overflow : ℚ)
  · have hpos : (0 : ℚ) < overflow := Nat.cast_pos.mpr overflow_pos
    have hclip : clip (rational p) = .minusInfinity := by
      unfold clip
      dsimp only
      rw [if_neg hp, if_pos (h.trans hq)]
    rw [hclip]
    exact (clip_bounded q).1
  -- What is left does not pass one end of the range with `p` and the other with `q`.
  unfold clip
  dsimp only
  rw [if_neg hp, if_neg hq]
  split_ifs
  · rfl
  · rfl
  · rfl
  · exact (rational_le p q).mpr h

theorem clip_mono {x y : Exact} (h : x ≤ y) : clip x ≤ clip y := by
  cases x with
  | undefined => exact absurd h Bool.false_ne_true
  | minusInfinity =>
    cases y with
    | rational q => exact (clip_bounded q).1
    | undefined => exact h
    | minusInfinity => exact h
    | plusInfinity => exact h
  | plusInfinity =>
    cases y with
    | rational q => exact absurd h Bool.false_ne_true
    | undefined => exact h
    | minusInfinity => exact h
    | plusInfinity => exact h
  | rational p =>
    cases y with
    | undefined => exact absurd h Bool.false_ne_true
    | minusInfinity => exact absurd h Bool.false_ne_true
    | plusInfinity => exact (clip_bounded p).2
    | rational q => exact clip_rational_mono ((rational_le p q).mp h)

theorem isDefined_clip_settle {x : Exact} (h : Scalar.IsDefined x) :
    Scalar.IsDefined (clip (settle x)) := by
  rw [Exact.isDefined_iff] at h ⊢
  cases x with
  | undefined => exact absurd rfl h
  | minusInfinity => exact nofun
  | plusInfinity => exact nofun
  | rational q =>
    unfold settle clip
    dsimp only
    split_ifs <;> exact nofun

/-! ## Doubles -/

/-- Every double can be read. -/
theorem reads_float (x : Float) : ∃ a, Reads x.toModel.unpack a := exists_reads _

section floats

variable {x y t : Float} {a b c : Exact}

theorem atMost_eq (hx : Reads x.toModel.unpack a) (hy : Reads y.toModel.unpack b) :
    Scalar.atMost x y = Scalar.atMost a b := by
  have hmodel : Scalar.atMost x y = x.toModel.unpack.le y.toModel.unpack := by
    show decide (decide (_ = true) = true) = _
    rw [Bool.decide_eq_true, Bool.decide_eq_true]
    rfl
  rw [hmodel]
  unfold UnpackedFloat.le
  rw [hx.compare_eq hy]
  exact (atMost_eq_order a b).symm

theorem below_eq (hx : Reads x.toModel.unpack a) (hy : Reads y.toModel.unpack b) :
    Scalar.below x y = Scalar.below a b := by
  have hmodel : Scalar.below x y = x.toModel.unpack.lt y.toModel.unpack := by
    show decide (decide (_ = true) = true) = _
    rw [Bool.decide_eq_true, Bool.decide_eq_true]
    rfl
  rw [hmodel]
  unfold UnpackedFloat.lt
  rw [hx.compare_eq hy]
  exact (below_eq_order a b).symm

theorem beq_eq (hx : Reads x.toModel.unpack a) (hy : Reads y.toModel.unpack b) :
    (x == y) = (a == b) := by
  have hmodel : (x == y) = x.toModel.unpack.beq y.toModel.unpack := rfl
  rw [hmodel]
  unfold UnpackedFloat.beq
  rw [hx.compare_eq hy]
  exact (same_eq_order a b).symm

theorem reads_add (hx : Reads x.toModel.unpack a) (ht : Reads t.toModel.unpack c) :
    Reads (x + t).toModel.unpack (clip (settle (a + c))) :=
  (hx.add ht).pack

theorem reads_sub (hx : Reads x.toModel.unpack a) (ht : Reads t.toModel.unpack c) :
    Reads (x - t).toModel.unpack (clip (settle (a - c))) :=
  (hx.sub ht).pack

theorem isDefined_iff (hx : Reads x.toModel.unpack a) :
    Scalar.IsDefined x ↔ Scalar.IsDefined a := by
  unfold Scalar.IsDefined
  rw [beq_eq hx hx]

theorem isFinite_of_reads (ht : Reads t.toModel.unpack c) (h : Scalar.IsFinite t) :
    Scalar.IsFinite c := by
  have hupper : Reads (Scalar.infinity : Float).toModel.unpack .plusInfinity := .plusInfinity
  have hlower : Reads (-Scalar.infinity : Float).toModel.unpack .minusInfinity := .minusInfinity
  obtain ⟨hlow, hhigh⟩ := h
  exact ⟨(below_eq hlower ht).symm.trans hlow, (below_eq ht hupper).symm.trans hhigh⟩

end floats

/-- Doubles are ordered, although their sums are rounded. -/
instance : Scalar.Ordered Float where
  le_trans {x y z} hxy hyz := by
    obtain ⟨a, ha⟩ := reads_float x
    obtain ⟨b, hb⟩ := reads_float y
    obtain ⟨c, hc⟩ := reads_float z
    have hab : a ≤ b := (atMost_eq ha hb).symm.trans hxy
    have hbc : b ≤ c := (atMost_eq hb hc).symm.trans hyz
    exact (atMost_eq ha hc).trans (Scalar.Ordered.le_trans hab hbc)
  le_total {x y} hx hy := by
    obtain ⟨a, ha⟩ := reads_float x
    obtain ⟨b, hb⟩ := reads_float y
    have htotal := Scalar.Ordered.le_total ((isDefined_iff ha).mp hx) ((isDefined_iff hb).mp hy)
    exact htotal.imp (atMost_eq ha hb).trans (atMost_eq hb ha).trans
  lt_iff_not_le {x y} hx hy := by
    obtain ⟨a, ha⟩ := reads_float x
    obtain ⟨b, hb⟩ := reads_float y
    show Scalar.below x y = true ↔ ¬ Scalar.atMost y x = true
    rw [below_eq ha hb, atMost_eq hb ha]
    exact Scalar.Ordered.lt_iff_not_le ((isDefined_iff ha).mp hx) ((isDefined_iff hb).mp hy)
  defined_add {x t} hx ht := by
    obtain ⟨a, ha⟩ := reads_float x
    obtain ⟨c, hc⟩ := reads_float t
    have hsum := Scalar.Ordered.defined_add ((isDefined_iff ha).mp hx) (isFinite_of_reads hc ht)
    exact (isDefined_iff (reads_add ha hc)).mpr (isDefined_clip_settle hsum)
  defined_sub {x t} hx ht := by
    obtain ⟨a, ha⟩ := reads_float x
    obtain ⟨c, hc⟩ := reads_float t
    have hdifference :=
      Scalar.Ordered.defined_sub ((isDefined_iff ha).mp hx) (isFinite_of_reads hc ht)
    exact (isDefined_iff (reads_sub ha hc)).mpr (isDefined_clip_settle hdifference)
  add_le_add {x y t} ht h := by
    obtain ⟨a, ha⟩ := reads_float x
    obtain ⟨b, hb⟩ := reads_float y
    obtain ⟨c, hc⟩ := reads_float t
    have hab : a ≤ b := (atMost_eq ha hb).symm.trans h
    have hsum := Scalar.Ordered.add_le_add (isFinite_of_reads hc ht) hab
    exact (atMost_eq (reads_add ha hc) (reads_add hb hc)).trans (clip_mono (settle_mono hsum))
  sub_le_sub {x y t} ht h := by
    obtain ⟨a, ha⟩ := reads_float x
    obtain ⟨b, hb⟩ := reads_float y
    obtain ⟨c, hc⟩ := reads_float t
    have hab : a ≤ b := (atMost_eq ha hb).symm.trans h
    have hdifference := Scalar.Ordered.sub_le_sub (isFinite_of_reads hc ht) hab
    exact (atMost_eq (reads_sub ha hc) (reads_sub hb hc)).trans
      (clip_mono (settle_mono hdifference))

end Double

end IntegerProgramming
