import IntegerProgramming.Proofs.Number.Rational

/-! # Rounding to doubles

    Every finite double is a whole multiple of the smallest one, so rounding to
    doubles is a function on whole numbers: all but the leading 53 bits are
    dropped, towards the nearest multiple and on a tie towards the even one.
    It is monotone (`rounded_mono`), also across the powers of two where the
    number of dropped bits changes, and numbers that need no more bits stay
    what they are (`rounded_eq`).

    Lean's floating-point model rounds by shifting a mantissa bit by bit.
    What it arrives at, read as an exact number (`Reads`), is that function
    (`normalize_reads`). -/

namespace IntegerProgramming

namespace Double

open Exact Float.Model Float.Model.UnpackedFloat

/-! ## The nearest multiple -/

/-- The quotient by a power of two, rounded to the nearest whole number and
    on a tie to the even one. -/
def nearestEven (n k : ℕ) : ℕ :=
  if 2 * (n % 2 ^ k) < 2 ^ k then n / 2 ^ k
  else if 2 * (n % 2 ^ k) = 2 ^ k then n / 2 ^ k + n / 2 ^ k % 2
  else n / 2 ^ k + 1

theorem div_le_nearestEven (n k : ℕ) : n / 2 ^ k ≤ nearestEven n k := by
  unfold nearestEven
  split_ifs <;> omega

theorem nearestEven_le_succ (n k : ℕ) : nearestEven n k ≤ n / 2 ^ k + 1 := by
  unfold nearestEven
  split_ifs <;> omega

@[simp] theorem nearestEven_zero_right (n : ℕ) : nearestEven n 0 = n := by
  simp [nearestEven, Nat.mod_one]

theorem nearestEven_mono {a b : ℕ} (k : ℕ) (h : a ≤ b) : nearestEven a k ≤ nearestEven b k := by
  rcases Nat.eq_or_lt_of_le (Nat.div_le_div_right h : a / 2 ^ k ≤ b / 2 ^ k) with heq | hlt
  · -- With the same quotient the remainders decide.
    have hmod : a % 2 ^ k ≤ b % 2 ^ k := by
      have ha := Nat.div_add_mod a (2 ^ k)
      have hb := Nat.div_add_mod b (2 ^ k)
      rw [heq] at ha
      omega
    unfold nearestEven
    rw [heq]
    split_ifs <;> omega
  · calc nearestEven a k ≤ a / 2 ^ k + 1 := nearestEven_le_succ a k
      _ ≤ b / 2 ^ k := hlt
      _ ≤ nearestEven b k := div_le_nearestEven b k

/-- A common power of two may be left out. -/
theorem nearestEven_mul (n k j : ℕ) : nearestEven (n * 2 ^ j) (k + j) = nearestEven n k := by
  have hpos : 0 < 2 ^ j := Nat.two_pow_pos j
  have hquotient : n * 2 ^ j / 2 ^ (k + j) = n / 2 ^ k := by
    rw [pow_add, Nat.mul_div_mul_right _ _ hpos]
  have hremainder : n * 2 ^ j % 2 ^ (k + j) = n % 2 ^ k * 2 ^ j := by
    rw [pow_add, Nat.mul_mod_mul_right]
  have hlt : 2 * (n % 2 ^ k * 2 ^ j) < 2 ^ (k + j) ↔ 2 * (n % 2 ^ k) < 2 ^ k := by
    rw [pow_add, ← mul_assoc, Nat.mul_lt_mul_right hpos]
  have heq : 2 * (n % 2 ^ k * 2 ^ j) = 2 ^ (k + j) ↔ 2 * (n % 2 ^ k) = 2 ^ k := by
    rw [pow_add, ← mul_assoc, Nat.mul_left_inj hpos.ne']
  unfold nearestEven
  rw [hquotient, hremainder]
  simp only [hlt, heq]

/-! ## Rounding to 53 bits -/

theorem log2_mul_two_pow {m : ℕ} (hm : m ≠ 0) (k : ℕ) : (m * 2 ^ k).log2 = m.log2 + k := by
  have hne : m * 2 ^ k ≠ 0 := Nat.mul_ne_zero hm (Nat.two_pow_pos k).ne'
  rw [Nat.log2_eq_iff hne, pow_add, Nat.add_right_comm, pow_add]
  exact ⟨Nat.mul_le_mul_right _ (Nat.log2_self_le hm),
    Nat.mul_lt_mul_of_pos_right Nat.lt_log2_self (Nat.two_pow_pos k)⟩

/-- The number of bits beyond the leading 53. -/
def excess (n : ℕ) : ℕ := n.log2 - 52

/-- The number with 53 leading bits that is nearest. -/
def rounded (n : ℕ) : ℕ := nearestEven n (excess n) * 2 ^ excess n

theorem nearestEven_excess_le (n : ℕ) : nearestEven n (excess n) ≤ 2 ^ 53 := by
  have hn : n < 2 ^ 53 * 2 ^ excess n := by
    rw [← pow_add]
    calc n < 2 ^ (n.log2 + 1) := Nat.lt_log2_self
      _ ≤ 2 ^ (53 + excess n) := Nat.pow_le_pow_right two_pos (by unfold excess; omega)
  have hquotient : n / 2 ^ excess n < 2 ^ 53 := (Nat.div_lt_iff_lt_mul (Nat.two_pow_pos _)).mpr hn
  exact (nearestEven_le_succ _ _).trans hquotient

/-- If bits are dropped, the 53 that are left begin with a one. -/
theorem le_nearestEven_excess {n : ℕ} (h : 0 < excess n) : 2 ^ 52 ≤ nearestEven n (excess n) := by
  have hlog : 52 + excess n = n.log2 := by
    unfold excess at h ⊢
    omega
  have hne : n ≠ 0 := by
    rintro rfl
    exact absurd h (Nat.lt_irrefl 0)
  refine le_trans ?_ (div_le_nearestEven n (excess n))
  rw [Nat.le_div_iff_mul_le (Nat.two_pow_pos _), ← pow_add, hlog]
  exact Nat.log2_self_le hne

theorem nearestEven_excess_ne_zero {n : ℕ} (h : n ≠ 0) : nearestEven n (excess n) ≠ 0 := by
  rcases Nat.eq_zero_or_pos (excess n) with hzero | hpos
  · rwa [hzero, nearestEven_zero_right]
  · have hle := le_nearestEven_excess hpos
    omega

theorem rounded_mono {a b : ℕ} (h : a ≤ b) : rounded a ≤ rounded b := by
  have hlog : a.log2 ≤ b.log2 := by
    by_cases ha : a = 0
    · rw [ha]
      exact Nat.zero_le _
    · rw [Nat.le_log2 (by omega)]
      exact (Nat.log2_self_le ha).trans h
  by_cases heq : excess a = excess b
  · unfold rounded
    rw [heq]
    exact Nat.mul_le_mul_right _ (nearestEven_mono _ h)
  · -- Otherwise a power of two lies between them, and both results keep to its sides.
    have hlt : excess a + 1 ≤ excess b := by
      unfold excess at heq ⊢
      omega
    calc rounded a ≤ 2 ^ 53 * 2 ^ excess a := Nat.mul_le_mul_right _ (nearestEven_excess_le a)
      _ = 2 ^ 52 * 2 ^ (excess a + 1) := by rw [← pow_add, ← pow_add]; congr 1; omega
      _ ≤ 2 ^ 52 * 2 ^ excess b := Nat.mul_le_mul_left _ (Nat.pow_le_pow_right two_pos hlt)
      _ ≤ rounded b := Nat.mul_le_mul_right _ (le_nearestEven_excess (by omega))

/-- Numbers of 53 bits are not rounded. -/
theorem rounded_eq {m k : ℕ} (hm : m < 2 ^ 53) (hk : 2 ^ 52 ≤ m ∨ k = 0) :
    rounded (m * 2 ^ k) = m * 2 ^ k := by
  by_cases hzero : m = 0
  · subst hzero
    simp [rounded, nearestEven]
  have hlog : (m * 2 ^ k).log2 = m.log2 + k := log2_mul_two_pow hzero k
  have hbound : m.log2 < 53 := (Nat.log2_lt hzero).mpr hm
  have hexcess : excess (m * 2 ^ k) = k := by
    unfold excess
    rw [hlog]
    rcases hk with hk | rfl
    · have hle := (Nat.le_log2 hzero).mpr hk
      omega
    · omega
  have hnearest : nearestEven (m * 2 ^ k) k = m := by
    have h := nearestEven_mul m 0 k
    rwa [zero_add, nearestEven_zero_right] at h
  unfold rounded
  rw [hexcess, hnearest]

/-- Rounding does not look at the sign. -/
def roundedInt (z : ℤ) : ℤ := z.sign * rounded z.natAbs

@[simp] theorem rounded_zero : rounded 0 = 0 := by
  simp [rounded, nearestEven]

theorem roundedInt_natCast (n : ℕ) : roundedInt n = rounded n := by
  unfold roundedInt
  by_cases hn : n = 0
  · simp [hn]
  · rw [Int.sign_natCast_of_ne_zero hn, one_mul, Int.natAbs_natCast]

theorem roundedInt_neg (z : ℤ) : roundedInt (-z) = -roundedInt z := by
  unfold roundedInt
  rw [Int.sign_neg, Int.natAbs_neg, neg_mul]

theorem roundedInt_mono {a b : ℤ} (h : a ≤ b) : roundedInt a ≤ roundedInt b := by
  rcases Int.eq_nat_or_neg a with ⟨m, rfl | rfl⟩ <;> rcases Int.eq_nat_or_neg b with ⟨n, rfl | rfl⟩
  · rw [roundedInt_natCast, roundedInt_natCast]
    exact_mod_cast rounded_mono (by omega : m ≤ n)
  · obtain ⟨rfl, rfl⟩ : m = 0 ∧ n = 0 := by omega
    rfl
  · rw [roundedInt_neg, roundedInt_natCast, roundedInt_natCast]
    omega
  · rw [roundedInt_neg, roundedInt_neg, roundedInt_natCast, roundedInt_natCast, neg_le_neg_iff]
    exact_mod_cast rounded_mono (by omega : n ≤ m)

/-! ## Reading doubles -/

/-- The unpacked double is in canonical form and stands for the number, counted
    in the smallest double. -/
inductive Reads : UnpackedFloat → Exact → Prop where
  | undefined : Reads .notANumber .undefined
  | plusInfinity : Reads (.infinity .positive) .plusInfinity
  | minusInfinity : Reads (.infinity .negative) .minusInfinity
  | zero (s : Sign) : Reads (.zero s) (rational 0)
  | finite (s : Sign) {m k : ℕ} (hpos : 0 < m) (hm : m < 2 ^ 53) (hk : 2 ^ 52 ≤ m ∨ k = 0) :
      Reads (.finite s m (k - 1074) hpos) (rational (s.apply (m * 2 ^ k : ℕ)))

theorem cast_apply_positive (n : ℕ) : ((Sign.positive.apply n : ℤ) : ℚ) = n := Int.cast_natCast n

theorem cast_apply_negative (n : ℕ) : ((Sign.negative.apply n : ℤ) : ℚ) = -n := by
  show ((-(n : ℤ) : ℤ) : ℚ) = -n
  rw [Int.cast_neg, Int.cast_natCast]

/-! ## Rounding in the floating-point model -/

/-- The bits that a shift drops are remembered as far as rounding needs them. -/
theorem shiftRight_exact (m k : ℕ) :
    (⟨m, false, false⟩ : ExtendedMantissa) >>> k =
      ⟨m / 2 ^ k, decide (2 ^ k ≤ 2 * (m % 2 ^ k)),
        decide (m % 2 ^ k ≠ 0 ∧ 2 * (m % 2 ^ k) ≠ 2 ^ k)⟩ := by
  show Nat.repeat ExtendedMantissa.shiftRightOne k ⟨m, false, false⟩ = _
  induction k with
  | zero => simp [Nat.repeat, Nat.mod_one]
  | succ k ih =>
    have hpos : 0 < 2 ^ k := Nat.two_pow_pos k
    have hlt : m % 2 ^ k < 2 ^ k := Nat.mod_lt _ hpos
    have hmod : m % 2 ^ (k + 1) = m % 2 ^ k + 2 ^ k * (m / 2 ^ k % 2) := by
      rw [pow_succ, Nat.mod_mul]
    have hdiv : m / 2 ^ (k + 1) = m / 2 ^ k / 2 := by
      rw [pow_succ, Nat.div_div_eq_div_mul]
    rw [Nat.repeat, ih]
    unfold ExtendedMantissa.shiftRightOne
    rw [hmod, hdiv, pow_succ]
    rcases Nat.mod_two_eq_zero_or_one (m / 2 ^ k) with hbit | hbit
    · simp only [hbit, ExtendedMantissa.mk.injEq, true_and, mul_zero, add_zero]
      constructor
      · simp
        omega
      · rw [← Bool.decide_or, decide_eq_decide]
        omega
    · simp only [hbit, ExtendedMantissa.mk.injEq, true_and, mul_one]
      constructor
      · simp
        omega
      · rw [← Bool.decide_or, decide_eq_decide]
        omega

theorem roundedMantissa_shiftRight (m k : ℕ) :
    ((⟨m, false, false⟩ : ExtendedMantissa) >>> k).roundedMantissa = nearestEven m k := by
  rw [shiftRight_exact]
  unfold ExtendedMantissa.roundedMantissa nearestEven
  have hpos : 0 < 2 ^ k := Nat.two_pow_pos k
  by_cases hlt : 2 * (m % 2 ^ k) < 2 ^ k
  · rw [if_pos hlt, decide_eq_false (by omega : ¬ 2 ^ k ≤ 2 * (m % 2 ^ k))]
    cases decide (m % 2 ^ k ≠ 0 ∧ 2 * (m % 2 ^ k) ≠ 2 ^ k) <;> rfl
  · rw [if_neg hlt, decide_eq_true (by omega : 2 ^ k ≤ 2 * (m % 2 ^ k))]
    by_cases heq : 2 * (m % 2 ^ k) = 2 ^ k
    · rw [if_pos heq, decide_eq_false (by omega)]
      rfl
    · rw [if_neg heq, decide_eq_true (by omega)]
      rfl

/-- A mantissa is shifted until it has no bits in excess. -/
theorem targetExponent_eq {m : ℕ} (hm : m ≠ 0) (i : ℕ) :
    Format.binary64.targetExponent (totalExponent m (i - 1074)) =
      (excess (m * 2 ^ i) : ℤ) - 1074 := by
  have htarget : Format.binary64.targetExponent (totalExponent m (i - 1074)) =
      max ((m.log2 : ℤ) + i - 1126) (-1074) := by
    simp only [Format.targetExponent, totalExponent, Format.mantissaBits, Format.minExponent]
    norm_num
    omega
  unfold excess
  rw [htarget, log2_mul_two_pow hm]
  omega

theorem shiftToTargetExponent_eq {m : ℕ} (hm : m ≠ 0) (i : ℕ) :
    shiftToTargetExponent .binary64 m (i - 1074) .exact =
      ((⟨m, false, false⟩ : ExtendedMantissa) >>> (excess (m * 2 ^ i) - i),
        ((max i (excess (m * 2 ^ i)) : ℕ) : ℤ) - 1074) := by
  have hshift : ((excess (m * 2 ^ i) : ℤ) - 1074 - (i - 1074)).toNat = excess (m * 2 ^ i) - i := by
    omega
  unfold shiftToTargetExponent shiftToExponent
  dsimp only
  rw [targetExponent_eq hm, hshift]
  refine Prod.ext rfl ?_
  show (i : ℤ) - 1074 + ((excess (m * 2 ^ i) - i : ℕ) : ℤ) = _
  omega

/-- Rounding may carry into a 54th bit, which is shifted out again. -/
theorem carry {r n : ℕ} (hzero : r ≠ 0) (hr : r ≤ 2 ^ 53) (hn : 2 ^ 52 ≤ r ∨ n = 0) :
    r / 2 ^ (excess (r * 2 ^ n) - n) * 2 ^ max n (excess (r * 2 ^ n)) = r * 2 ^ n ∧
      r / 2 ^ (excess (r * 2 ^ n) - n) < 2 ^ 53 ∧
      (2 ^ 52 ≤ r / 2 ^ (excess (r * 2 ^ n) - n) ∨ max n (excess (r * 2 ^ n)) = 0) := by
  rcases Nat.lt_or_eq_of_le hr with hlt | rfl
  · have hexcess : excess (r * 2 ^ n) ≤ n := by
      have hlog := (Nat.log2_lt hzero).mpr hlt
      unfold excess
      rw [log2_mul_two_pow hzero]
      omega
    rw [Nat.sub_eq_zero_of_le hexcess, max_eq_left hexcess, pow_zero, Nat.div_one]
    exact ⟨rfl, hlt, hn⟩
  · have hexcess : excess (2 ^ 53 * 2 ^ n) = n + 1 := by
      unfold excess
      rw [log2_mul_two_pow hzero, Nat.log2_two_pow]
      omega
    rw [hexcess, Nat.add_sub_cancel_left, max_eq_right (Nat.le_succ n)]
    refine ⟨?_, by norm_num, .inl (by norm_num)⟩
    rw [pow_succ 2 n]
    ring

/-- Rounding a number without bits below the ones to be dropped. -/
theorem roundWithAccuracy_reads (s : Sign) {m i : ℕ} (hm : m ≠ 0)
    (hi : i ≤ excess (m * 2 ^ i)) :
    Reads (roundWithAccuracy .binary64 s m (i - 1074) .exact)
      (rational (s.apply (rounded (m * 2 ^ i) : ℕ))) := by
  have hnearest : nearestEven m (excess (m * 2 ^ i) - i) =
      nearestEven (m * 2 ^ i) (excess (m * 2 ^ i)) := by
    have h := nearestEven_mul m (excess (m * 2 ^ i) - i) i
    rwa [Nat.sub_add_cancel hi, eq_comm] at h
  have hne : nearestEven (m * 2 ^ i) (excess (m * 2 ^ i)) ≠ 0 :=
    nearestEven_excess_ne_zero (Nat.mul_ne_zero hm (Nat.two_pow_pos i).ne')
  have hnormal : 2 ^ 52 ≤ nearestEven (m * 2 ^ i) (excess (m * 2 ^ i)) ∨
      excess (m * 2 ^ i) = 0 := by
    rcases Nat.eq_zero_or_pos (excess (m * 2 ^ i)) with hzero | hpos
    · exact .inr hzero
    · exact .inl (le_nearestEven_excess hpos)
  obtain ⟨hvalue, hbound, hcanonical⟩ := carry hne (nearestEven_excess_le (m * 2 ^ i)) hnormal
  -- One shift drops the bits in excess, a second one drops the carry.
  unfold roundWithAccuracy
  rw [shiftToTargetExponent_eq hm]
  dsimp only
  rw [roundedMantissa_shiftRight, hnearest, max_eq_right hi, shiftToTargetExponent_eq hne]
  dsimp only
  rw [shiftRight_exact]
  dsimp only
  unfold rounded
  generalize nearestEven (m * 2 ^ i) (excess (m * 2 ^ i)) = r at *
  have hpos : 0 < r / 2 ^ (excess (r * 2 ^ excess (m * 2 ^ i)) - excess (m * 2 ^ i)) := by
    by_contra hzero
    rw [Nat.eq_zero_of_not_pos hzero, zero_mul, eq_comm, Nat.mul_eq_zero] at hvalue
    exact hvalue.elim hne (Nat.two_pow_pos _).ne'
  have hreads := Reads.finite s hpos hbound hcanonical
  rw [hvalue] at hreads
  rw [dif_neg hpos.ne']
  exact hreads

theorem round_reads (s : Sign) {m : ℕ} (hm : m ≠ 0) (j : ℕ) :
    Reads (UnpackedFloat.round .binary64 s m (j - 1074))
      (rational (s.apply (rounded (m * 2 ^ j) : ℕ))) := by
  -- First the mantissa gets as many bits as the format has.
  have hshift : ((j : ℤ) - 1074 - (excess (m * 2 ^ j) - 1074)).toNat = j - excess (m * 2 ^ j) := by
    omega
  have hexponent : (j : ℤ) - 1074 - (j - excess (m * 2 ^ j) : ℕ) =
      (min j (excess (m * 2 ^ j)) : ℕ) - 1074 := by
    omega
  have hvalue : m * 2 ^ (j - excess (m * 2 ^ j)) * 2 ^ min j (excess (m * 2 ^ j)) = m * 2 ^ j := by
    rw [mul_assoc, ← pow_add]
    congr 2
    omega
  have hne : m * 2 ^ (j - excess (m * 2 ^ j)) ≠ 0 := Nat.mul_ne_zero hm (Nat.two_pow_pos _).ne'
  unfold UnpackedFloat.round decreaseExponent
  dsimp only
  rw [targetExponent_eq hm, hshift, Nat.shiftLeft_eq, hexponent]
  have hreads := roundWithAccuracy_reads s (i := min j (excess (m * 2 ^ j))) hne
    (by rw [hvalue]; exact min_le_right _ _)
  rwa [hvalue] at hreads

theorem normalize_reads (z : ℤ) (j : ℕ) (zeroSign : Sign) :
    Reads (UnpackedFloat.normalize .binary64 z (j - 1074) zeroSign)
      (rational (roundedInt (z * 2 ^ j))) := by
  unfold UnpackedFloat.normalize
  rcases lt_trichotomy z 0 with hneg | rfl | hpos
  · have hm : (-z).toNat ≠ 0 := by omega
    have hz : z * 2 ^ j = -(((-z).toNat * 2 ^ j : ℕ) : ℤ) := by
      rw [Nat.cast_mul, Nat.cast_pow, Int.toNat_of_nonneg (by omega), Nat.cast_ofNat]
      ring
    rw [compare_lt_iff_lt.mpr hneg, hz, roundedInt_neg, roundedInt_natCast]
    exact round_reads .negative hm j
  · rw [zero_mul]
    exact .zero zeroSign
  · have hm : z.toNat ≠ 0 := by omega
    have hz : z * 2 ^ j = ((z.toNat * 2 ^ j : ℕ) : ℤ) := by
      rw [Nat.cast_mul, Nat.cast_pow, Int.toNat_of_nonneg hpos.le, Nat.cast_ofNat]
    rw [compare_gt_iff_gt.mpr hpos, hz, roundedInt_natCast]
    exact round_reads .positive hm j

end Double

end IntegerProgramming
