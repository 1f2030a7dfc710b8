import IntegerProgramming.Number.Written
import IntegerProgramming.Proofs.Json.Tokens
import IntegerProgramming.Proofs.Number.Double

/-! # Doubles are written as JSON numbers

    JSON does not allow a zero before other digits, nor a point without digits
    on both sides, nor an exponent mark without digits.  A finite double is
    never written so (`isNumber_render`): its digits are those of a number that
    is not zero, hence do not begin with one, and every layout fills up what is
    missing around the point. -/

namespace IntegerProgramming

namespace Json

/-! ## Digits of a number -/

theorem digits_repr (n : Nat) : Digits n.repr.toList := by
  rw [Nat.toList_repr]
  exact ⟨Nat.toDigits_ne_nil, fun c hc => Nat.isDigit_of_mem_toDigits (by decide) (by decide) hc⟩

/-- A number that is not zero does not begin with a zero. -/
theorem head_repr {n : Nat} (hn : n ≠ 0) : n.repr.toList.head? ≠ some '0' := by
  rw [Nat.toList_repr]
  induction n using Nat.strong_induction_on with
  | _ n ih =>
    by_cases hsmall : n < 10
    · rw [Nat.toDigits_of_lt_base hsmall]
      interval_cases n
      · exact absurd rfl hn
      all_goals decide
    · -- A longer number begins as it does without its last digit.
      rw [Nat.toDigits_of_base_le (by decide) (Nat.not_lt.mp hsmall),
        List.head?_append_of_ne_nil _ Nat.toDigits_ne_nil]
      exact ih (n / 10) (by omega) (by omega)

/-- The digits of a number that is not zero. -/
structure Leading (cs : List Char) : Prop where
  digits : Digits cs
  head : cs.head? ≠ some '0'

theorem leading_repr {n : Nat} (hn : n ≠ 0) : Leading n.repr.toList := ⟨digits_repr n, head_repr hn⟩

section leading

variable {cs : List Char}

theorem Leading.whole (h : Leading cs) : Whole cs := by
  cases cs with
  | nil => exact absurd rfl h.digits.1
  | cons c cs =>
    refine .digits ?_ h.digits
    rintro rfl
    exact h.head rfl

theorem Leading.append (h : Leading cs) {ds : List Char} (hds : ∀ c ∈ ds, c.isDigit = true) :
    Leading (cs ++ ds) := by
  refine ⟨⟨List.append_ne_nil_of_left_ne_nil h.digits.1 ds, ?_⟩, ?_⟩
  · intro c hc
    exact (List.mem_append.mp hc).elim (h.digits.2 c) (hds c)
  · rw [List.head?_append_of_ne_nil _ h.digits.1]
    exact h.head

theorem Leading.take (h : Leading cs) {n : Nat} (hn : n ≠ 0) : Leading (cs.take n) := by
  obtain ⟨n, rfl⟩ := Nat.exists_eq_succ_of_ne_zero hn
  cases cs with
  | nil => exact absurd rfl h.digits.1
  | cons c cs =>
    exact ⟨⟨List.cons_ne_nil _ _, fun d hd => h.digits.2 d (List.mem_of_mem_take hd)⟩, h.head⟩

theorem Digits.drop (h : Digits cs) {n : Nat} (hn : n < cs.length) : Digits (cs.drop n) :=
  ⟨fun hnil => absurd (List.drop_eq_nil_iff.mp hnil) (Nat.not_le.mpr hn),
    fun c hc => h.2 c (List.mem_of_mem_drop hc)⟩

end leading

end Json

open Json

theorem toList_zeros (n : Nat) : (Layout.zeros n).toList = List.replicate n '0' :=
  String.toList_ofList

theorem isDigit_of_mem_zeros {n : Nat} {c : Char} (hc : c ∈ List.replicate n '0') :
    c.isDigit = true := by
  rw [(List.mem_replicate.mp hc).2]
  rfl

/-! ## Shortest digits -/

namespace Shortest

/-- The interval of a positive double lies above zero, so zero is not in it. -/
theorem contains_zero {significand : Nat} (hpos : significand ≠ 0) (exponent power : Int) :
    let i := Interval.ofDouble significand exponent
    i.contains (i.grid power) 0 = false := by
  have hlower : 0 < (Interval.ofDouble significand exponent).lower := by
    unfold Interval.ofDouble
    dsimp only
    split_ifs <;> omega
  have hnumerator : 0 < ((Interval.ofDouble significand exponent).grid power).numerator :=
    Nat.mul_pos (Nat.pow_pos (by decide)) (Nat.pow_pos (by decide))
  have hposition := Nat.mul_pos hlower hnumerator
  unfold Interval.contains
  dsimp only
  rw [Nat.zero_mul]
  split_ifs
  · rw [decide_eq_false (Nat.not_le.mpr hposition), Bool.false_and]
  · rw [decide_eq_false (Nat.not_lt_zero _), Bool.false_and]

/-- The point that is picked lies in the interval. -/
theorem contains_of_pick {i : Interval} {g : Grid} {tie : Tie} {d : Nat}
    (h : i.pick g tie = some d) : i.contains g d = true := by
  unfold Interval.pick at h
  dsimp only at h
  split at h
  · rename_i hlow hhigh
    cases h
    unfold Interval.nearer
    split
    · exact hlow
    · exact hhigh
    · split_ifs
      · exact hlow
      · exact hhigh
  · rename_i hlow _
    cases h
    exact hlow
  · rename_i hhigh
    cases h
    exact hhigh
  · cases h

theorem stripZeros_ne_zero {fuel d : Nat} (h : d ≠ 0) : (stripZeros fuel d).1 ≠ 0 := by
  induction fuel generalizing d with
  | zero => exact h
  | succ fuel ih =>
    unfold stripZeros
    split_ifs with hzero
    · exact ih (by omega)
    · exact h

theorem shortest_ne_zero (tie : Tie) {significand : Nat} (hpos : significand ≠ 0)
    (exponent : Int) : (shortest tie significand exponent).1 ≠ 0 := by
  unfold shortest
  refine stripZeros_ne_zero ?_
  dsimp only
  generalize hhit : (List.range mostDigits).findSome? _ = hit
  cases hit with
  | none =>
    -- No grid was fine enough, and the exact decimal is taken.
    exact Nat.mul_ne_zero (Nat.mul_ne_zero hpos (Nat.pow_pos (by decide)).ne')
      (Nat.pow_pos (by decide)).ne'
  | some p =>
    obtain ⟨n, -, hn⟩ := List.exists_of_findSome?_eq_some hhit
    obtain ⟨d, hpick, rfl⟩ := Option.map_eq_some_iff.mp hn
    intro hzero
    have hcontains := contains_of_pick hpick
    rw [show d = 0 from hzero, contains_zero hpos] at hcontains
    cases hcontains

end Shortest

/-! ## Texts -/

namespace Layout

/-- A text that falls into the parts of a number. -/
theorem unsigned_of_parts {text : String} {whole fraction exponent : List Char}
    (htext : text.toList = whole ++ fraction ++ exponent) (hw : Whole whole)
    (hf : Fraction fraction) (he : Exponent exponent) : Unsigned text.toList := by
  rw [htext]
  exact .mk hw hf he

theorem fraction_zero : Fraction ['.', '0'] :=
  .digits ⟨List.cons_ne_nil _ _, fun _ hc => List.mem_singleton.mp hc ▸ rfl⟩

section texts

variable {digits : String} (h : Leading digits.toList)
include h

theorem unsigned_positionalText (keepsFraction : Bool) (point : Int) :
    Unsigned (positionalText keepsFraction digits point).toList := by
  have hfilled := h.append fun c (hc : c ∈ List.replicate (point - digits.length).toNat '0') =>
    isDigit_of_mem_zeros hc
  unfold positionalText
  dsimp only
  split_ifs with hbefore hbehind hkeeps
  · -- The point stands before all digits.
    have hdigits : Digits (List.replicate (-point).toNat '0' ++ digits.toList) :=
      ⟨List.append_ne_nil_of_right_ne_nil _ h.digits.1, fun c hc =>
        (List.mem_append.mp hc).elim isDigit_of_mem_zeros (h.digits.2 c)⟩
    refine unsigned_of_parts ?_ .zero (.digits hdigits) .none
    rw [String.toList_append, String.toList_append, toList_zeros, List.append_assoc,
      List.append_nil]
    rfl
  · -- It stands behind all digits.
    refine unsigned_of_parts ?_ hfilled.whole fraction_zero .none
    rw [String.toList_append, String.toList_append, toList_zeros, List.append_nil]
    rfl
  · refine unsigned_of_parts ?_ hfilled.whole .none .none
    rw [String.toList_append, String.toList_append, toList_zeros, List.append_nil, List.append_nil]
    exact List.append_nil _
  · -- It stands between two of them.
    have hlength : point.toNat ≠ 0 ∧ point.toNat < digits.toList.length := by
      rw [String.length_toList]
      omega
    refine unsigned_of_parts ?_ (h.take hlength.1).whole (.digits (h.digits.drop hlength.2)) .none
    simp only [String.toList_append, String.toList_ofList, List.append_assoc, List.append_nil]
    rfl

theorem unsigned_exponentText (point : Int) :
    Unsigned (exponentText true digits point).toList := by
  have hfraction : Fraction (if digits.toList.length ≤ 1 then "" else
      "." ++ String.ofList (digits.toList.drop 1)).toList := by
    split_ifs with hlength
    · exact .none
    · rw [String.toList_append, String.toList_ofList, String.toList_ofList]
      exact .digits (h.digits.drop (Nat.not_le.mp hlength))
  have hexponent : Exponent ("e" ++ (if point - 1 < 0 then "-" else if true then "+" else "") ++
      (point - 1).natAbs.repr).toList := by
    rw [String.toList_append, String.toList_append]
    by_cases hnegative : point - 1 < 0
    · rw [if_pos hnegative]
      exact .minus (digits_repr _)
    · rw [if_neg hnegative, if_pos rfl]
      exact .plus (digits_repr _)
  refine unsigned_of_parts ?_ (h.take Nat.one_ne_zero).whole hfraction hexponent
  unfold exponentText
  simp only [String.toList_append, String.toList_ofList, List.append_assoc]

end texts

theorem unsigned_magnitude {l : Layout} (hl : l.plusSign = true) (significand : Nat)
    (exponent : Int) : Unsigned (l.magnitude significand exponent).toList := by
  unfold magnitude
  split_ifs with hzero hfraction
  · exact .mk .zero fraction_zero .none
  · exact .mk .zero .none .none
  · have hdigits := leading_repr (Shortest.shortest_ne_zero l.tie hzero exponent)
    dsimp only
    split
    · exact unsigned_positionalText hdigits _ _
    · split_ifs
      · exact unsigned_positionalText hdigits _ _
      · rw [hl]
        exact unsigned_exponentText hdigits _

/-! ## Doubles -/

open Float.Model Float.Model.UnpackedFloat

theorem toNat_unpackExponent (b : BitVec Format.binary64.numBits) :
    (unpackExponent b).toNat = b.toNat / Binary64.fractionRange % Binary64.exponentRange := by
  show (BitVec.extractLsb 62 52 b).toNat = _
  rw [BitVec.extractLsb_toNat, Nat.shiftRight_eq_div_pow]
  rfl

/-- The largest exponent field does not belong to a finite double. -/
theorem exponent_of_isFinite {x : Float} (h : Scalar.IsFinite x) :
    x.toBits.toNat / Binary64.fractionRange % Binary64.exponentRange ≠
      Binary64.exponentRange - 1 := by
  intro hlargest
  obtain ⟨a, ha⟩ := Double.reads_float x
  have hfinite := Double.isFinite_of_reads ha h
  obtain ⟨⟨⟨b⟩, hvalid⟩⟩ := x
  change BitVec Format.binary64.numBits at b
  have hones : unpackExponent b = -1#11 :=
    BitVec.eq_of_toNat_eq ((toNat_unpackExponent b).trans hlargest)
  have hread : Double.Reads (UnpackedFloat.unpack .binary64 b) a := ha
  unfold UnpackedFloat.unpack at hread
  dsimp only at hread
  rw [if_pos hones] at hread
  -- Neither infinity is finite, nor is an undefined number.
  split_ifs at hread
  · generalize Sign.ofBitVec (unpackSign b) = s at hread
    cases hread with
    | plusInfinity => exact absurd hfinite (by decide)
    | minusInfinity => exact absurd hfinite (by decide)
  · cases hread
    exact absurd hfinite (by decide)

theorem ofFloat_of_isFinite {x : Float} (h : Scalar.IsFinite x) :
    ∃ negative significand exponent,
      Binary64.ofFloat x = .finite negative significand exponent := by
  unfold Binary64.ofFloat Binary64.ofBits
  dsimp only
  rw [if_neg (exponent_of_isFinite h)]
  split_ifs
  · exact ⟨_, _, _, rfl⟩
  · exact ⟨_, _, _, rfl⟩

/-- A finite double is written as a JSON number. -/
theorem isNumber_render {l : Layout} (hl : l.plusSign = true) {x : Float}
    (h : Scalar.IsFinite x) : IsNumber (l.render x).toList := by
  obtain ⟨negative, significand, exponent, hx⟩ := ofFloat_of_isFinite h
  have hmagnitude := unsigned_magnitude hl significand exponent
  unfold render
  rw [hx]
  dsimp only
  rw [String.toList_append]
  cases negative with
  | false => exact .positive hmagnitude
  | true => exact .negative hmagnitude

end Layout

end IntegerProgramming
