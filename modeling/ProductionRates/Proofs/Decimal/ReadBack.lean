import Mathlib
import ProductionRates.Decimal.Numeral
import ProductionRates.Proofs.Decimal.Exact
import ProductionRates.Proofs.Decimal.Shortest

/-!
# A numeral that rounds to a double reads as it

The exact value of a finite double decides its bits, and its bits decide the double.  So a numeral
in the interval of a double reads as that very double.

* `Exact.fits`, `toNat_toBits` — the bits of a finite double, by its exact value;
* `eq_of_ofFloat`, `neg_eq_of_ofFloat` — doubles by their exact values;
* `Numeral.toFloat_eq` — the double of a numeral.
-/

namespace ProductionRates
namespace Decimal

open Float.Model (UnpackedFloat)
open Float.Model.UnpackedFloat (Sign)

variable {x y : Float} {negative : Bool} {mantissa : ℕ} {exponent : ℤ}

/-! ## Bits -/

/-- The fields of a finite double. -/
theorem fields_of_ofFloat (h : Exact.ofFloat x = .finite negative mantissa exponent) :
    ∃ biased fraction : ℕ, biased < 2047 ∧ fraction < 2 ^ 52 ∧
      x.toBits.toNat = (if negative then 2 ^ 63 else 0) + biased * 2 ^ 52 + fraction ∧
      ((biased = 0 ∧ mantissa = fraction ∧ exponent = leastExponent) ∨
        (0 < biased ∧ mantissa = fraction + 2 ^ 52 ∧ exponent = biased + leastExponent - 1)) := by
  have hlt : x.toBits.toNat < 2 ^ 64 := x.toBits.toBitVec.isLt
  unfold Exact.ofFloat at h
  simp only [Nat.pow_eq] at h
  generalize x.toBits.toNat = bits at *
  have hsplit : bits = (if 2 ^ 63 ≤ bits then 2 ^ 63 else 0) + bits / 2 ^ 52 % 2 ^ 11 * 2 ^ 52 +
      bits % 2 ^ 52 := by
    split <;> omega
  have hbiased : bits / 2 ^ 52 % 2 ^ 11 < 2 ^ 11 := Nat.mod_lt _ (by norm_num)
  have hfraction : bits % 2 ^ 52 < 2 ^ 52 := Nat.mod_lt _ (by norm_num)
  refine ⟨bits / 2 ^ 52 % 2 ^ 11, bits % 2 ^ 52, ?_, hfraction, ?_⟩
  · by_contra hlarge
    have hall : bits / 2 ^ 52 % 2 ^ 11 = 2047 := by omega
    rw [if_pos hall] at h
    split at h <;> cases h
  · have hnot : ¬ bits / 2 ^ 52 % 2 ^ 11 = 2047 := by
      intro hall
      rw [if_pos hall] at h
      split at h <;> cases h
    rw [if_neg hnot] at h
    by_cases hzero : bits / 2 ^ 52 % 2 ^ 11 = 0
    · rw [if_pos hzero] at h
      cases h
      refine ⟨?_, .inl ⟨hzero, rfl, rfl⟩⟩
      simpa using hsplit
    · rw [if_neg hzero] at h
      cases h
      refine ⟨?_, .inr ⟨Nat.pos_of_ne_zero hzero, rfl, rfl⟩⟩
      simpa using hsplit

/-- The mantissa and the exponent of a finite double are those that doubles have. -/
theorem Exact.fits (h : Exact.ofFloat x = .finite negative mantissa exponent) :
    Fits mantissa exponent := by
  obtain ⟨biased, fraction, hbiased, hfraction, -, hcases⟩ := fields_of_ofFloat h
  have hleast : leastExponent = -1074 := rfl
  constructor <;> omega

/-- The bits of a finite double. -/
theorem toNat_toBits (h : Exact.ofFloat x = .finite negative mantissa exponent) :
    x.toBits.toNat = (if negative then 2 ^ 63 else 0) +
      ((exponent - leastExponent).toNat * 2 ^ 52 + mantissa) := by
  obtain ⟨biased, fraction, hbiased, hfraction, hbits, hcases⟩ := fields_of_ofFloat h
  have hleast : leastExponent = -1074 := rfl
  rw [hbits]
  generalize (if negative = true then 2 ^ 63 else 0) = sign
  omega

/-- Two finite doubles with one exact value are one double. -/
theorem eq_of_ofFloat (hx : Exact.ofFloat x = .finite negative mantissa exponent)
    (hy : Exact.ofFloat y = .finite negative mantissa exponent) : x = y := by
  rw [← Float.toBits_inj, ← UInt64.toNat_inj, toNat_toBits hx, toNat_toBits hy]

/-- The exact value of a double, by its bits. -/
theorem ofFloat_of_toBits (hfits : Fits mantissa exponent)
    (h : x.toBits.toNat = (if negative then 2 ^ 63 else 0) +
      ((exponent - leastExponent).toNat * 2 ^ 52 + mantissa)) :
    Exact.ofFloat x = .finite negative mantissa exponent := by
  obtain ⟨hlt, hleast, hgreatest, hnormal⟩ := hfits
  have hconst : leastExponent = -1074 := rfl
  unfold Exact.ofFloat
  simp only [Nat.pow_eq]
  generalize x.toBits.toNat = bits at *
  have hsign : decide (2 ^ 63 ≤ bits) = negative := by
    cases negative with
    | false =>
      rw [if_neg Bool.false_ne_true] at h
      exact decide_eq_false (by omega)
    | true =>
      rw [if_pos rfl] at h
      exact decide_eq_true (by omega)
  have hpart : (if negative = true then 2 ^ 63 else 0) = 0 ∨
      (if negative = true then 2 ^ 63 else 0) = 2 ^ 63 := by
    cases negative
    · exact .inl rfl
    · exact .inr rfl
  generalize (if negative = true then 2 ^ 63 else 0) = sign at *
  rw [hsign]
  by_cases hsubnormal : mantissa < 2 ^ 52
  · have hexponent : exponent = leastExponent := by omega
    have hbiased : bits / 2 ^ 52 % 2 ^ 11 = 0 := by omega
    have hfraction : bits % 2 ^ 52 = mantissa := by omega
    rw [if_neg (by omega), if_pos hbiased, hfraction, hexponent]
  · have hbiased : bits / 2 ^ 52 % 2 ^ 11 = (exponent - leastExponent).toNat + 1 := by omega
    have hfraction : bits % 2 ^ 52 + 2 ^ 52 = mantissa := by omega
    rw [if_neg (by omega), if_neg (by omega), hfraction, hbiased]
    congr 1
    omega

/-- The bits of a double that is made of bits, unless all exponent bits are set. -/
theorem toBits_ofBits {bits : UInt64} (h : bits.toNat / 2 ^ 52 % 2 ^ 11 ≠ 2047) :
    (Float.ofBits bits).toBits = bits := by
  have hexponent : @UnpackedFloat.unpackExponent .binary64 bits.toBitVec ≠ -1#_ := by
    rw [Ne, unpackExponent_eq_iff bits.toBitVec (-1#_)]
    exact h
  have hpack := @UnpackedFloat.pack_unpack .binary64 bits.toBitVec (by decide)
  have hnumber : @UnpackedFloat.isNaNBits .binary64 bits.toBitVec = false := by
    rw [UnpackedFloat.isNaNBits]
    exact decide_eq_false fun hboth => hexponent hboth.1
  rw [hnumber, if_neg Bool.false_ne_true] at hpack
  exact UInt64.toBitVec_inj.1 hpack

/-! ## Signs -/

theorem eq_neg_of_isNegative {a b : Sign} (h : isNegative a = !isNegative b) : a = -b := by
  cases a <;> cases b <;> first | rfl | cases h

/-- An unpacked double that differs from another in its sign alone is its negative. -/
theorem eq_neg_of_ofUnpacked {a b : UnpackedFloat}
    (ha : Exact.ofUnpacked a = .finite (!negative) mantissa exponent)
    (hb : Exact.ofUnpacked b = .finite negative mantissa exponent) : a = b.neg := by
  cases a with
  | notANumber => cases ha
  | infinity sign => cases ha
  | zero sign =>
    rw [Exact.ofUnpacked_zero, Exact.finite.injEq] at ha
    obtain ⟨hsign, rfl, rfl⟩ := ha
    cases b with
    | notANumber => cases hb
    | infinity other => cases hb
    | zero other =>
      rw [Exact.ofUnpacked_zero, Exact.finite.injEq] at hb
      rw [← hb.1] at hsign
      rw [UnpackedFloat.neg, eq_neg_of_isNegative hsign]
    | finite other significand place hpos =>
      rw [Exact.ofUnpacked_finite, Exact.finite.injEq] at hb
      exact absurd hb.2.1 hpos.ne'
  | finite sign significand place hpos =>
    rw [Exact.ofUnpacked_finite, Exact.finite.injEq] at ha
    obtain ⟨hsign, rfl, rfl⟩ := ha
    cases b with
    | notANumber => cases hb
    | infinity other => cases hb
    | zero other =>
      rw [Exact.ofUnpacked_zero, Exact.finite.injEq] at hb
      exact absurd hb.2.1.symm hpos.ne'
    | finite other significand' place' hpos' =>
      rw [Exact.ofUnpacked_finite, Exact.finite.injEq] at hb
      obtain ⟨hother, rfl, rfl⟩ := hb
      rw [← hother] at hsign
      rw [UnpackedFloat.neg, eq_neg_of_isNegative hsign]

/-- A finite double that differs from another in its sign alone is its negative. -/
theorem neg_eq_of_ofFloat (hx : Exact.ofFloat x = .finite (!negative) mantissa exponent)
    (hy : Exact.ofFloat y = .finite negative mantissa exponent) : -y = x := by
  rw [Exact.ofFloat_eq] at hx hy
  have hunpack : x.toModel.unpack = y.toModel.unpack.neg := eq_neg_of_ofUnpacked hx hy
  rw [← Float.toBits_inj, ← UInt64.toBitVec_inj]
  show UnpackedFloat.pack Float.Model.Format.binary64 y.toModel.unpack.neg = _
  rw [← hunpack]
  exact UnpackedFloat.pack_unpack_of_valid x.toModel.valid

/-- The double that is made of the bits of a mantissa and an exponent. -/
theorem ofFloat_ofBits (hfits : Fits mantissa exponent) :
    Exact.ofFloat (Float.ofBits
        (UInt64.ofNat ((exponent - leastExponent).toNat * 2 ^ 52 + mantissa))) =
      .finite false mantissa exponent := by
  obtain ⟨hlt, hleast, hgreatest, -⟩ := id hfits
  have hconst : leastExponent = -1074 := rfl
  generalize hbits : (exponent - leastExponent).toNat * 2 ^ 52 + mantissa = bits
  have hsmall : bits < 2047 * 2 ^ 52 := by omega
  have hword : (UInt64.ofNat bits).toNat = bits := UInt64.toNat_ofNat_of_lt' (by
    rw [UInt64.size]
    omega)
  refine ofFloat_of_toBits hfits ?_
  rw [toBits_ofBits (by rw [hword]; omega), hword, hbits]
  simp

/-- A finite double is another one without a sign, or the negative of that. -/
theorem exists_magnitude (hx : Exact.ofFloat x = .finite negative mantissa exponent) :
    ∃ y, Exact.ofFloat y = .finite false mantissa exponent ∧ (if negative then -y else y) = x := by
  cases negative with
  | false => exact ⟨x, hx, rfl⟩
  | true =>
    have hy := ofFloat_ofBits (Exact.fits hx)
    have hopposite : Exact.ofFloat x = .finite (!false) mantissa exponent := hx
    exact ⟨_, hy, neg_eq_of_ofFloat hopposite hy⟩

/-! ## Numerals -/

/-- A quotient in the interval of a double is rounded to that double. -/
theorem nearest_eq (hx : Exact.ofFloat x = .finite false mantissa exponent) (hpos : 0 < mantissa)
    {num den : ℕ} (hden : 0 < den) (h : RoundsTo mantissa exponent (num / den)) :
    nearest num den = x := by
  have hbits := nearestBits_eq (Exact.fits hx) hpos hden h
  have hx := toNat_toBits hx
  rw [if_neg Bool.false_ne_true, Nat.zero_add] at hx
  rw [nearest, hbits, ← hx]
  show Float.ofBits (UInt64.ofNat x.toBits.toNat) = x
  rw [UInt64.ofNat_toNat, Float.ofBits_toBits]

/-- The numbers that round to a positive double lie between half the least and twice the greatest
power of two that are doubles. -/
theorem RoundsTo.range {q : ℚ} (hfits : Fits mantissa exponent) (hpos : 0 < mantissa)
    (h : RoundsTo mantissa exponent q) : (2 : ℚ) ^ (-1075 : ℤ) ≤ q ∧ q ≤ 2 ^ (1024 : ℤ) := by
  obtain ⟨hlow, hhigh⟩ := (h.bounds hpos).1
  have hunit : (0 : ℚ) < 2 ^ exponent := zpow_pos two_pos _
  rw [le_div_iff₀ hunit] at hlow
  rw [div_le_iff₀ hunit] at hhigh
  have hleast : -1074 ≤ exponent := hfits.least
  have hsmallest : (1 : ℚ) ≤ mantissa := by exact_mod_cast hpos
  have hlargest : (mantissa : ℚ) + 1 ≤ 2 ^ 53 := by exact_mod_cast hfits.lt
  constructor
  · calc (2 : ℚ) ^ (-1075 : ℤ) = 1 / 2 * 2 ^ (-1074 : ℤ) := by
          rw [show (-1075 : ℤ) = -1074 - 1 from rfl, zpow_sub_one₀ two_ne_zero]
          ring
      _ ≤ 1 / 2 * 2 ^ exponent := by
          gcongr
          norm_num
      _ ≤ (mantissa - 1 / 2) * 2 ^ exponent := by
          gcongr
          linarith
      _ ≤ q := hlow
  · calc q ≤ (mantissa + 1 / 2) * 2 ^ exponent := hhigh
      _ ≤ 2 ^ 53 * 2 ^ (971 : ℤ) := by
          have hgreatest : (2 : ℚ) ^ exponent ≤ 2 ^ (971 : ℤ) :=
            zpow_le_zpow_right₀ one_le_two hfits.greatest
          have hhalf : (mantissa : ℚ) + 1 / 2 ≤ 2 ^ 53 := by linarith
          gcongr
      _ = 2 ^ (1024 : ℤ) := by rw [← zpow_natCast, ← zpow_add₀ two_ne_zero]; rfl

/-- A numeral that rounds to a positive double is not out of all proportion. -/
theorem exponent_bounds {n : Numeral} (hfits : Fits mantissa exponent) (hpos : 0 < mantissa)
    (h : RoundsTo mantissa exponent (n.digits * 10 ^ n.exponent)) :
    n.exponent ≤ 400 ∧ -(401 + n.digits.log2 : ℤ) ≤ n.exponent := by
  obtain ⟨hlow, hhigh⟩ := h.range hfits hpos
  have hpositive := h.pos hpos
  have hpower : (0 : ℚ) < 10 ^ n.exponent := zpow_pos (by norm_num) _
  have hdigits : 0 < n.digits := by
    exact_mod_cast (pos_iff_pos_of_mul_pos hpositive).2 hpower
  have hone : (1 : ℚ) ≤ n.digits := by exact_mod_cast hdigits
  constructor
  · by_contra hlarge
    have hpast : (10 : ℚ) ^ (401 : ℤ) ≤ 10 ^ n.exponent :=
      zpow_le_zpow_right₀ (by norm_num) (by omega)
    have hgap : (2 : ℚ) ^ (1024 : ℤ) < 10 ^ (401 : ℤ) := by
      rw [zpow_ofNat, zpow_ofNat]
      exact_mod_cast (two_pow_lt_ten_pow (by norm_num) : 2 ^ 1024 < 10 ^ 401)
    have hleast : (10 : ℚ) ^ n.exponent ≤ n.digits * 10 ^ n.exponent :=
      le_mul_of_one_le_left hpower.le hone
    exact absurd (hpast.trans (hleast.trans hhigh)) (not_le.2 hgap)
  · by_contra hsmall
    have hlog : (n.digits : ℚ) < 10 ^ ((n.digits.log2 : ℤ) + 1) := by
      calc (n.digits : ℚ) < 2 ^ (n.digits.log2 + 1) := (log2_bounds hdigits).2
        _ ≤ 10 ^ (n.digits.log2 + 1) := by gcongr; norm_num
        _ = 10 ^ ((n.digits.log2 : ℤ) + 1) := by rw [← zpow_natCast, Nat.cast_succ]
    have hbelow : (n.digits : ℚ) * 10 ^ n.exponent < 10 ^ (-401 : ℤ) := by
      calc (n.digits : ℚ) * 10 ^ n.exponent
          < 10 ^ ((n.digits.log2 : ℤ) + 1) * 10 ^ n.exponent := by gcongr
        _ = 10 ^ ((n.digits.log2 : ℤ) + 1 + n.exponent) := by
          rw [← zpow_add₀ (by norm_num)]
        _ ≤ 10 ^ (-401 : ℤ) := zpow_le_zpow_right₀ (by norm_num) (by omega)
    have hgap : (10 : ℚ) ^ (-401 : ℤ) ≤ 2 ^ (-1075 : ℤ) := by
      rw [zpow_neg, zpow_neg, zpow_ofNat, zpow_ofNat]
      gcongr
      exact_mod_cast (two_pow_lt_ten_pow (by norm_num) : 2 ^ 1075 < 10 ^ 401).le
    exact absurd (hgap.trans hlow) (not_le.2 hbelow)

/-- **A numeral in the interval of a double reads as that double.** -/
theorem Numeral.toFloat_eq {n : Numeral}
    (hx : Exact.ofFloat x = .finite false mantissa exponent) (hpos : 0 < mantissa)
    (h : RoundsTo mantissa exponent (n.digits * 10 ^ n.exponent)) : n.toFloat = x := by
  obtain ⟨hsmall, hlarge⟩ := exponent_bounds (Exact.fits hx) hpos h
  have hdigits : n.digits ≠ 0 := by
    intro hzero
    have hpositive := h.pos hpos
    simp [hzero] at hpositive
  rw [toFloat, if_neg hdigits, if_neg (by omega), if_neg (by omega)]
  refine nearest_eq hx hpos (Nat.pow_pos (by norm_num)) ?_
  have hratio := pow_toNat_div_pow_toNat 10 (by norm_num) n.exponent
  simp only [Nat.pow_eq, Nat.cast_mul, Nat.cast_pow, Nat.cast_ofNat]
  rwa [mul_div_assoc, hratio]

/-- A numeral without digits reads as zero. -/
theorem Numeral.toFloat_zero {n : Numeral} (hx : Exact.ofFloat x = .finite false 0 exponent)
    (h : n.digits = 0) : n.toFloat = x := by
  have hleast : exponent = leastExponent := by
    have hfits := Exact.fits hx
    by_contra hne
    have hnormal := hfits.normal (lt_of_le_of_ne hfits.least (Ne.symm hne))
    omega
  have hzero : Exact.ofFloat 0 = .finite false 0 exponent := by
    rw [Exact.ofFloat_eq, hleast]
    rfl
  rw [toFloat, if_pos h]
  exact eq_of_ofFloat hzero hx

end Decimal
end ProductionRates
