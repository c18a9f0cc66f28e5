import ProductionRates.Proofs.Decimal.ReadBack

/-!
# Numbers that are no NaN

Reading a numeral rounds a quotient of natural numbers, which comes to a number or to an infinity
but never to NaN, and a change of sign neither makes a NaN nor removes one.

* `isNaN_neg` — a number is a NaN just when its negative is;
* `isNaN_floatOfNat`, `Numeral.isNaN_toFloat` — numerals are never NaN;
* `floatOfNat_ne_neg_zero` — nor is a natural number the negative zero.
-/

namespace ProductionRates
namespace Decimal

open Float.Model (Format UnpackedFloat)
open Float.Model.UnpackedFloat

/-! ## Signs -/

/-- A double is packed as a NaN only if it is one. -/
theorem isNaNBits_pack {f : UnpackedFloat} (hf : f ≠ .notANumber) :
    isNaNBits (UnpackedFloat.pack Format.binary64 f) = false := by
  rw [isNaNBits, decide_eq_false_iff_not]
  rintro ⟨hexponent, hmantissa⟩
  revert hexponent hmantissa
  fun_cases UnpackedFloat.pack Format.binary64 f with
  | case1 => exact absurd rfl hf
  | case2 sign => simp [packedInfinity]
  | case3 sign => simp [packedZero]
  | case4 sign mantissa exponent hpos biased hlarge => simp [packedInfinity]
  | case5 sign mantissa exponent hpos digits biased hsmall hnormal =>
    intro hexponent
    rw [unpackExponent_packComponents] at hexponent
    have hlt : biased < 2047 := by
      have hbound : ¬ 2 ^ 11 ≤ biased + 1 := hsmall
      omega
    have hbits : biased % 2 ^ 11 = 2047 := congrArg BitVec.toNat hexponent
    omega
  | case6 sign mantissa exponent hpos digits biased hsmall hsubnormal =>
    intro hexponent
    rw [unpackExponent_packComponents] at hexponent
    exact absurd hexponent (by decide)

theorem isNaN_unpack_pack {f : UnpackedFloat} :
    (UnpackedFloat.unpack Format.binary64 (UnpackedFloat.pack Format.binary64 f)).isNaN =
      f.isNaN := by
  rw [Bool.eq_iff_iff, isNaN_unpack_iff_of_valid valid_pack, UnpackedFloat.isNaN_iff]
  constructor
  · intro hpacked
    by_contra hf
    have hnumber := isNaNBits_pack hf
    rw [hpacked, isNaNBits_packedNaN] at hnumber
    cases hnumber
  · rintro rfl
    rfl

/-- **A number is a NaN just when its negative is.** -/
theorem isNaN_neg (x : Float) : (-x).isNaN = x.isNaN := by
  show (UnpackedFloat.unpack Format.binary64
    (UnpackedFloat.pack Format.binary64 x.toModel.unpack.neg)).isNaN = x.toModel.unpack.isNaN
  rw [isNaN_unpack_pack]
  cases x.toModel.unpack <;> rfl

/-! ## Numerals -/

/-- No bits up to those of infinity are those of a NaN. -/
theorem isNaN_ofBits {bits : UInt64} (h : bits.toNat ≤ 2047 * 2 ^ 52) :
    (Float.ofBits bits).isNaN = false := by
  show (UnpackedFloat.unpack Format.binary64 (UnpackedFloat.pack Format.binary64
    (UnpackedFloat.unpack Format.binary64 bits.toBitVec))).isNaN = false
  rw [isNaN_unpack_pack]
  delta UnpackedFloat.unpack
  dsimp only
  split
  · rename_i hexponent
    rw [unpackExponent_eq_iff bits.toBitVec (-1#_)] at hexponent
    -- all exponent bits are set, so the bits are those of infinity
    have hfraction : bits.toNat % 2 ^ 52 = 0 := by
      have hfields : bits.toNat / 2 ^ 52 % 2 ^ 11 = 2047 := hexponent
      omega
    rw [if_pos ((unpackMantissa_eq_iff bits.toBitVec 0#_).2 hfraction)]
    rfl
  · split
    · split <;> rfl
    · rfl

/-- A quotient is rounded to bits up to those of infinity. -/
theorem toNat_nearestBits_le (num den : Nat) :
    (nearestBits num den).toUInt64.toNat ≤ 2047 * 2 ^ 52 := by
  have hle : nearestBits num den ≤ 2047 * 2 ^ 52 := by
    rw [nearestBits]
    split
    · exact Nat.zero_le _
    · exact Nat.min_le_right ..
  rw [UInt64.toNat_ofNat', Nat.mod_eq_of_lt (by omega)]
  exact hle

theorem isNaN_nearest (num den : Nat) : (nearest num den).isNaN = false :=
  isNaN_ofBits (toNat_nearestBits_le num den)

theorem isNaN_floatOfNat (n : Nat) : (floatOfNat n).isNaN = false := isNaN_nearest n 1

/-- No bits up to those of infinity are those of the negative zero. -/
theorem ofBits_ne_neg_zero {bits : UInt64} (h : bits.toNat ≤ 2047 * 2 ^ 52) :
    Float.ofBits bits ≠ -0 := by
  intro hzero
  by_cases hexponent : bits.toNat / 2 ^ 52 % 2 ^ 11 = 2047
  · have hinfinity : bits = 0x7ff0000000000000 := by
      rw [← UInt64.toNat_inj]
      show bits.toNat = 2047 * 2 ^ 52
      omega
    rw [hinfinity] at hzero
    exact absurd hzero (by decide +kernel)
  · have hsign : (-0 : Float).toBits.toNat = 2 ^ 63 := by decide +kernel
    rw [← hzero, toBits_ofBits hexponent] at hsign
    omega

theorem floatOfNat_ne_neg_zero (n : Nat) : floatOfNat n ≠ -0 :=
  ofBits_ne_neg_zero (toNat_nearestBits_le n 1)

/-- **No numeral is a NaN.** -/
theorem Numeral.isNaN_toFloat (n : Numeral) : n.toFloat.isNaN = false := by
  rw [Numeral.toFloat]
  split
  · decide +kernel
  · split
    · exact isNaN_ofBits (by decide)
    · split
      · decide +kernel
      · exact isNaN_nearest ..

end Decimal
end ProductionRates
