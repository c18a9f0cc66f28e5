import ProductionRates.Decimal.Binary
import Mathlib.Data.Rat.Defs
import Mathlib.Algebra.Order.Field.Rat
import Mathlib.Algebra.Order.Field.Power
import Mathlib.Tactic.Positivity

/-!
# The rational number that a double is

`Exact.ofFloat` reads the sign, the mantissa and the exponent of a double off its bits.  This file
gives the rational number they stand for and shows that the reading agrees with how the bits are
unpacked when doubles are compared, so that what a comparison says of a double holds of the
rational number.

* `Exact.toRat` — the number; what is not finite counts as zero;
* `Exact.ofFloat_eq` — the two readings agree;
* `toRat_pos` — a finite double above zero is a positive number;
* `wholeNumber?_eq_some_iff` — which doubles are whole numbers.
-/

namespace ProductionRates
namespace Decimal

open Float.Model (Format UnpackedFloat)
open Float.Model.UnpackedFloat (Sign unpackSign unpackExponent unpackMantissa)

/-- The rational number that an exact value is. -/
def Exact.toRat : Exact → ℚ
  | .finite negative mantissa exponent =>
    (if negative then -1 else 1) * mantissa * 2 ^ exponent
  | _ => 0

/-! ## Fields of bits -/

/-- Whether a sign is that of negative numbers. -/
def isNegative : Sign → Bool
  | .negative => true
  | .positive => false

/-- What an unpacked double stands for. -/
def Exact.ofUnpacked : UnpackedFloat → Exact
  | .notANumber => .nan
  | .infinity sign => .infinite (isNegative sign)
  | .zero sign => .finite (isNegative sign) 0 leastExponent
  | .finite sign mantissa exponent _ => .finite (isNegative sign) mantissa exponent

@[simp] theorem Exact.ofUnpacked_infinity (sign : Sign) :
    ofUnpacked (.infinity sign) = .infinite (isNegative sign) := rfl

@[simp] theorem Exact.ofUnpacked_zero (sign : Sign) :
    ofUnpacked (.zero sign) = .finite (isNegative sign) 0 leastExponent := rfl

@[simp] theorem Exact.ofUnpacked_finite (sign : Sign) (mantissa : Nat) (exponent : Int)
    (hpos : 0 < mantissa) :
    ofUnpacked (.finite sign mantissa exponent hpos) =
      .finite (isNegative sign) mantissa exponent := rfl

variable (bits : BitVec 64)

theorem toNat_unpackSign :
    (@unpackSign Format.binary64 bits).toNat = bits.toNat / 2 ^ 63 % 2 := by
  show (bits.toNat >>> 63) % 2 = _
  rw [Nat.shiftRight_eq_div_pow]

theorem toNat_unpackExponent :
    (@unpackExponent Format.binary64 bits).toNat = bits.toNat / 2 ^ 52 % 2 ^ 11 := by
  show (bits.toNat >>> 52) % 2 ^ 11 = _
  rw [Nat.shiftRight_eq_div_pow]

theorem toNat_unpackMantissa :
    (@unpackMantissa Format.binary64 bits).toNat = bits.toNat % 2 ^ 52 := by
  show (bits.toNat >>> 0) % 2 ^ 52 = _
  rw [Nat.shiftRight_zero]

/-- The exponent bits are those of a number just when they read as it. -/
theorem unpackExponent_eq_iff (n : BitVec 11) :
    @unpackExponent Format.binary64 bits = n ↔
      bits.toNat / Nat.pow 2 52 % Nat.pow 2 11 = n.toNat := by
  rw [BitVec.toNat_inj.symm, toNat_unpackExponent]
  rfl

/-- The fraction bits are those of a number just when they read as it. -/
theorem unpackMantissa_eq_iff (n : BitVec 52) :
    @unpackMantissa Format.binary64 bits = n ↔ bits.toNat % Nat.pow 2 52 = n.toNat := by
  rw [BitVec.toNat_inj.symm, toNat_unpackMantissa]
  rfl

/-- The highest bit is set in the numbers from `2 ^ 63` on. -/
theorem isNegative_ofBitVec :
    isNegative (Sign.ofBitVec (@unpackSign Format.binary64 bits)) =
      decide (2 ^ 63 ≤ bits.toNat) := by
  have hlt := bits.isLt
  have hsign := toNat_unpackSign bits
  unfold Sign.ofBitVec
  by_cases hzero : @unpackSign Format.binary64 bits = 0#1
  · rw [if_pos hzero]
    rw [hzero] at hsign
    have hsmall : ¬ 2 ^ 63 ≤ bits.toNat := by
      intro hle
      simp at hsign
      omega
    rw [decide_eq_false hsmall]
    rfl
  · rw [if_neg hzero]
    have hnonzero : (@unpackSign Format.binary64 bits).toNat ≠ 0 := by
      intro h
      exact hzero (BitVec.eq_of_toNat_eq h)
    have hlarge : 2 ^ 63 ≤ bits.toNat := by
      rw [hsign] at hnonzero
      omega
    rw [decide_eq_true hlarge]
    rfl

/-- The implicit bit is worth `2 ^ 52`. -/
theorem toNat_withImplicitBit (mantissa : BitVec 52) :
    (1#1 ++ mantissa).toNat = mantissa.toNat + 2 ^ 52 := by
  have hlt := mantissa.isLt
  rw [BitVec.toNat_append]
  show 1 <<< 52 ||| mantissa.toNat = _
  rw [← Nat.shiftLeft_add_eq_or_of_lt hlt]
  omega

/-- **Both readings of a double agree.** -/
theorem Exact.ofFloat_eq (x : Float) :
    Exact.ofFloat x = Exact.ofUnpacked x.toModel.unpack := by
  have hexponent := toNat_unpackExponent x.toModel.toBits.toBitVec
  have hmantissa := toNat_unpackMantissa x.toModel.toBits.toBitVec
  have hsign := isNegative_ofBitVec x.toModel.toBits.toBitVec
  have hbits : x.toBits.toNat = x.toModel.toBits.toBitVec.toNat := rfl
  delta Float.Model.unpack UnpackedFloat.unpack
  rw [Exact.ofFloat, hbits]
  generalize x.toModel.toBits.toBitVec = bits at *
  have hall : @unpackExponent Format.binary64 bits = -1#_ ↔
      bits.toNat / Nat.pow 2 52 % Nat.pow 2 11 = 2047 := unpackExponent_eq_iff bits (-1#_)
  have hnone : @unpackExponent Format.binary64 bits = 0#_ ↔
      bits.toNat / Nat.pow 2 52 % Nat.pow 2 11 = 0 := unpackExponent_eq_iff bits 0#_
  have hwhole : @unpackMantissa Format.binary64 bits = 0#_ ↔ bits.toNat % Nat.pow 2 52 = 0 :=
    unpackMantissa_eq_iff bits 0#_
  dsimp only
  -- the cases: all exponent bits set, none set, and the rest, which have an implicit bit
  by_cases hinfinite : @unpackExponent Format.binary64 bits = -1#_
  · rw [if_pos (hall.1 hinfinite), if_pos hinfinite]
    by_cases hempty : @unpackMantissa Format.binary64 bits = 0#_
    · rw [if_pos (hwhole.1 hempty), if_pos hempty, ofUnpacked_infinity, hsign]
      rfl
    · rw [if_neg (mt hwhole.2 hempty), if_neg hempty]
      rfl
  · rw [if_neg (mt hall.2 hinfinite), if_neg hinfinite]
    by_cases hsubnormal : @unpackExponent Format.binary64 bits = 0#_
    · rw [if_pos (hnone.1 hsubnormal), if_pos hsubnormal]
      by_cases hempty : @unpackMantissa Format.binary64 bits = 0#_
      · rw [dif_pos hempty, ofUnpacked_zero, hsign]
        have hfraction : bits.toNat % Nat.pow 2 52 = 0 := hwhole.1 hempty
        rw [hfraction]
        rfl
      · have hfields : bits.toNat / 2 ^ 52 % 2 ^ 11 = 0 := hnone.1 hsubnormal
        rw [dif_neg hempty, ofUnpacked_finite, hsign, hmantissa, hexponent, hfields]
        rfl
    · have hbias : ((bits.toNat / 2 ^ 52 % 2 ^ 11 : Nat) : Int) + leastExponent - 1 =
          (bits.toNat / 2 ^ 52 % 2 ^ 11 : Nat) - ((1023 : Nat) + (52 : Nat)) := by
        unfold leastExponent
        omega
      rw [if_neg (mt hnone.2 hsubnormal), if_neg hsubnormal, ofUnpacked_finite, hsign,
        toNat_withImplicitBit, hmantissa, hexponent]
      exact congrArg (Exact.finite _ _) hbias

/-! ## Positive numbers -/

/-- An unpacked double above zero is positive infinity or a positive number. -/
theorem positive_of_lt {x : UnpackedFloat} {sign : Sign}
    (h : (UnpackedFloat.zero sign).lt x = true) :
    x = .infinity .positive ∨
      ∃ mantissa exponent, ∃ hpos : 0 < mantissa, x = .finite .positive mantissa exponent hpos := by
  cases x with
  | notANumber => cases h
  | zero _ => cases h
  | infinity sign =>
    cases sign with
    | negative => cases h
    | positive => exact .inl rfl
  | finite sign mantissa exponent hpos =>
    cases sign with
    | negative => cases h
    | positive => exact .inr ⟨mantissa, exponent, hpos, rfl⟩

/-- **A finite double above zero is a positive number.** -/
theorem toRat_pos {x : Float} (hfinite : isFinite x = true) (hpos : 0 < x) :
    0 < (Exact.ofFloat x).toRat := by
  have hlt : (UnpackedFloat.zero .positive).lt x.toModel.unpack = true := by
    have hdecided : decide ((0 : Float).toModel < x.toModel) = true := hpos
    exact of_decide_eq_true hdecided
  rw [isFinite, Exact.ofFloat_eq] at hfinite
  rw [Exact.ofFloat_eq]
  rcases positive_of_lt hlt with hinfinite | ⟨mantissa, exponent, hmantissa, hnumber⟩
  · rw [hinfinite] at hfinite
    cases hfinite
  · rw [hnumber]
    show (0 : ℚ) < 1 * mantissa * 2 ^ exponent
    have hpositive : (0 : ℚ) < mantissa := Nat.cast_pos.2 hmantissa
    rw [one_mul]
    exact mul_pos hpositive (zpow_pos (by norm_num) exponent)

/-! ## Whole numbers -/

/-- Scaling gives the number that is meant, if that is a natural number. -/
theorem scaled?_eq_some_iff {mantissa : Nat} {exponent : Int} {n : Nat} :
    scaled? mantissa exponent = some n ↔ (mantissa : ℚ) * 2 ^ exponent = n := by
  rw [scaled?]
  split
  · rename_i hexponent
    obtain ⟨k, rfl⟩ := Int.eq_ofNat_of_zero_le hexponent
    rw [zpow_natCast, Int.toNat_natCast, Option.some.injEq]
    exact_mod_cast Iff.rfl
  · rename_i hexponent
    obtain ⟨k, rfl⟩ : ∃ k : Nat, exponent = -k := ⟨(-exponent).toNat, by omega⟩
    have hpos : (0 : ℚ) < 2 ^ k := by positivity
    rw [zpow_neg, zpow_natCast, ← div_eq_mul_inv, div_eq_iff hpos.ne', neg_neg, Int.toNat_natCast]
    have hnat : (mantissa : ℚ) = n * 2 ^ k ↔ mantissa = n * 2 ^ k := by exact_mod_cast Iff.rfl
    rw [hnat, Nat.pow_eq, Option.ite_none_right_eq_some, Option.some.injEq,
      ← Nat.dvd_iff_mod_eq_zero]
    constructor
    · rintro ⟨hdvd, rfl⟩
      exact (Nat.div_mul_cancel hdvd).symm
    · rintro rfl
      exact ⟨Nat.dvd_mul_left _ _, Nat.mul_div_cancel n (by positivity)⟩

/-- A whole number is a finite double that is an integer, and not a large one. -/
theorem wholeNumber?_eq_some_iff {x : Float} {n : Int} :
    wholeNumber? x = some n ↔
      isFinite x = true ∧ (Exact.ofFloat x).toRat = n ∧ n.natAbs ≤ largestSafeInteger := by
  rw [wholeNumber?, isFinite]
  cases Exact.ofFloat x with
  | nan => simp
  | infinite negative => simp
  | finite negative mantissa exponent =>
    -- the sign is taken off both sides, so that the magnitude is what scaling answers
    have hmagnitude : (Exact.finite negative mantissa exponent).toRat = n ↔
        scaled? mantissa exponent = some n.natAbs ∧
          (if negative then -(n.natAbs : Int) else n.natAbs) = n := by
      have hnonneg : (0 : ℚ) ≤ mantissa * 2 ^ exponent := by positivity
      rw [scaled?_eq_some_iff, Exact.toRat, mul_assoc, ← Int.cast_natCast n.natAbs]
      generalize (mantissa : ℚ) * 2 ^ exponent = q at hnonneg ⊢
      cases negative with
      | false =>
        rw [if_neg Bool.false_ne_true, if_neg Bool.false_ne_true, one_mul]
        constructor
        · rintro rfl
          rw [Int.natAbs_of_nonneg (by exact_mod_cast hnonneg)]
          exact ⟨rfl, rfl⟩
        · rintro ⟨rfl, hsign⟩
          rw [hsign]
      | true =>
        rw [if_pos rfl, if_pos rfl, neg_one_mul]
        constructor
        · intro h
          have hneg : n ≤ 0 := by exact_mod_cast h ▸ neg_nonpos.2 hnonneg
          rw [Int.ofNat_natAbs_of_nonpos hneg, Int.cast_neg, ← h, neg_neg, neg_neg]
          exact ⟨rfl, rfl⟩
        · rintro ⟨rfl, hsign⟩
          rw [← Int.cast_neg, hsign]
    dsimp only
    rw [hmagnitude]
    constructor
    · intro h
      split at h
      · rename_i k hk
        split at h
        · rename_i hle
          obtain rfl := Option.some.inj h
          cases negative <;> simp [hk, hle]
        · cases h
      · cases h
    · rintro ⟨-, ⟨hscaled, hsign⟩, hle⟩
      rw [hscaled]
      dsimp only
      rw [if_pos hle, hsign]

end Decimal
end ProductionRates
