import ProductionRates.Proofs.Decimal.ReadBack

/-!
# Whole numbers are doubles

A natural number of at most 53 bits is a double, so rounding it changes nothing.

* `roundsTo_self` — a double is in its own interval;
* `ofFloat_nearest` — the exact value of a quotient in the interval of a double;
* `wholeNumber?_floatOfNat` — the double of a natural number below `2 ^ 53` is that number.
-/

namespace ProductionRates
namespace Decimal

variable {mantissa : ℕ} {exponent : ℤ}

/-- A double lies in its own interval. -/
theorem roundsTo_self (exponent : ℤ) (hpos : 0 < mantissa) :
    RoundsTo mantissa exponent (mantissa * 2 ^ exponent) := by
  have hquarter : (0 : ℚ) < 2 ^ (exponent - 2) := zpow_pos two_pos _
  have hunit : (2 : ℚ) ^ exponent = 4 * 2 ^ (exponent - 2) := by
    rw [zpow_sub₀ two_ne_zero]
    ring
  have hlow : (Interval.of mantissa exponent).low < 4 * mantissa := by
    rw [Interval.of]
    dsimp only
    split <;> omega
  have hlow : ((Interval.of mantissa exponent).low : ℚ) < 4 * mantissa := by exact_mod_cast hlow
  have hhigh : (4 * mantissa : ℚ) < (Interval.of mantissa exponent).high := by
    simp [Interval.of]
  have hbelow : ((Interval.of mantissa exponent).low : ℚ) * 2 ^ (exponent - 2) <
      mantissa * 2 ^ exponent := by
    rw [hunit, ← mul_assoc, mul_comm (mantissa : ℚ)]
    exact mul_lt_mul_of_pos_right hlow hquarter
  have habove : (mantissa * 2 ^ exponent : ℚ) <
      (Interval.of mantissa exponent).high * 2 ^ (exponent - 2) := by
    rw [hunit, ← mul_assoc, mul_comm (mantissa : ℚ)]
    exact mul_lt_mul_of_pos_right hhigh hquarter
  rw [RoundsTo]
  split
  · exact ⟨hbelow.le, habove.le⟩
  · exact ⟨hbelow, habove⟩

/-- A quotient in the interval of a double is rounded to its exact value. -/
theorem ofFloat_nearest (hfits : Fits mantissa exponent) (hpos : 0 < mantissa) {num den : ℕ}
    (hden : 0 < den) (h : RoundsTo mantissa exponent (num / den)) :
    Exact.ofFloat (nearest num den) = .finite false mantissa exponent := by
  rw [nearest, nearestBits_eq hfits hpos hden h]
  exact ofFloat_ofBits hfits

/-- The mantissa and the exponent of a whole number of at most 53 bits. -/
theorem exists_fits_of_lt {n : ℕ} (hpos : 0 < n) (h : n < 2 ^ 53) :
    ∃ mantissa exponent, Fits mantissa exponent ∧ 0 < mantissa ∧
      (mantissa * 2 ^ exponent : ℚ) = n := by
  have hlog : n.log2 < 53 := (Nat.log2_lt hpos.ne').2 h
  have hlow : 2 ^ n.log2 ≤ n := Nat.log2_self_le hpos.ne'
  have hhigh : n < 2 ^ (n.log2 + 1) := Nat.lt_log2_self
  have hshift : 2 ^ n.log2 * 2 ^ (52 - n.log2) = 2 ^ 52 := by
    rw [← pow_add]
    congr 1
    omega
  have hconst : leastExponent = -1074 := rfl
  refine ⟨n * 2 ^ (52 - n.log2), n.log2 - 52, ⟨?_, ?_, ?_, ?_⟩, by positivity, ?_⟩
  · calc n * 2 ^ (52 - n.log2) < 2 ^ (n.log2 + 1) * 2 ^ (52 - n.log2) := by gcongr
      _ = 2 ^ 53 := by rw [pow_succ, mul_right_comm, hshift, ← pow_succ]
  · omega
  · omega
  · intro _
    rw [← hshift]
    gcongr
  · have hexponent : (n.log2 : ℤ) - 52 = -((52 - n.log2 : ℕ) : ℤ) := by omega
    rw [hexponent, zpow_neg, zpow_natCast, Nat.cast_mul, Nat.cast_pow, Nat.cast_ofNat]
    field_simp

/-- **A natural number below `2 ^ 53` is a double.** -/
theorem wholeNumber?_floatOfNat {n : ℕ} (h : n < 2 ^ 53) :
    wholeNumber? (floatOfNat n) = some (n : ℤ) := by
  rcases Nat.eq_zero_or_pos n with rfl | hpos
  · decide +kernel
  · obtain ⟨mantissa, exponent, hfits, hmantissa, hvalue⟩ := exists_fits_of_lt hpos h
    have hexact : Exact.ofFloat (floatOfNat n) = .finite false mantissa exponent := by
      refine ofFloat_nearest hfits hmantissa one_pos ?_
      rw [Nat.cast_one, div_one, ← hvalue]
      exact roundsTo_self exponent hmantissa
    have hlargest : largestSafeInteger = 2 ^ 53 - 1 := rfl
    refine wholeNumber?_eq_some_iff.2 ⟨?_, ?_, ?_⟩
    · rw [isFinite, hexact]
    · rw [hexact, Exact.toRat, if_neg Bool.false_ne_true, one_mul, hvalue]
      rfl
    · rw [Int.natAbs_natCast, hlargest]
      omega

end Decimal
end ProductionRates
