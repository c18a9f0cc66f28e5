import ProductionRates.Decimal.Shortest
import Mathlib.Data.Int.Log
import Mathlib.Data.Rat.Floor
import Mathlib.Algebra.Order.Field.Power
import Mathlib.Tactic.Linarith
import Mathlib.Tactic.NormNum
import Mathlib.Tactic.Positivity
import Mathlib.Tactic.Ring
import Mathlib.Tactic.FieldSimp

/-!
# Which numbers round to a double

`nearestBits` rounds a quotient of natural numbers to a double.  This file shows that it answers the
double `mantissa · 2 ^ exponent` for every number in the interval that `Interval.of` gives for it,
the ends included where the interval is closed.

* `Fits` — the mantissas and exponents that doubles have;
* `RoundsTo` — the numbers in the interval of a double;
* `two_pow_lt_ten_pow`, `two_pow_mul_five_pow_lt_ten_pow` — powers compared by their exponents;
* `roundHalfEven_eq`, `exponentOf_eq_max` — the two steps of rounding;
* `nearestBits_eq` — the bits of the double.

The one case in which the exponent found is not that of the double is a number just below a power
of two: its mantissa is rounded up past 53 bits, and the bits carry over into the exponent.
-/

namespace ProductionRates
namespace Decimal

/-- The mantissas and exponents that doubles have. -/
structure Fits (mantissa : ℕ) (exponent : ℤ) : Prop where
  /-- The mantissa has at most 53 bits. -/
  lt : mantissa < 2 ^ 53
  /-- The exponent is not below the least one. -/
  least : leastExponent ≤ exponent
  /-- The exponent is not above the greatest one. -/
  greatest : exponent ≤ 971
  /-- Above the least exponent all 53 bits are used. -/
  normal : leastExponent < exponent → 2 ^ 52 ≤ mantissa

/-- The numbers in the interval of the double `mantissa · 2 ^ exponent`. -/
def RoundsTo (mantissa : ℕ) (exponent : ℤ) (q : ℚ) : Prop :=
  let interval := Interval.of mantissa exponent
  if interval.closed then
    interval.low * (2 : ℚ) ^ (exponent - 2) ≤ q ∧ q ≤ interval.high * (2 : ℚ) ^ (exponent - 2)
  else interval.low * (2 : ℚ) ^ (exponent - 2) < q ∧ q < interval.high * (2 : ℚ) ^ (exponent - 2)

/-! ## Powers with an integer exponent -/

theorem pow_toNat_div_pow_toNat (base : ℚ) (hbase : base ≠ 0) (exponent : ℤ) :
    base ^ exponent.toNat / base ^ (-exponent).toNat = base ^ exponent := by
  rw [← zpow_natCast, ← zpow_natCast, ← zpow_sub₀ hbase]
  congr 1
  omega

/-- A quotient that is scaled by a power of two with an integer exponent, in natural numbers. -/
theorem scaled_div (num den : ℕ) (exponent : ℤ) :
    ((num * Nat.pow 2 (-exponent).toNat : ℕ) : ℚ) / ((den * Nat.pow 2 exponent.toNat : ℕ) : ℚ) =
      (num / den : ℚ) / 2 ^ exponent := by
  rw [← pow_toNat_div_pow_toNat 2 two_ne_zero exponent]
  simp only [Nat.pow_eq, Nat.cast_mul, Nat.cast_pow, Nat.cast_ofNat]
  rw [div_div_eq_mul_div, div_mul_eq_mul_div, div_div]

/-! ## Powers of two, five and ten -/

/-- Ten is more than three factors of two. -/
theorem two_pow_lt_ten_pow {twos tens : ℕ} (h : twos < 3 * tens) : 2 ^ twos < 10 ^ tens := by
  calc 2 ^ twos < 2 ^ (3 * tens) := Nat.pow_lt_pow_right one_lt_two h
    _ = (2 ^ 3) ^ tens := pow_mul ..
    _ ≤ 10 ^ tens := Nat.pow_le_pow_left (by norm_num) tens

/-- Three factors of five are less than seven of two. -/
theorem five_pow_lt_two_pow {fives twos : ℕ} (h : 7 * fives < 3 * twos) :
    5 ^ fives < 2 ^ twos := by
  refine lt_of_pow_lt_pow_left₀ 3 (Nat.zero_le _) ?_
  calc (5 ^ fives) ^ 3 = (5 ^ 3) ^ fives := pow_right_comm ..
    _ ≤ (2 ^ 7) ^ fives := Nat.pow_le_pow_left (by norm_num) fives
    _ = 2 ^ (7 * fives) := (pow_mul ..).symm
    _ < 2 ^ (3 * twos) := Nat.pow_lt_pow_right one_lt_two h
    _ = (2 ^ twos) ^ 3 := pow_mul' ..

/-- A product of twos and fives is below a power of ten if the fives that it has beyond that power
are less than the twos that it lacks. -/
theorem two_pow_mul_five_pow_lt_ten_pow {twos fives tens : ℕ} (htwos : twos ≤ tens)
    (h : 7 * (fives - tens) < 3 * (tens - twos)) : 2 ^ twos * 5 ^ fives < 10 ^ tens := by
  have hfives : 5 ^ fives ≤ 5 ^ tens * 5 ^ (fives - tens) := by
    rw [← pow_add]
    exact Nat.pow_le_pow_right (Nat.succ_pos 4) (by omega)
  have hkept : 0 < 2 ^ twos * 5 ^ tens :=
    Nat.mul_pos (Nat.pow_pos two_pos) (Nat.pow_pos (by norm_num))
  calc 2 ^ twos * 5 ^ fives ≤ 2 ^ twos * (5 ^ tens * 5 ^ (fives - tens)) :=
        Nat.mul_le_mul_left _ hfives
    _ = 2 ^ twos * 5 ^ tens * 5 ^ (fives - tens) := (mul_assoc ..).symm
    _ < 2 ^ twos * 5 ^ tens * 2 ^ (tens - twos) :=
        Nat.mul_lt_mul_of_pos_left (five_pow_lt_two_pow h) hkept
    _ = 2 ^ tens * 5 ^ tens := by rw [mul_right_comm, ← pow_add, Nat.add_sub_cancel' htwos]
    _ = 10 ^ tens := (mul_pow ..).symm

/-! ## Rounding to an integer -/

/-- An integer is what a quotient rounds to if it is at most half a unit away, and less if it is
odd. -/
theorem roundHalfEven_eq {num den n : ℕ} (hlow : 2 * n * den ≤ 2 * num + den)
    (hhigh : 2 * num ≤ 2 * n * den + den)
    (hodd : n % 2 = 1 → 2 * n * den < 2 * num + den ∧ 2 * num < 2 * n * den + den)
    (hden : 0 < den) : roundHalfEven num den = n := by
  have hsplit : den * (num / den) + num % den = num := Nat.div_add_mod num den
  have hrest : num % den < den := Nat.mod_lt _ hden
  unfold roundHalfEven
  generalize num / den = low at *
  generalize num % den = rest at *
  -- the integer is the quotient or the next one
  have hcases : n = low ∨ n = low + 1 := by
    have hle : low ≤ n := by
      by_contra hlt
      have hmul : (n + 1) * den ≤ low * den := Nat.mul_le_mul_right _ (by omega)
      nlinarith
    have hge : n ≤ low + 1 := by
      by_contra hlt
      have hmul : (low + 2) * den ≤ n * den := Nat.mul_le_mul_right _ (by omega)
      nlinarith
    omega
  have hcomm : den * low = low * den := Nat.mul_comm _ _
  rcases hcases with rfl | rfl
  · have hmul : 2 * n * den = 2 * (n * den) := Nat.mul_assoc _ _ _
    by_cases hless : 2 * rest < den
    · simp [hless]
    · have htie : 2 * rest = den := by omega
      have heven : n % 2 = 0 := by
        by_contra hne
        have habove := (hodd (by omega)).2
        omega
      simp [htie, heven]
  · have hmul : 2 * (low + 1) * den = 2 * (low * den) + 2 * den := by ring
    by_cases hless : den < 2 * rest
    · have hnot : ¬ 2 * rest < den := by omega
      simp [hless, hnot]
    · have htie : 2 * rest = den := by omega
      have hlowodd : low % 2 = 1 := by
        by_contra hne
        have hbelow := (hodd (by omega)).1
        omega
      simp [htie, hlowodd]

/-! ## The exponent of a quotient -/

theorem log2_bounds {n : ℕ} (hn : 0 < n) : (2 : ℚ) ^ n.log2 ≤ n ∧ (n : ℚ) < 2 ^ (n.log2 + 1) := by
  constructor
  · exact_mod_cast Nat.log2_self_le hn.ne'
  · exact_mod_cast Nat.lt_log2_self

/-- The exponent leaves 53 bits of the quotient, unless it would be below the least one. -/
theorem exponentOf_eq_max {num den : ℕ} (hnum : 0 < num) (hden : 0 < den) :
    exponentOf num den = max (Int.log 2 (num / den : ℚ) - 52) leastExponent := by
  have hdenq : (0 : ℚ) < den := Nat.cast_pos.2 hden
  have hq : (0 : ℚ) < num / den := div_pos (Nat.cast_pos.2 hnum) hdenq
  obtain ⟨hnumlow, hnumhigh⟩ := log2_bounds hnum
  obtain ⟨hdenlow, hdenhigh⟩ := log2_bounds hden
  unfold exponentOf
  generalize hlog : (num.log2 : ℤ) - den.log2 = log
  -- the quotient is within a factor of two of `2 ^ log`
  have hbelow : (2 : ℚ) ^ (log - 1) ≤ num / den := by
    rw [le_div_iff₀ hdenq]
    calc (2 : ℚ) ^ (log - 1) * den ≤ 2 ^ (log - 1) * 2 ^ (den.log2 + 1) := by gcongr
      _ = 2 ^ num.log2 := by
        rw [← zpow_natCast, ← zpow_natCast, ← zpow_add₀ two_ne_zero]
        congr 1
        push_cast
        omega
      _ ≤ num := hnumlow
  have habove : (num / den : ℚ) < 2 ^ (log + 1) := by
    rw [div_lt_iff₀ hdenq]
    calc (num : ℚ) < 2 ^ (num.log2 + 1) := hnumhigh
      _ = 2 ^ (log + 1) * 2 ^ den.log2 := by
        rw [← zpow_natCast, ← zpow_natCast, ← zpow_add₀ two_ne_zero]
        congr 1
        push_cast
        omega
      _ ≤ 2 ^ (log + 1) * den := by gcongr
  have hreaches : den * Nat.pow 2 log.toNat ≤ num * Nat.pow 2 (-log).toNat ↔
      (2 : ℚ) ^ log ≤ num / den := by
    have hscale : (0 : ℚ) < ((den * Nat.pow 2 log.toNat : ℕ) : ℚ) :=
      Nat.cast_pos.2 (Nat.mul_pos hden (Nat.pow_pos two_pos))
    have hpow : (0 : ℚ) < 2 ^ log := zpow_pos two_pos log
    rw [← one_le_div hpow, ← scaled_div num den log, one_le_div hscale, Nat.cast_le]
  have hlower := Int.zpow_le_iff_le_log (b := 2) (x := log) one_lt_two hq
  have hlower' := Int.zpow_le_iff_le_log (b := 2) (x := log - 1) one_lt_two hq
  have hupper := Int.lt_zpow_iff_log_lt (b := 2) (x := log + 1) one_lt_two hq
  simp only [Nat.cast_ofNat] at hlower hlower' hupper
  rw [hlower'] at hbelow
  rw [hupper] at habove
  rw [hlower] at hreaches
  by_cases hle : log ≤ Int.log 2 (num / den : ℚ)
  · have hexp : Int.log 2 (num / den : ℚ) = log := by omega
    simp only [hreaches.2 hle, decide_true, if_true, hexp]
  · have hexp : Int.log 2 (num / den : ℚ) = log - 1 := by omega
    have hnot : ¬ den * Nat.pow 2 log.toNat ≤ num * Nat.pow 2 (-log).toNat :=
      fun h => hle (hreaches.1 h)
    simp only [hnot, decide_false, Bool.false_eq_true, if_false, hexp]
    congr 1
    omega

/-! ## The interval of a double -/

section Interval

variable {mantissa : ℕ} {exponent : ℤ} {q : ℚ}

/-- The ends of the interval, counted in the last place of the double. -/
theorem RoundsTo.bounds (hpos : 0 < mantissa) (h : RoundsTo mantissa exponent q) :
    ((mantissa : ℚ) - 1 / 2 ≤ q / 2 ^ exponent ∧ q / 2 ^ exponent ≤ mantissa + 1 / 2) ∧
    (mantissa % 2 = 1 →
      (mantissa : ℚ) - 1 / 2 < q / 2 ^ exponent ∧ q / 2 ^ exponent < mantissa + 1 / 2) ∧
    (mantissa = 2 ^ 52 → leastExponent < exponent →
      (mantissa : ℚ) - 1 / 4 ≤ q / 2 ^ exponent) := by
  have hunit : (2 : ℚ) ^ exponent = 4 * 2 ^ (exponent - 2) := by
    rw [zpow_sub₀ two_ne_zero]
    ring
  have hquarter : (0 : ℚ) < 2 ^ (exponent - 2) := zpow_pos two_pos _
  generalize hq : q / 2 ^ exponent = t
  have hq : q = 4 * t * 2 ^ (exponent - 2) := by
    rw [← hq, hunit]
    field_simp
  have hmantissa : (1 : ℚ) ≤ mantissa := by exact_mod_cast hpos
  have hhigh : ((Interval.of mantissa exponent).high : ℚ) = 4 * mantissa + 2 := by
    simp [Interval.of]
  have hlow : (mantissa = 2 ^ 52 ∧ leastExponent < exponent ∧
        ((Interval.of mantissa exponent).low : ℚ) = 4 * mantissa - 1) ∨
      (¬ (mantissa = 2 ^ 52 ∧ leastExponent < exponent) ∧
        ((Interval.of mantissa exponent).low : ℚ) = 4 * mantissa - 2) := by
    by_cases hpower : mantissa = 2 ^ 52 ∧ leastExponent < exponent
    · refine .inl ⟨hpower.1, hpower.2, ?_⟩
      have hcase : mantissa = Nat.pow 2 52 ∧ leastExponent < exponent := hpower
      rw [Interval.of, if_pos hcase, Nat.cast_sub (by omega)]
      norm_num
    · refine .inr ⟨hpower, ?_⟩
      have hcase : ¬ (mantissa = Nat.pow 2 52 ∧ leastExponent < exponent) := hpower
      rw [Interval.of, if_neg hcase, Nat.cast_sub (by omega)]
      norm_num
  rw [RoundsTo, hq] at h
  simp only [hhigh] at h
  by_cases heven : mantissa % 2 = 0
  · have hclosed : (Interval.of mantissa exponent).closed = true := by simp [Interval.of, heven]
    rw [if_pos hclosed, mul_le_mul_iff_left₀ hquarter, mul_le_mul_iff_left₀ hquarter] at h
    refine ⟨⟨?_, by linarith [h.2]⟩, fun hodd => absurd hodd (by omega), ?_⟩
    · rcases hlow with ⟨-, -, hlow⟩ | ⟨-, hlow⟩ <;> linarith [h.1]
    · intro hpower habove
      rcases hlow with ⟨-, -, hlow⟩ | ⟨hnot, -⟩
      · linarith [h.1]
      · exact absurd ⟨hpower, habove⟩ hnot
  · have hclosed : ¬ (Interval.of mantissa exponent).closed = true := by simp [Interval.of, heven]
    rw [if_neg hclosed, mul_lt_mul_iff_left₀ hquarter, mul_lt_mul_iff_left₀ hquarter] at h
    have hstrict : (mantissa : ℚ) - 1 / 2 < t ∧ t < mantissa + 1 / 2 := by
      refine ⟨?_, by linarith [h.2]⟩
      rcases hlow with ⟨-, -, hlow⟩ | ⟨-, hlow⟩ <;> linarith [h.1]
    refine ⟨⟨hstrict.1.le, hstrict.2.le⟩, fun _ => hstrict, ?_⟩
    intro hpower
    rw [hpower] at heven
    exact absurd (by norm_num) heven

/-- A number that rounds to a positive double is positive. -/
theorem RoundsTo.pos (hpos : 0 < mantissa) (h : RoundsTo mantissa exponent q) : 0 < q := by
  have hmantissa : (1 : ℚ) ≤ mantissa := by exact_mod_cast hpos
  have hscaled : 0 < q / 2 ^ exponent := by linarith [(h.bounds hpos).1.1]
  have hunit : (0 : ℚ) < 2 ^ exponent := zpow_pos two_pos _
  exact (div_pos_iff_of_pos_right hunit).1 hscaled

/-- A quotient at most half a unit from an integer, and less if it is odd, rounds to it. -/
theorem roundHalfEven_of_div {num den n : ℕ} (hden : 0 < den)
    (hnear : (n : ℚ) - 1 / 2 ≤ num / den ∧ (num / den : ℚ) ≤ n + 1 / 2)
    (hodd : n % 2 = 1 → (n : ℚ) - 1 / 2 < num / den ∧ (num / den : ℚ) < n + 1 / 2) :
    roundHalfEven num den = n := by
  have hdenq : (0 : ℚ) < den := Nat.cast_pos.2 hden
  rw [le_div_iff₀ hdenq, div_le_iff₀ hdenq] at hnear
  rw [lt_div_iff₀ hdenq, div_lt_iff₀ hdenq] at hodd
  refine roundHalfEven_eq ?_ ?_ ?_ hden
  · have hlow : (2 * n * den : ℚ) ≤ 2 * num + den := by linarith [hnear.1]
    exact_mod_cast hlow
  · have hhigh : (2 * num : ℚ) ≤ 2 * n * den + den := by linarith [hnear.2]
    exact_mod_cast hhigh
  · intro hn
    obtain ⟨hlow, hhigh⟩ := hodd hn
    constructor
    · have hless : (2 * n * den : ℚ) < 2 * num + den := by linarith
      exact_mod_cast hless
    · have hless : (2 * num : ℚ) < 2 * n * den + den := by linarith
      exact_mod_cast hless

/-- The bits that rounding gives, by the exponent and the mantissa that it finds. -/
theorem nearestBits_of_steps {num den found : ℕ} {place : ℤ} (hnum : 0 < num)
    (hplace : exponentOf num den = place)
    (hfound : roundHalfEven (num * Nat.pow 2 (-place).toNat) (den * Nat.pow 2 place.toNat) = found)
    (hbits : (place - leastExponent).toNat * 2 ^ 52 + found =
      (exponent - leastExponent).toNat * 2 ^ 52 + mantissa) (hfits : Fits mantissa exponent) :
    nearestBits num den = (exponent - leastExponent).toNat * 2 ^ 52 + mantissa := by
  have hlt := hfits.lt
  have hgreatest := hfits.greatest
  have hsmall : (exponent - leastExponent).toNat ≤ 2045 := by
    rw [leastExponent]
    omega
  rw [nearestBits, if_neg hnum.ne']
  simp only [hplace, hfound]
  show min ((place - leastExponent).toNat * 2 ^ 52 + found) (2047 * 2 ^ 52) = _
  rw [hbits]
  omega

/-- **A number in the interval of a double rounds to it.** -/
theorem nearestBits_eq (hfits : Fits mantissa exponent) (hpos : 0 < mantissa) {num den : ℕ}
    (hden : 0 < den) (h : RoundsTo mantissa exponent (num / den)) :
    nearestBits num den = (exponent - leastExponent).toNat * 2 ^ 52 + mantissa := by
  obtain ⟨hnear, hodd, hpower⟩ := h.bounds hpos
  have hq : (0 : ℚ) < num / den := h.pos hpos
  have hnum : 0 < num := by
    rcases Nat.eq_zero_or_pos num with hzero | hnum
    · simp [hzero] at hq
    · exact hnum
  have hscaled (place : ℤ) : (0 : ℕ) < den * Nat.pow 2 place.toNat :=
    Nat.mul_pos hden (Nat.pow_pos two_pos)
  have hplace := exponentOf_eq_max hnum hden
  have hunit : (0 : ℚ) < 2 ^ exponent := zpow_pos two_pos _
  have hreach (n : ℕ) : (2 : ℚ) ^ n ≤ num / den / 2 ^ exponent ↔
      exponent + n ≤ Int.log 2 (num / den : ℚ) := by
    have hlog := Int.zpow_le_iff_le_log (b := 2) (x := exponent + n) one_lt_two hq
    rw [← hlog, le_div_iff₀ hunit, Nat.cast_ofNat, zpow_add₀ two_ne_zero, zpow_natCast, mul_comm]
  have hmantissa : (mantissa : ℚ) + 1 ≤ 2 ^ 53 := by exact_mod_cast hfits.lt
  -- the quotient has no more bits than the mantissa
  have htop : Int.log 2 (num / den : ℚ) < exponent + 53 := by
    by_contra hlarge
    have hreached := (hreach 53).2 (by push_cast; omega)
    linarith [hnear.2]
  have hleast := hfits.least
  by_cases hfull : exponent = leastExponent ∨ (2 : ℚ) ^ 52 ≤ num / den / 2 ^ exponent
  · have hexponent : exponentOf num den = exponent := by
      rw [hplace]
      rcases hfull with hfull | hfull
      · omega
      · have hreached := (hreach 52).1 hfull
        push_cast at hreached
        omega
    have hround : roundHalfEven (num * Nat.pow 2 (-exponent).toNat)
        (den * Nat.pow 2 exponent.toNat) = mantissa := by
      refine roundHalfEven_of_div (hscaled exponent) ?_ ?_
      · rwa [scaled_div]
      · rwa [scaled_div]
    exact nearestBits_of_steps hnum hexponent hround rfl hfits
  · -- just below a power of two: the mantissa carries over
    rw [not_or, not_le] at hfull
    obtain ⟨hne, hbelow⟩ := hfull
    have habove : leastExponent < exponent := by omega
    have hnormal := hfits.normal habove
    have hmin : mantissa = 2 ^ 52 := by
      by_contra hlarger
      have hnext : (2 : ℚ) ^ 52 + 1 ≤ mantissa := by
        exact_mod_cast (by omega : 2 ^ 52 + 1 ≤ mantissa)
      linarith [hnear.1]
    have hclose := hpower hmin habove
    have hmantissaq : (mantissa : ℚ) = 2 ^ 52 := by exact_mod_cast hmin
    rw [hmantissaq] at hclose
    have hlog : Int.log 2 (num / den : ℚ) = exponent + 51 := by
      have hlow := (hreach 51).1 (by linarith)
      have hhigh := mt (hreach 52).2 (not_le.2 hbelow)
      push_cast at hlow hhigh
      omega
    have hexponent : exponentOf num den = exponent - 1 := by
      rw [hplace, hlog]
      omega
    have hhalf : (num / den : ℚ) / 2 ^ (exponent - 1) = 2 * (num / den / 2 ^ exponent) := by
      rw [zpow_sub_one₀ two_ne_zero]
      field_simp
    have hround : roundHalfEven (num * Nat.pow 2 (-(exponent - 1)).toNat)
        (den * Nat.pow 2 (exponent - 1).toNat) = 2 ^ 53 := by
      refine roundHalfEven_of_div (hscaled _) ?_ (fun hodd => absurd hodd (by norm_num))
      rw [scaled_div, hhalf]
      push_cast
      constructor <;> linarith
    refine nearestBits_of_steps hnum hexponent hround ?_ hfits
    have hcarry : (exponent - leastExponent).toNat = (exponent - 1 - leastExponent).toNat + 1 := by
      omega
    rw [hcarry, hmin]
    ring

end Interval

end Decimal
end ProductionRates
