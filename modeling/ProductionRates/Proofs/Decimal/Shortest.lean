import ProductionRates.Proofs.Decimal.Rounding

/-!
# The shortest numeral rounds back

`shortest` walks up the decimal grids for as long as they have a point in the interval of a double.
It starts on a grid on which the double itself lies (`isSome_onGrid?_start`), and no step leaves the
interval, so what it answers rounds to the double (`roundsTo_shortest`).  Since it never goes below
the grid on which it starts, the digits have at most 768 places (`digits_shortest_lt`).
-/

namespace ProductionRates
namespace Decimal

variable {tie : Tie} {mantissa : ℕ} {exponent grid : ℤ}

/-! ## Points of a grid -/

/-- A quarter of the last place and the step of a grid, in their common unit. -/
theorem quarter_div_step (exponent grid : ℤ) :
    ((Nat.pow 2 (exponent - 2).toNat * Nat.pow 10 (-grid).toNat : ℕ) : ℚ) /
      ((Nat.pow 2 (2 - exponent).toNat * Nat.pow 10 grid.toNat : ℕ) : ℚ) =
      2 ^ (exponent - 2) / 10 ^ grid := by
  have htwo := pow_toNat_div_pow_toNat 2 two_ne_zero (exponent - 2)
  have hten := pow_toNat_div_pow_toNat 10 (by norm_num) grid
  rw [neg_sub] at htwo
  rw [← htwo, ← hten]
  simp only [Nat.pow_eq, Nat.cast_mul, Nat.cast_pow, Nat.cast_ofNat]
  field_simp

/-- A point of a grid is in the interval of a double just when it rounds to the double. -/
theorem holds_iff_roundsTo (point : ℕ) :
    (Interval.of mantissa exponent).holds
        (Nat.pow 2 (exponent - 2).toNat * Nat.pow 10 (-grid).toNat)
        (point * (Nat.pow 2 (2 - exponent).toNat * Nat.pow 10 grid.toNat)) = true ↔
      RoundsTo mantissa exponent (point * 10 ^ grid) := by
  have hratio := quarter_div_step exponent grid
  have hstep : 0 < Nat.pow 2 (2 - exponent).toNat * Nat.pow 10 grid.toNat :=
    Nat.mul_pos (Nat.pow_pos two_pos) (Nat.pow_pos (by norm_num))
  generalize Nat.pow 2 (exponent - 2).toNat * Nat.pow 10 (-grid).toNat = quarter at *
  generalize Nat.pow 2 (2 - exponent).toNat * Nat.pow 10 grid.toNat = step at *
  have hstepq : (0 : ℚ) < step := Nat.cast_pos.2 hstep
  have hten : (0 : ℚ) < 10 ^ grid := zpow_pos (by norm_num) grid
  have hquarter : (quarter : ℚ) = 2 ^ (exponent - 2) / 10 ^ grid * step := by
    rw [← hratio]
    field_simp
  have hle (end_ : ℕ) : end_ * quarter ≤ point * step ↔
      (end_ : ℚ) * 2 ^ (exponent - 2) ≤ point * 10 ^ grid := by
    rw [← Nat.cast_le (α := ℚ), Nat.cast_mul, Nat.cast_mul, hquarter, ← mul_assoc,
      mul_le_mul_iff_left₀ hstepq, ← mul_div_assoc, div_le_iff₀ hten]
  have hge (end_ : ℕ) : point * step ≤ end_ * quarter ↔
      (point : ℚ) * 10 ^ grid ≤ end_ * 2 ^ (exponent - 2) := by
    rw [← Nat.cast_le (α := ℚ), Nat.cast_mul, Nat.cast_mul, hquarter, ← mul_assoc,
      mul_le_mul_iff_left₀ hstepq, ← mul_div_assoc, le_div_iff₀ hten]
  rw [Interval.holds, RoundsTo]
  by_cases hclosed : (Interval.of mantissa exponent).closed = true
  · rw [if_pos hclosed, if_pos hclosed, Bool.and_eq_true, decide_eq_true_iff, decide_eq_true_iff,
      hle, hge]
  · rw [if_neg hclosed, if_neg hclosed, Bool.and_eq_true, decide_eq_true_iff, decide_eq_true_iff,
      ← not_le, ← not_le, hle, hge, not_le, not_le]

/-- A point that is found on a grid rounds to the double. -/
theorem roundsTo_of_onGrid? {point : ℕ} (h : onGrid? tie mantissa exponent grid = some point) :
    RoundsTo mantissa exponent (point * 10 ^ grid) := by
  rw [← holds_iff_roundsTo]
  simp only [onGrid?.eq_def] at h
  generalize Nat.pow 2 (exponent - 2).toNat * Nat.pow 10 (-grid).toNat = quarter at *
  generalize Nat.pow 2 (2 - exponent).toNat * Nat.pow 10 grid.toNat = step at *
  generalize Interval.of mantissa exponent = interval at *
  generalize interval.value * quarter / step = below at h
  cases hbelow : interval.holds quarter (below * step) with
  | false =>
    cases habove : interval.holds quarter ((below + 1) * step) with
    | false => simp [hbelow, habove] at h
    | true =>
      simp only [hbelow, habove, Option.some.injEq] at h
      rwa [← h]
  | true =>
    cases habove : interval.holds quarter ((below + 1) * step) with
    | false =>
      simp only [hbelow, habove, Option.some.injEq] at h
      rwa [← h]
    | true =>
      -- both neighbours are in the interval, and one of them is taken
      have hpoint : point = below ∨ point = below + 1 := by
        simp only [hbelow, habove] at h
        split_ifs at h <;> cases tie <;> grind
      rcases hpoint with rfl | rfl
      · exact hbelow
      · exact habove

/-- A grid on which the double itself lies has a point in its interval. -/
theorem isSome_onGrid?_start (tie : Tie) (exponent : ℤ) (hpos : 0 < mantissa) :
    (onGrid? tie mantissa exponent (min exponent 0)).isSome = true := by
  have hvalue : (Interval.of mantissa exponent).value = 4 * mantissa := rfl
  have hhigh : (Interval.of mantissa exponent).high = 4 * mantissa + 2 := rfl
  have hlow : (Interval.of mantissa exponent).low < 4 * mantissa := by
    simp only [Interval.of]
    split <;> omega
  rw [onGrid?.eq_def]
  generalize hquarter : Nat.pow 2 (exponent - 2).toNat * Nat.pow 10 (-min exponent 0).toNat =
    quarter
  generalize hstep : Nat.pow 2 (2 - exponent).toNat * Nat.pow 10 (min exponent 0).toNat = step
  -- the step divides the double, counted in the common unit
  have hdvd : step ∣ 4 * mantissa * quarter := by
    rw [← hquarter, ← hstep]
    have hzero : (min exponent 0).toNat = 0 := by omega
    rw [hzero]
    show 2 ^ (2 - exponent).toNat * 1 ∣ _
    rw [mul_one]
    rcases le_total 0 exponent with hnonneg | hneg
    · refine Dvd.dvd.mul_right (Dvd.dvd.mul_right ?_ mantissa) _
      have hle : (2 - exponent).toNat ≤ 2 := by omega
      exact pow_dvd_pow 2 hle
    · obtain ⟨places, rfl⟩ : ∃ places : ℕ, exponent = -places := ⟨(-exponent).toNat, by omega⟩
      have hten : (-min (-(places : ℤ)) 0).toNat = places := by omega
      have htwo : (2 - -(places : ℤ)).toNat = 2 + places := by omega
      rw [hten, htwo, pow_add]
      have hpow : 2 ^ places ∣ Nat.pow 10 places := pow_dvd_pow_of_dvd (by norm_num) places
      refine mul_dvd_mul (Dvd.intro mantissa rfl) ?_
      exact Dvd.dvd.mul_left hpow _
  have hquarterpos : 0 < quarter := by
    rw [← hquarter]
    exact Nat.mul_pos (Nat.pow_pos two_pos) (Nat.pow_pos (by norm_num))
  have hholds : (Interval.of mantissa exponent).holds quarter
      ((Interval.of mantissa exponent).value * quarter / step * step) = true := by
    rw [hvalue, Nat.div_mul_cancel hdvd, Interval.holds, hhigh]
    have hlower : (Interval.of mantissa exponent).low * quarter < 4 * mantissa * quarter :=
      Nat.mul_lt_mul_of_pos_right hlow hquarterpos
    have hupper : 4 * mantissa * quarter < (4 * mantissa + 2) * quarter :=
      Nat.mul_lt_mul_of_pos_right (by omega) hquarterpos
    split
    · simp [hlower.le, hupper.le]
    · simp [hlower, hupper]
  simp only [hholds]
  split <;> try rfl
  · rename_i habsurd _
    cases habsurd
  · split
    · rfl
    · split
      · rfl
      · cases tie <;> rfl

/-! ## The walk -/

/-- The walk goes up, and every grid it reaches has a point in the interval. -/
theorem coarsestGrid_spec (steps : ℕ) (h : (onGrid? tie mantissa exponent grid).isSome = true) :
    grid ≤ coarsestGrid tie mantissa exponent steps grid ∧
      (onGrid? tie mantissa exponent
        (coarsestGrid tie mantissa exponent steps grid)).isSome = true := by
  induction steps generalizing grid with
  | zero => exact ⟨le_refl _, h⟩
  | succ steps ih =>
    rw [coarsestGrid]
    by_cases hnext : (onGrid? tie mantissa exponent (grid + 1)).isSome = true
    · rw [if_pos hnext]
      obtain ⟨hle, hsome⟩ := ih hnext
      exact ⟨by omega, hsome⟩
    · rw [if_neg hnext]
      exact ⟨le_refl _, h⟩

/-- **The shortest numeral of a double rounds to it**, and its grid is not finer than the one on
which the walk starts. -/
theorem roundsTo_shortest (tie : Tie) (exponent : ℤ) (hpos : 0 < mantissa) :
    RoundsTo mantissa exponent
        ((shortest tie mantissa exponent).1 * 10 ^ (shortest tie mantissa exponent).2) ∧
      min exponent 0 ≤ (shortest tie mantissa exponent).2 := by
  obtain ⟨hle, hsome⟩ := coarsestGrid_spec (mantissa.log2 + 2 + exponent.natAbs)
    (isSome_onGrid?_start tie exponent hpos)
  obtain ⟨point, hpoint⟩ := Option.isSome_iff_exists.1 hsome
  refine ⟨?_, hle⟩
  rw [shortest]
  simp only [hpoint, Option.getD_some]
  exact roundsTo_of_onGrid? hpoint

theorem shortest_pos (tie : Tie) (exponent : ℤ) (hpos : 0 < mantissa) :
    0 < (shortest tie mantissa exponent).1 := by
  have hround := (roundsTo_shortest tie exponent hpos).1.pos hpos
  have hten : (0 : ℚ) < 10 ^ (shortest tie mantissa exponent).2 := zpow_pos (by norm_num) _
  exact_mod_cast (pos_iff_pos_of_mul_pos hround).2 hten

/-- The digits of the shortest numeral, set on the grid on which the walk starts, are at most 53
bits in the last place of the double. -/
theorem shortest_mul_pow_le (tie : Tie) (hfits : Fits mantissa exponent) (hpos : 0 < mantissa) :
    ((shortest tie mantissa exponent).1 : ℚ) * 10 ^ min exponent 0 ≤ 2 ^ 53 * 2 ^ exponent := by
  obtain ⟨hround, hgrid⟩ := roundsTo_shortest tie exponent hpos
  generalize (shortest tie mantissa exponent).1 = digits at *
  generalize (shortest tie mantissa exponent).2 = grid at *
  have hunit : (0 : ℚ) < 2 ^ exponent := zpow_pos two_pos _
  have hmantissa : (mantissa : ℚ) + 1 ≤ 2 ^ 53 := by exact_mod_cast hfits.lt
  have hhalf : (mantissa : ℚ) + 1 / 2 ≤ 2 ^ 53 := by linarith
  have hmono : (10 : ℚ) ^ min exponent 0 ≤ 10 ^ grid := zpow_le_zpow_right₀ (by norm_num) hgrid
  calc (digits : ℚ) * 10 ^ min exponent 0 ≤ digits * 10 ^ grid :=
        mul_le_mul_of_nonneg_left hmono (Nat.cast_nonneg digits)
    _ ≤ (mantissa + 1 / 2) * 2 ^ exponent := (div_le_iff₀ hunit).1 (hround.bounds hpos).1.2
    _ ≤ 2 ^ 53 * 2 ^ exponent := mul_le_mul_of_nonneg_right hhalf hunit.le

/-- The digits of the shortest numeral have at most 768 places. -/
theorem digits_shortest_lt (tie : Tie) (hfits : Fits mantissa exponent) (hpos : 0 < mantissa) :
    (shortest tie mantissa exponent).1 < 10 ^ 768 := by
  have hscale := shortest_mul_pow_le tie hfits hpos
  generalize (shortest tie mantissa exponent).1 = digits at *
  have hgreatest := hfits.greatest
  have hleast := hfits.least
  rcases le_total 0 exponent with hnonneg | hneg
  · -- the double is an integer of at most 1024 bits
    obtain ⟨places, rfl⟩ : ∃ places : ℕ, exponent = places := ⟨exponent.toNat, by omega⟩
    rw [min_eq_right hnonneg, zpow_zero, mul_one, zpow_natCast] at hscale
    have hnat : digits ≤ 2 ^ 53 * 2 ^ places := by exact_mod_cast hscale
    calc digits ≤ 2 ^ 53 * 2 ^ places := hnat
      _ = 2 ^ (53 + places) := (pow_add ..).symm
      _ < 10 ^ 768 := two_pow_lt_ten_pow (by omega)
  · -- the twos of the power of ten cancel those of the double, and its fives are left
    obtain ⟨places, rfl⟩ : ∃ places : ℕ, exponent = -places := ⟨(-exponent).toNat, by omega⟩
    have hplaces : places ≤ 1074 := by
      rw [leastExponent] at hleast
      omega
    rw [min_eq_left hneg, zpow_neg, zpow_neg, zpow_natCast, zpow_natCast, ← div_eq_mul_inv,
      ← div_eq_mul_inv, div_le_div_iff₀ (by positivity) (by positivity)] at hscale
    have hfive : (digits : ℚ) ≤ 2 ^ 53 * 5 ^ places := by
      have hten : (10 : ℚ) ^ places = 5 ^ places * 2 ^ places := by
        rw [← mul_pow]
        norm_num
      rw [hten, ← mul_assoc, mul_le_mul_iff_left₀ (by positivity)] at hscale
      exact hscale
    have hnat : digits ≤ 2 ^ 53 * 5 ^ places := by exact_mod_cast hfive
    calc digits ≤ 2 ^ 53 * 5 ^ places := hnat
      _ < 10 ^ 768 := two_pow_mul_five_pow_lt_ten_pow (by norm_num) (by omega)

end Decimal
end ProductionRates
