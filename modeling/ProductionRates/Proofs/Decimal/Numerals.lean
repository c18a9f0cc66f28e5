import ProductionRates.Decimal.Layout
import ProductionRates.Proofs.Decimal.Digits
import ProductionRates.Proofs.Decimal.ReadBack

/-!
# Numbers that are laid out

What a `Layout` makes of a finite double is a numeral: digits, perhaps a point and more digits,
perhaps a mark and a power of ten.  The number that the numeral stands for rounds to the double
without its sign.

* `IsNumeral`, `numeralValue` — the parts of a numeral and the number that they stand for;
* `IsNear` — a number that rounds to a double;
* `exists_setDigits` — a double by the digits that are set;
* `setDigits_exchange`, `setDigits_message` — the parts that each layout sets.
-/

namespace ProductionRates
namespace Decimal

/-! ## Parts of a numeral -/

/-- The parts of a numeral: the fraction stands with its point and the power with its mark, and
each of the two may be empty. -/
structure IsNumeral (whole fraction power : List Char) : Prop where
  /-- There is a digit before the point. -/
  whole_ne_nil : whole ≠ []
  /-- Digits stand before the point. -/
  whole_digits : AllDigits whole
  /-- No zero stands before another digit. -/
  whole_leading : whole = ['0'] ∨ whole.head? ≠ some '0'
  /-- Digits stand after the point. -/
  fraction_digits : fraction = [] ∨
    ∃ digits, digits ≠ [] ∧ AllDigits digits ∧ fraction = '.' :: digits
  /-- A sign and digits stand after the mark. -/
  power_digits : power = [] ∨ ∃ e : ℤ, power = 'e' :: Layout.signedExponent e

/-- The digits of a numeral, read as one natural number. -/
def numeralDigits (whole fraction : List Char) : ℕ := natOfDigits 10 (whole ++ fraction.drop 1)

/-- The power of ten that the digits of a numeral count. -/
def numeralPlace (fraction power : List Char) : ℤ :=
  Numeral.powerOfChars (natOfDigits 10) (power.drop 1) - (fraction.drop 1).length

/-- The number that the parts of a numeral stand for. -/
def numeralValue (whole fraction power : List Char) : ℚ :=
  numeralDigits whole fraction * 10 ^ numeralPlace fraction power

@[simp] theorem powerOfChars_nil : Numeral.powerOfChars (natOfDigits 10) [] = 0 := rfl

@[simp] theorem powerOfChars_signedExponent (e : ℤ) :
    Numeral.powerOfChars (natOfDigits 10) (Layout.signedExponent e) = e := by
  rw [Layout.signedExponent]
  split
  · rw [Numeral.powerOfChars, natOfDigits_toDigits]
    omega
  · rw [Numeral.powerOfChars, natOfDigits_toDigits]
    omega

/-- The digits of a natural number are a numeral. -/
theorem isNumeral_toDigits (n : ℕ) : IsNumeral (Nat.toDigits 10 n) [] [] := by
  refine ⟨Nat.toDigits_ne_nil, allDigits_toDigits n, ?_, .inl rfl, .inl rfl⟩
  rcases Nat.eq_zero_or_pos n with rfl | hpos
  · exact .inl (Nat.toDigits_zero 10)
  · exact .inr (head?_toDigits_ne hpos)

/-! ## What rounds to a double -/

/-- A number that rounds to a double without a sign. -/
def IsNear (q : ℚ) (x : Float) : Prop :=
  ∃ mantissa exponent, Exact.ofFloat x = .finite false mantissa exponent ∧
    if mantissa = 0 then q = 0 else RoundsTo mantissa exponent q

/-- **A numeral that rounds to a double reads as that double.** -/
theorem IsNear.toFloat_eq {n : Numeral} {x : Float} (h : IsNear (n.digits * 10 ^ n.exponent) x) :
    n.toFloat = x := by
  obtain ⟨mantissa, exponent, hx, hround⟩ := h
  by_cases hzero : mantissa = 0
  · rw [if_pos hzero] at hround
    have hpower : (10 : ℚ) ^ n.exponent ≠ 0 := zpow_ne_zero _ (by norm_num)
    have hdigits : n.digits = 0 := by
      exact_mod_cast (mul_eq_zero.1 hround).resolve_right hpower
    rw [hzero] at hx
    exact Numeral.toFloat_zero hx hdigits
  · rw [if_neg hzero] at hround
    exact Numeral.toFloat_eq hx (Nat.pos_of_ne_zero hzero) hround

/-- A finite double is laid out by digits that round to it, after its sign. -/
theorem exists_setDigits (layout : Layout) {x : Float} (hx : isFinite x = true) :
    ∃ (negative : Bool) (y : Float) (digits : ℕ) (grid : ℤ),
      (if negative then -y else y) = x ∧ IsNear (digits * 10 ^ grid) y ∧
      digits < 10 ^ 768 ∧ (0 < digits ∨ grid = 0) ∧
      layout.chars x = (if negative then ['-'] else []) ++
        layout.setDigits (Nat.toDigits 10 digits) grid := by
  obtain ⟨negative, mantissa, exponent, hexact⟩ :
      ∃ negative mantissa exponent, Exact.ofFloat x = .finite negative mantissa exponent := by
    rw [isFinite] at hx
    cases hexact : Exact.ofFloat x with
    | nan => simp [hexact] at hx
    | infinite negative => simp [hexact] at hx
    | finite negative mantissa exponent => exact ⟨negative, mantissa, exponent, rfl⟩
  obtain ⟨y, hy, hsign⟩ := exists_magnitude hexact
  rw [Layout.chars, hexact]
  dsimp only
  by_cases hzero : mantissa = 0
  · refine ⟨negative, y, 0, 0, hsign, ⟨mantissa, exponent, hy, ?_⟩, by positivity, .inr rfl, ?_⟩
    · simp [hzero]
    · rw [if_pos hzero, Nat.toDigits_zero]
      cases negative <;> rfl
  · have hpos := Nat.pos_of_ne_zero hzero
    obtain ⟨hround, -⟩ := roundsTo_shortest layout.tie exponent hpos
    have hdigits := digits_shortest_lt layout.tie (Exact.fits hexact) hpos
    have hsome := shortest_pos layout.tie exponent hpos
    refine ⟨negative, y, (shortest layout.tie mantissa exponent).1,
      (shortest layout.tie mantissa exponent).2, hsign, ⟨mantissa, exponent, hy, ?_⟩, hdigits,
      .inl hsome, ?_⟩
    · rwa [if_neg hzero]
    · rw [if_neg hzero]
      cases negative <;> rfl

/-! ## Digits that are set -/

section Shapes

variable {n : ℕ} {grid : ℤ}

theorem natOfDigits_toDigits_zeros (count : ℕ) :
    natOfDigits 10 (Nat.toDigits 10 n ++ List.replicate count '0') = n * 10 ^ count := by
  simp [natOfDigits_append]

/-- All digits before the point. -/
theorem isNumeral_whole (hgrid : 0 ≤ grid) (hn : 0 < n ∨ grid = 0) {ending : List Char}
    (hending : ending = [] ∨ ending = ['.', '0']) :
    IsNumeral (Nat.toDigits 10 n ++ List.replicate grid.toNat '0') ending [] ∧
      numeralValue (Nat.toDigits 10 n ++ List.replicate grid.toNat '0') ending [] =
        n * 10 ^ grid := by
  obtain ⟨count, rfl⟩ : ∃ count : ℕ, grid = count := ⟨grid.toNat, by omega⟩
  rw [Int.toNat_natCast]
  constructor
  · refine ⟨by simp [Nat.toDigits_ne_nil], (allDigits_toDigits n).append
      (allDigits_replicate_zero count), ?_, ?_, .inl rfl⟩
    · rcases Nat.eq_zero_or_pos n with hzero | hpos
      · have hcount : count = 0 := by omega
        left
        rw [hzero, hcount, Nat.toDigits_zero]
        rfl
      · right
        rw [List.head?_append_of_ne_nil _ Nat.toDigits_ne_nil]
        exact head?_toDigits_ne hpos
    · rcases hending with rfl | rfl
      · exact .inl rfl
      · exact .inr ⟨['0'], by simp, allDigits_replicate_zero 1, rfl⟩
  · rcases hending with rfl | rfl
    · simp [numeralValue, numeralDigits, numeralPlace, natOfDigits_toDigits_zeros]
    · have hdigits : numeralDigits (Nat.toDigits 10 n ++ List.replicate count '0') ['.', '0'] =
          n * 10 ^ count * 10 := by
        rw [numeralDigits, natOfDigits_append, natOfDigits_toDigits_zeros]
        rfl
      have hplace : (10 : ℚ) ^ numeralPlace ['.', '0'] [] = 1 / 10 := by
        rw [show numeralPlace ['.', '0'] [] = -1 from rfl]
        norm_num
      rw [numeralValue, hdigits, hplace, zpow_natCast]
      push_cast
      ring

/-- A point between the digits. -/
theorem isNumeral_inside (hgrid : grid < 0) (hn : 0 < n)
    (hpoint : 0 < (Nat.toDigits 10 n).length + grid) (place : ℕ)
    (hplace : (place : ℤ) = (Nat.toDigits 10 n).length + grid) :
    IsNumeral ((Nat.toDigits 10 n).take place) ('.' :: (Nat.toDigits 10 n).drop place) [] ∧
      numeralDigits ((Nat.toDigits 10 n).take place) ('.' :: (Nat.toDigits 10 n).drop place) = n ∧
      numeralPlace ('.' :: (Nat.toDigits 10 n).drop place) [] = grid := by
  have hdigits := allDigits_toDigits n
  have hhead := head?_toDigits_ne hn
  have hvalue := natOfDigits_toDigits n
  generalize Nat.toDigits 10 n = digits at *
  refine ⟨?_, ?_, ?_⟩
  · refine ⟨?_, hdigits.take place, .inr ?_, .inr ⟨_, ?_, hdigits.drop place, rfl⟩, .inl rfl⟩
    · intro hempty
      have hlength := congrArg List.length hempty
      rw [List.length_take, List.length_nil] at hlength
      omega
    · rw [List.head?_take, if_neg (by omega)]
      exact hhead
    · intro hempty
      have hlength := congrArg List.length hempty
      rw [List.length_drop, List.length_nil] at hlength
      omega
  · rw [numeralDigits, List.drop_one, List.tail_cons, List.take_append_drop, hvalue]
  · show (0 : ℤ) - ((digits.drop place).length : ℤ) = grid
    rw [List.length_drop]
    omega

/-- Zeros between the point and the digits. -/
theorem isNumeral_below (n : ℕ) (grid : ℤ) (zeros : ℕ)
    (hzeros : (zeros : ℤ) = -((Nat.toDigits 10 n).length + grid)) :
    IsNumeral ['0'] ('.' :: (List.replicate zeros '0' ++ Nat.toDigits 10 n)) [] ∧
      numeralDigits ['0'] ('.' :: (List.replicate zeros '0' ++ Nat.toDigits 10 n)) = n ∧
      numeralPlace ('.' :: (List.replicate zeros '0' ++ Nat.toDigits 10 n)) [] = grid := by
  refine ⟨?_, ?_, ?_⟩
  · refine ⟨by simp, allDigits_replicate_zero 1, .inl rfl, .inr ⟨_, ?_,
      (allDigits_replicate_zero zeros).append (allDigits_toDigits n), rfl⟩, .inl rfl⟩
    simp [Nat.toDigits_ne_nil]
  · rw [numeralDigits, List.drop_one, List.tail_cons, natOfDigits_append, natOfDigits_append,
      natOfDigits_replicate_zero, natOfDigits_toDigits]
    simp [natOfDigits, digitValue]
  · show (0 : ℤ) - ((List.replicate zeros '0' ++ Nat.toDigits 10 n).length : ℤ) = grid
    rw [List.length_append, List.length_replicate]
    push_cast
    omega

/-- One digit before the point and a power. -/
theorem isNumeral_power (grid : ℤ) (hn : 0 < n) {fraction : List Char}
    (hfraction : fraction = if ((Nat.toDigits 10 n).drop 1).isEmpty then []
      else '.' :: (Nat.toDigits 10 n).drop 1) :
    IsNumeral ((Nat.toDigits 10 n).take 1) fraction
        ('e' :: Layout.signedExponent ((Nat.toDigits 10 n).length + grid - 1)) ∧
      numeralDigits ((Nat.toDigits 10 n).take 1) fraction = n ∧
      numeralPlace fraction
        ('e' :: Layout.signedExponent ((Nat.toDigits 10 n).length + grid - 1)) = grid := by
  have hdigits := allDigits_toDigits n
  have hhead := head?_toDigits_ne hn
  have hvalue := natOfDigits_toDigits n
  have hlength : 0 < (Nat.toDigits 10 n).length := Nat.length_toDigits_pos
  generalize Nat.toDigits 10 n = digits at *
  have hdrop : fraction.drop 1 = digits.drop 1 := by
    by_cases hempty : (digits.drop 1).isEmpty = true
    · rw [hfraction, if_pos hempty, List.isEmpty_iff.1 hempty]
      rfl
    · rw [hfraction, if_neg hempty]
      rfl
  refine ⟨?_, ?_, ?_⟩
  · refine ⟨?_, hdigits.take 1, .inr ?_, ?_, .inr ⟨_, rfl⟩⟩
    · intro hempty
      have hlength := congrArg List.length hempty
      rw [List.length_take, List.length_nil] at hlength
      omega
    · rw [List.head?_take, if_neg (by omega)]
      exact hhead
    · by_cases hempty : (digits.drop 1).isEmpty = true
      · exact .inl (by rw [hfraction, if_pos hempty])
      · refine .inr ⟨_, ?_, hdigits.drop 1, by rw [hfraction, if_neg hempty]⟩
        simpa using hempty
  · rw [numeralDigits, hdrop, List.take_append_drop, hvalue]
  · rw [numeralPlace, hdrop, List.drop_one, List.tail_cons, powerOfChars_signedExponent,
      List.length_drop]
    omega

/-- What is set for an exchange is a numeral with a fraction or a power, of few digits. -/
theorem setDigits_exchange (hn : 0 < n ∨ grid = 0) (hshort : n < 10 ^ 768) :
    ∃ whole fraction power,
      Layout.exchange.setDigits (Nat.toDigits 10 n) grid = whole ++ fraction ++ power ∧
        IsNumeral whole fraction power ∧ numeralValue whole fraction power = n * 10 ^ grid ∧
        ¬ (fraction = [] ∧ power = []) ∧ numeralDigits whole fraction < 10 ^ 768 := by
  have hnpos : grid < 0 → 0 < n := fun hneg => hn.resolve_right hneg.ne
  rw [Layout.setDigits]
  dsimp only
  by_cases hpositional : Layout.exchange.positional ((Nat.toDigits 10 n).length + grid - 1) = true
  · rw [if_pos hpositional]
    split_ifs with hgrid hpoint
    · obtain ⟨hnumeral, hvalue⟩ := isNumeral_whole hgrid hn (.inr rfl)
      refine ⟨_, ['.', '0'], [], (List.append_nil _).symm, hnumeral, hvalue, by simp, ?_⟩
      have hfew : (Nat.toDigits 10 n).length + grid - 1 < 16 :=
        of_decide_eq_true (Bool.and_eq_true_iff.1 hpositional).2
      have hdigits := hnumeral.whole_digits.append (allDigits_replicate_zero 1)
      have hlength : (Nat.toDigits 10 n ++ List.replicate grid.toNat '0' ++ ['0']).length ≤ 17 := by
        simp only [List.length_append, List.length_replicate, List.length_cons, List.length_nil]
        omega
      calc numeralDigits (Nat.toDigits 10 n ++ List.replicate grid.toNat '0') ['.', '0']
          < 10 ^ (Nat.toDigits 10 n ++ List.replicate grid.toNat '0' ++ ['0']).length :=
            natOfDigits_lt hdigits
        _ ≤ 10 ^ 768 := pow_le_pow_right₀ (by norm_num) (hlength.trans (by norm_num))
    · obtain ⟨hnumeral, hdigits, hplace⟩ := isNumeral_inside (not_le.1 hgrid)
        (hnpos (not_le.1 hgrid)) hpoint ((Nat.toDigits 10 n).length + grid).toNat
        (by omega)
      refine ⟨_, _, [], (List.append_nil _).symm, hnumeral, ?_, by simp, ?_⟩
      · rw [numeralValue, hdigits, hplace]
      · rwa [hdigits]
    · obtain ⟨hnumeral, hdigits, hplace⟩ := isNumeral_below n grid
        (-((Nat.toDigits 10 n).length + grid)).toNat (by omega)
      refine ⟨['0'], _, [], (List.append_nil _).symm, hnumeral, ?_, by simp, ?_⟩
      · rw [numeralValue, hdigits, hplace]
      · rwa [hdigits]
  · rw [if_neg hpositional]
    have hpos : 0 < n := by
      rcases Nat.eq_zero_or_pos n with rfl | hpos
      · obtain rfl : grid = 0 := by omega
        exact absurd rfl hpositional
      · exact hpos
    obtain ⟨hnumeral, hdigits, hplace⟩ := isNumeral_power grid hpos rfl
    refine ⟨_, _, _, rfl, hnumeral, ?_, by simp, ?_⟩
    · rw [numeralValue, hdigits, hplace]
    · rwa [hdigits]

/-- What is set for a message is a numeral without a power. -/
theorem setDigits_message (hn : 0 < n ∨ grid = 0) :
    ∃ whole fraction, Layout.message.setDigits (Nat.toDigits 10 n) grid = whole ++ fraction ∧
      IsNumeral whole fraction [] ∧ numeralValue whole fraction [] = n * 10 ^ grid := by
  have hnpos : grid < 0 → 0 < n := fun hneg => hn.resolve_right hneg.ne
  rw [Layout.setDigits]
  dsimp only
  have hpositional :
      Layout.message.positional ((Nat.toDigits 10 n).length + grid - 1) = true := rfl
  rw [if_pos hpositional]
  split_ifs with hgrid hpoint
  · obtain ⟨hnumeral, hvalue⟩ := isNumeral_whole hgrid hn (.inl rfl)
    exact ⟨_, [], rfl, hnumeral, hvalue⟩
  · obtain ⟨hnumeral, hdigits, hplace⟩ := isNumeral_inside (not_le.1 hgrid)
      (hnpos (not_le.1 hgrid)) hpoint ((Nat.toDigits 10 n).length + grid).toNat
      (by omega)
    exact ⟨_, _, rfl, hnumeral, by rw [numeralValue, hdigits, hplace]⟩
  · obtain ⟨hnumeral, hdigits, hplace⟩ := isNumeral_below n grid
      (-((Nat.toDigits 10 n).length + grid)).toNat (by omega)
    exact ⟨['0'], _, rfl, hnumeral, by rw [numeralValue, hdigits, hplace]⟩

end Shapes

end Decimal
end ProductionRates
