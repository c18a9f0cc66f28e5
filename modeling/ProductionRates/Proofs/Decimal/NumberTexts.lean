import ProductionRates.Proofs.Decimal.Numerals
import ProductionRates.Proofs.Decimal.WholeNumbers

/-!
# Numbers are told apart by their texts

A number has two texts: as an integer if it is a whole one, and otherwise with as few digits as tell
it apart.  Whichever is taken, numbers with the same text are equal, but for the two zeros and for
NaN, which is left out.

* `SameNumber` — numbers that are equal but for the sign of a zero;
* `Shows` — the characters are a sign, and a numeral that rounds to the number or the name of
  infinity;
* `Shows.same` — they show one number only;
* `shows_message`, `shows_whole` — both texts show the number.
-/

namespace ProductionRates
namespace Decimal

open Float.Model (Format UnpackedFloat)

variable {x y z : Float} {cs whole fraction : List Char}

/-! ## Zeros -/

/-- Numbers that are equal but for the sign of a zero. -/
def SameNumber (x y : Float) : Prop := x = y ∨ (x = 0 ∧ y = -0) ∨ (x = -0 ∧ y = 0)

namespace SameNumber

theorem refl (x : Float) : SameNumber x x := .inl rfl

theorem symm (h : SameNumber x y) : SameNumber y x := by
  rcases h with rfl | ⟨rfl, rfl⟩ | ⟨rfl, rfl⟩
  · exact .inl rfl
  · exact .inr (.inr ⟨rfl, rfl⟩)
  · exact .inr (.inl ⟨rfl, rfl⟩)

theorem trans (h : SameNumber x y) (hnext : SameNumber y z) : SameNumber x z := by
  unfold SameNumber at *
  grind

/-- What is the same of both zeros is the same of numbers that are equal but for their signs. -/
theorem congr {α : Type} (f : Float → α) (hzero : f 0 = f (-0)) (h : SameNumber x y) :
    f x = f y := by
  rcases h with rfl | ⟨rfl, rfl⟩ | ⟨rfl, rfl⟩
  · rfl
  · exact hzero
  · exact hzero.symm

theorem isNaN_eq (h : SameNumber x y) : x.isNaN = y.isNaN :=
  h.congr Float.isNaN (by decide +kernel)

end SameNumber

/-! ## Infinities and NaN -/

/-- A double is told by how it is unpacked. -/
theorem eq_of_unpack (h : x.toModel.unpack = y.toModel.unpack) : x = y := by
  have hbits (z : Float) : UnpackedFloat.pack Format.binary64 z.toModel.unpack =
      z.toBits.toBitVec := UnpackedFloat.pack_unpack_of_valid z.toModel.valid
  rw [← Float.toBits_inj, ← UInt64.toBitVec_inj, ← hbits, ← hbits, h]

theorem eq_of_infinite {negative : Bool} (hx : Exact.ofFloat x = .infinite negative)
    (hy : Exact.ofFloat y = .infinite negative) : x = y := by
  have hsign {z : Float} (hz : Exact.ofFloat z = .infinite negative) :
      z.toModel.unpack = .infinity (if negative then .negative else .positive) := by
    rw [Exact.ofFloat_eq] at hz
    cases hunpack : z.toModel.unpack with
    | infinity sign =>
      rw [hunpack] at hz
      cases sign <;> cases hz <;> rfl
    | notANumber => rw [hunpack] at hz; cases hz
    | zero sign => rw [hunpack] at hz; cases hz
    | finite sign mantissa exponent hpos => rw [hunpack] at hz; cases hz
  exact eq_of_unpack ((hsign hx).trans (hsign hy).symm)

/-- What is finite is no NaN. -/
theorem isNaN_of_isFinite (h : isFinite x = true) : x.isNaN = false := by
  rw [Float.isNaN_eq_decide_eq_nan, decide_eq_false_iff_not]
  rintro rfl
  revert h
  decide +kernel

theorem isNaN_of_ofFloat (h : Exact.ofFloat x = .nan) : x.isNaN = true := by
  rw [Exact.ofFloat_eq] at h
  show x.toModel.unpack.isNaN = true
  cases hunpack : x.toModel.unpack with
  | notANumber => rfl
  | _ => rw [hunpack] at h; cases h

/-! ## Numerals -/

/-- A numeral rounds to one double only. -/
theorem IsNear.eq (hx : IsNear (numeralValue whole fraction []) x)
    (hy : IsNear (numeralValue whole fraction []) y) : x = y := by
  have hread {z : Float} (hz : IsNear (numeralValue whole fraction []) z) :
      Numeral.toFloat ⟨numeralDigits whole fraction, numeralPlace fraction []⟩ = z := by
    rw [numeralValue] at hz
    exact IsNear.toFloat_eq hz
  exact (hread hx).symm.trans (hread hy)

/-- The characters of a numeral without a power are put together in one way only. -/
theorem IsNumeral.parts_eq {other more : List Char} (h : IsNumeral whole fraction [])
    (hother : IsNumeral other more []) (hsame : whole ++ fraction = other ++ more) :
    whole = other ∧ fraction = more := by
  have hstop {digits cs : List Char} (h : IsNumeral digits cs []) : StopsAt Char.isDigit cs := by
    rcases h.fraction_digits with rfl | ⟨rest, -, -, rfl⟩ <;> simp
  have hwhole : whole = other := by
    rw [← takeWhile_append_of_stop h.whole_digits (hstop h), hsame,
      takeWhile_append_of_stop hother.whole_digits (hstop hother)]
  subst hwhole
  exact ⟨rfl, List.append_cancel_left hsame⟩

/-- A sign, if there is one, and a numeral. -/
def signed (negative : Bool) (cs : List Char) : List Char :=
  (if negative then ['-'] else []) ++ cs

/-- No numeral begins with a sign. -/
theorem IsNumeral.ne_minus (h : IsNumeral whole fraction []) (rest : List Char) :
    whole ++ fraction ≠ '-' :: rest := by
  intro hminus
  obtain ⟨c, digits, rfl⟩ := List.exists_cons_of_ne_nil h.whole_ne_nil
  obtain rfl : c = '-' := (List.cons.inj hminus).1
  exact absurd (h.whole_digits '-' (List.mem_cons_self ..)) (by decide)

/-- The sign is told from what follows, unless that begins with one. -/
theorem signed_inj {negative minus : Bool} {ds : List Char} (hcs : ∀ rest, cs ≠ '-' :: rest)
    (hds : ∀ rest, ds ≠ '-' :: rest) (h : signed negative cs = signed minus ds) :
    negative = minus ∧ cs = ds := by
  cases negative <;> cases minus
  · exact ⟨rfl, h⟩
  · exact absurd h (hcs _)
  · exact absurd h.symm (hds _)
  · exact ⟨rfl, (List.cons.inj h).2⟩

/-- No numeral is the name of infinity. -/
theorem IsNumeral.ne_infinity (h : IsNumeral whole fraction []) :
    whole ++ fraction ≠ ['i', 'n', 'f'] := by
  intro hinfinity
  obtain ⟨c, digits, rfl⟩ := List.exists_cons_of_ne_nil h.whole_ne_nil
  obtain rfl : c = 'i' := (List.cons.inj hinfinity).1
  exact absurd (h.whole_digits 'i' (List.mem_cons_self ..)) (by decide)

/-! ## What characters show -/

/-- The characters show a number, after its sign if it has one. -/
inductive Shows (x : Float) : List Char → Prop where
  /-- A numeral that rounds to the number.  A zero may lack its sign. -/
  | numeral {negative : Bool} {y : Float} {whole fraction : List Char}
      (hsign : SameNumber x (if negative then -y else y)) (hnumeral : IsNumeral whole fraction [])
      (hnear : IsNear (numeralValue whole fraction []) y) :
      Shows x (signed negative (whole ++ fraction))
  /-- The name of infinity. -/
  | infinity {negative : Bool} (h : Exact.ofFloat x = .infinite negative) :
      Shows x (signed negative ['i', 'n', 'f'])

/-- **Characters show one number only.** -/
theorem Shows.same (hx : Shows x cs) (hy : Shows y cs) : SameNumber x y := by
  cases hx with
  | numeral hsign hnumeral hnear =>
    generalize hchars : signed _ _ = other at hy
    cases hy with
    | numeral hother hnext hround =>
      obtain ⟨rfl, hsame⟩ := signed_inj hnumeral.ne_minus hnext.ne_minus hchars
      obtain ⟨rfl, rfl⟩ := hnumeral.parts_eq hnext hsame
      obtain rfl := IsNear.eq hnear hround
      exact hsign.trans hother.symm
    | infinity h =>
      obtain ⟨-, hsame⟩ := signed_inj hnumeral.ne_minus (by simp) hchars
      exact absurd hsame hnumeral.ne_infinity
  | infinity h =>
    generalize hchars : signed _ _ = other at hy
    cases hy with
    | numeral hother hnumeral hround =>
      obtain ⟨-, hsame⟩ := signed_inj (by simp) hnumeral.ne_minus hchars
      exact absurd hsame.symm hnumeral.ne_infinity
    | infinity hother =>
      obtain ⟨rfl, -⟩ := signed_inj (by simp) (by simp) hchars
      exact .inl (eq_of_infinite h hother)

/-- A number that is no NaN is shown as in messages. -/
theorem shows_message (hx : x.isNaN = false) : Shows x (Layout.message.chars x) := by
  cases hfinite : isFinite x with
  | true =>
    obtain ⟨negative, y, digits, grid, hsign, hnear, -, hpos, hchars⟩ :=
      exists_setDigits Layout.message hfinite
    obtain ⟨whole, fraction, hset, hnumeral, hvalue⟩ := setDigits_message hpos
    rw [hchars, hset]
    exact .numeral (.inl hsign.symm) hnumeral (hvalue ▸ hnear)
  | false =>
    rw [isFinite] at hfinite
    rw [Layout.chars]
    cases hexact : Exact.ofFloat x with
    | nan => rw [isNaN_of_ofFloat hexact] at hx; cases hx
    | infinite negative =>
      have hchars : Layout.message.infinite negative = signed negative ['i', 'n', 'f'] := by
        cases negative <;> rfl
      show Shows x (Layout.message.infinite negative)
      rw [hchars]
      exact .infinity hexact
    | finite negative mantissa exponent => simp [hexact] at hfinite

/-! ## Whole numbers -/

/-- An integer is written as its sign and its digits. -/
theorem toList_toString (n : ℤ) :
    (toString n).toList = signed (decide (n < 0)) (Nat.toDigits 10 n.natAbs) := by
  have hdigits (m : ℕ) : (toString m).toList = Nat.toDigits 10 m := by
    rw [Nat.toString_eq_ofList_toDigits, String.toList_ofList]
  cases n with
  | ofNat m => exact hdigits m
  | negSucc m =>
    show ("-" ++ toString (m + 1)).toList = _
    rw [String.toList_append, hdigits, decide_eq_true (Int.negSucc_lt_zero m)]
    rfl

/-- The magnitude of a whole number. -/
theorem exists_magnitude_of_wholeNumber? {n : ℤ} (h : wholeNumber? x = some n) :
    ∃ (negative : Bool) (y : Float), (if negative then -y else y) = x ∧
      IsNear n.natAbs y ∧ (n = if negative then -(n.natAbs : ℤ) else n.natAbs) := by
  obtain ⟨hfinite, hvalue, -⟩ := wholeNumber?_eq_some_iff.1 h
  rw [isFinite] at hfinite
  cases hexact : Exact.ofFloat x with
  | nan => simp [hexact] at hfinite
  | infinite negative => simp [hexact] at hfinite
  | finite negative mantissa exponent =>
    obtain ⟨y, hy, hsign⟩ := exists_magnitude hexact
    have hpower : (0 : ℚ) ≤ mantissa * 2 ^ exponent := by positivity
    rw [hexact, Exact.toRat, mul_assoc] at hvalue
    have hmagnitude : (n.natAbs : ℚ) = mantissa * 2 ^ exponent := by
      rw [Nat.cast_natAbs, Int.cast_abs, ← hvalue]
      cases negative <;> simp [abs_of_nonneg hpower]
    refine ⟨negative, y, hsign, ⟨mantissa, exponent, hy, ?_⟩, ?_⟩
    · split
      · rename_i hzero
        rw [hmagnitude, hzero, Nat.cast_zero, zero_mul]
      · rename_i hsome
        rw [hmagnitude]
        exact roundsTo_self exponent (Nat.pos_of_ne_zero hsome)
    · have hrat : (n : ℚ) = ((if negative then -(n.natAbs : ℤ) else n.natAbs : ℤ) : ℚ) := by
        rw [← hvalue, ← hmagnitude]
        cases negative <;> simp
      exact_mod_cast hrat

/-- A whole number is shown as an integer. -/
theorem shows_whole {n : ℤ} (h : wholeNumber? x = some n) : Shows x (toString n).toList := by
  obtain ⟨negative, y, hsign, hnear, hn⟩ := exists_magnitude_of_wholeNumber? h
  have hvalue : numeralValue (Nat.toDigits 10 n.natAbs) [] [] = n.natAbs := by
    simp [numeralValue, numeralDigits, numeralPlace]
  rw [toList_toString, ← List.append_nil (Nat.toDigits 10 n.natAbs)]
  refine .numeral (y := y) ?_ (isNumeral_toDigits n.natAbs) (hvalue ▸ hnear)
  rw [← hsign]
  by_cases hneg : n < 0
  · -- below zero there is a sign
    cases negative with
    | true => rw [decide_eq_true hneg]; exact .refl _
    | false =>
      rw [if_neg Bool.false_ne_true] at hn
      omega
  · rw [decide_eq_false hneg]
    cases negative with
    | false => exact .refl _
    | true =>
      -- only a zero may have a sign without being below zero
      rw [if_pos rfl] at hn
      have hzero : n.natAbs = 0 := by omega
      rw [hzero] at hnear
      have hy : y = 0 := (IsNear.toFloat_eq (n := ⟨0, 0⟩) (by simpa using hnear)).symm
      rw [hy]
      exact .inr (.inr ⟨rfl, rfl⟩)

end Decimal
end ProductionRates
