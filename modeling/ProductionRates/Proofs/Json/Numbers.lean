import ProductionRates.Json.Reader
import ProductionRates.Json.Writer
import ProductionRates.Proofs.Decimal.Numerals

/-!
# Numbers in JSON texts are read back

A number is read up to the first character that cannot belong to it, and what `Json.write` puts
after a number is always such a character.

* `unsigned?_append` — a numeral is taken apart into its parts;
* `magnitude_eq` — its parts come to the double that the numeral rounds to;
* `numeral?_chars`, `numeral?_intChars` — what is written for a double or an integer is read as it.
-/

namespace ProductionRates
namespace Json

open Decimal

/-- Characters that may go on with a number. -/
def goesOn (c : Char) : Bool := c.isDigit || c = '.' || c = 'e' || c = 'E'

variable {whole fraction power rest : List Char}

theorem stopsAt_isDigit (h : StopsAt goesOn rest) : StopsAt Char.isDigit rest :=
  StopsAt.of_imp h fun c hc => by simp [goesOn, hc]

/-! ## Parts -/

theorem digits?_append {digits : List Char} (hdigits : AllDigits digits) (hne : digits ≠ [])
    (hrest : StopsAt Char.isDigit rest) : digits? (digits ++ rest) = some (digits, rest) := by
  rw [digits?, takeWhile_append_of_stop hdigits hrest, dropWhile_append_of_stop hdigits hrest]
  cases digits with
  | nil => exact absurd rfl hne
  | cons c digits => rfl

theorem whole?_append (h : IsNumeral whole fraction power) (hrest : StopsAt Char.isDigit rest) :
    whole? (whole ++ rest) = some (whole, rest) := by
  rcases h.whole_leading with rfl | hhead
  · cases rest with
    | nil => rfl
    | cons c rest =>
      have hc : c.isDigit = false := stopsAt_cons.1 hrest
      simp [whole?, hc]
  · have hread := digits?_append h.whole_digits h.whole_ne_nil hrest
    cases whole with
    | nil => exact absurd rfl h.whole_ne_nil
    | cons c whole =>
      have hc : c ≠ '0' := by simpa using hhead
      rw [List.cons_append] at hread ⊢
      rw [whole?.eq_def]
      split
      · rename_i heq
        exact absurd (List.cons.inj heq).1 hc
      · exact hread

theorem fraction?_append (h : IsNumeral whole fraction power) (hdigit : StopsAt Char.isDigit rest)
    (hpoint : StopsAt (· = '.') rest) :
    fraction? digits? (fraction ++ rest) = some (fraction, rest) := by
  rcases h.fraction_digits with rfl | ⟨digits, hne, hdigits, rfl⟩
  · rw [List.nil_append, fraction?.eq_def]
    split
    · simp at hpoint
    · rfl
  · simp [fraction?, digits?_append hdigits hne hdigit]

theorem exponent?_append (h : IsNumeral whole fraction power) (hrest : StopsAt goesOn rest) :
    exponent? digits? (power ++ rest) = some (power, rest) := by
  rcases h.power_digits with rfl | ⟨e, rfl⟩
  · cases rest with
    | nil => rfl
    | cons c rest =>
      have hc : goesOn c = false := stopsAt_cons.1 hrest
      have hmark : ¬ (c = 'e' || c = 'E') = true := by
        simp only [goesOn, Bool.or_eq_false_iff] at hc
        simp [hc.1.2, hc.2]
      rw [List.nil_append, exponent?.eq_def]
      exact if_neg hmark
  · have hread := digits?_append (allDigits_toDigits e.natAbs) Nat.toDigits_ne_nil
      (stopsAt_isDigit hrest)
    rw [Layout.signedExponent]
    split <;> simp [exponent?, hread]

/-- **A numeral is taken apart into its parts.** -/
theorem unsigned?_append (negative : Bool) (h : IsNumeral whole fraction power)
    (hrest : StopsAt goesOn rest) :
    unsigned? negative (whole ++ fraction ++ power ++ rest) =
      some (ofNumeral negative whole fraction power, rest) := by
  have hdigit := stopsAt_isDigit hrest
  have hpoint : StopsAt (· = '.') rest := StopsAt.of_imp hrest fun c hc => by
    simp only [decide_eq_true_eq] at hc
    simp [goesOn, hc]
  -- what follows the fraction and what follows the whole part
  have hpower : StopsAt Char.isDigit (power ++ rest) ∧ StopsAt (· = '.') (power ++ rest) := by
    rcases h.power_digits with rfl | ⟨e, rfl⟩
    · exact ⟨hdigit, hpoint⟩
    · exact ⟨by simp, by simp⟩
  have hfraction : StopsAt Char.isDigit (fraction ++ (power ++ rest)) := by
    rcases h.fraction_digits with rfl | ⟨digits, -, -, rfl⟩
    · exact hpower.1
    · simp
  rw [List.append_assoc, List.append_assoc, unsigned?, whole?_append h hfraction]
  simp [fraction?_append h hpower.1 hpower.2, exponent?_append h hrest]

/-! ## The double of a numeral -/

/-- Zeros at the end of a fraction are passed over. -/
theorem exists_fractionDigits (fraction : List Char) :
    ∃ zeros, fraction.drop 1 = fractionDigits fraction ++ List.replicate zeros '0' := by
  generalize hdigits : fraction.drop 1 = digits
  have hzeros : digits.reverse.takeWhile (· = '0') =
      List.replicate (digits.reverse.takeWhile (· = '0')).length '0' := by
    rw [List.eq_replicate_iff]
    exact ⟨rfl, fun c hc => by simpa using List.mem_takeWhile_imp hc⟩
  refine ⟨(digits.reverse.takeWhile (· = '0')).length, ?_⟩
  rw [fractionDigits, hdigits, ← List.reverse_replicate, ← hzeros, ← List.reverse_append,
    List.takeWhile_append_dropWhile, List.reverse_reverse]

/-- **A numeral of few digits comes to the double that it rounds to.** -/
theorem magnitude_eq (h : IsNumeral whole fraction power)
    (hfew : numeralDigits whole fraction < 10 ^ 768) {x : Float}
    (hx : IsNear (numeralValue whole fraction power) x) : magnitude whole fraction power = x := by
  obtain ⟨zeros, hzeros⟩ := exists_fractionDigits fraction
  have hdrop : AllDigits (fraction.drop 1) := by
    rcases h.fraction_digits with rfl | ⟨digits, -, hdigits, rfl⟩
    · simp [AllDigits]
    · exact hdigits
  rw [hzeros] at hdrop
  rw [numeralDigits, hzeros] at hfew
  rw [numeralValue, numeralDigits, numeralPlace, hzeros] at hx
  rw [magnitude]
  generalize fractionDigits fraction = digits at *
  have hsplit : natOfDigits 10 (whole ++ (digits ++ List.replicate zeros '0')) =
      natOfDigits 10 (whole ++ digits) * 10 ^ zeros := by
    rw [← List.append_assoc, natOfDigits_append, natOfDigits_replicate_zero, List.length_replicate,
      Nat.add_zero]
  have hall : AllDigits ((whole ++ digits).dropWhile (· = '0')) := by
    intro c hc
    have hmem := List.dropWhile_subset _ hc
    rcases List.mem_append.1 hmem with hwhole | hdigit
    · exact h.whole_digits c hwhole
    · exact hdrop c (List.mem_append_left _ hdigit)
  have hhead : ((whole ++ digits).dropWhile (· = '0')).head? ≠ some '0' := by
    intro hzero
    have hnot := List.head?_dropWhile_not (· = '0') (whole ++ digits)
    simp [hzero] at hnot
  have hkept : kept ((whole ++ digits).dropWhile (· = '0')) =
      (whole ++ digits).dropWhile (· = '0') := by
    rw [hsplit] at hfew
    have hless : natOfDigits 10 ((whole ++ digits).dropWhile (· = '0')) < 10 ^ 768 := by
      rw [natOfDigits_dropWhile_zero]
      exact Nat.lt_of_le_of_lt (Nat.le_mul_of_pos_right _ (Nat.pow_pos (Nat.succ_pos 9))) hfew
    exact if_pos (length_le_of_natOfDigits_lt hall hhead hless)
  apply IsNear.toFloat_eq
  simp only [hkept, natOfDigits_dropWhile_zero, sub_self, add_zero]
  convert hx using 1
  rw [hsplit, List.length_append, List.length_replicate]
  push_cast
  rw [mul_assoc, ← zpow_natCast, ← zpow_add₀ (by norm_num)]
  congr 2
  ring

/-! ## Written numbers -/

theorem IsNear.isFinite {q : ℚ} {x : Float} (h : IsNear q x) : isFinite x = true := by
  obtain ⟨mantissa, exponent, hx, -⟩ := h
  rw [Decimal.isFinite, hx]

/-- A number that begins with a digit has no sign. -/
theorem numeral?_of_digit {c : Char} {cs : List Char} (hc : c.isDigit = true) :
    numeral? (c :: cs) = unsigned? false (c :: cs) := by
  rw [numeral?.eq_def]
  split
  · rename_i heq
    rw [(List.cons.inj heq).1] at hc
    cases hc
  · rfl

/-- A numeral is read after its sign. -/
theorem numeral?_append (negative : Bool) (h : IsNumeral whole fraction power)
    (hrest : StopsAt goesOn rest) :
    numeral? ((if negative then ['-'] else []) ++ (whole ++ fraction ++ power) ++ rest) =
      some (ofNumeral negative whole fraction power, rest) := by
  have hread := unsigned?_append negative h hrest
  cases negative with
  | true => exact hread
  | false =>
    cases whole with
    | nil => exact absurd rfl h.whole_ne_nil
    | cons c whole =>
      have hc := h.whole_digits c (List.mem_cons_self ..)
      simp only [Bool.false_eq_true, if_false, List.nil_append, List.cons_append] at hread ⊢
      rw [numeral?_of_digit hc, hread]

/-- **What is written for a finite double is read as that double.** -/
theorem numeral?_chars {x : Float} (hx : isFinite x = true) (hrest : StopsAt goesOn rest) :
    numeral? (Layout.exchange.chars x ++ rest) = some (.float x, rest) := by
  obtain ⟨negative, y, digits, grid, rfl, hnear, hshort, hpos, hchars⟩ :=
    exists_setDigits Layout.exchange hx
  obtain ⟨whole, fraction, power, hset, hnumeral, hvalue, hparts, hfew⟩ :=
    setDigits_exchange hpos hshort
  rw [← hvalue] at hnear
  rw [hchars, hset, numeral?_append negative hnumeral hrest, ofNumeral,
    magnitude_eq hnumeral hfew hnear, ofFloat, if_pos (IsNear.isFinite hnear), if_neg]
  simpa using hparts

/-- **What is written for an integer of 64 bits is read as that integer.** -/
theorem numeral?_intChars {n : ℤ} (hlow : -2 ^ 63 ≤ n) (hhigh : n < 2 ^ 64)
    (hrest : StopsAt goesOn rest) : numeral? (intChars n ++ rest) = some (.int n, rest) := by
  have hread (negative : Bool) := numeral?_append negative (isNumeral_toDigits n.natAbs) hrest
  simp only [List.append_nil] at hread
  rw [intChars]
  by_cases hneg : n < 0
  · have hvalue : ofNumeral true (Nat.toDigits 10 n.natAbs) [] [] = .int n := by
      simp only [ofNumeral, List.isEmpty_nil, Bool.and_self, if_true, natOfDigits_toDigits]
      have hfits : (0 < n.natAbs && decide (n.natAbs ≤ Nat.pow 2 63)) = true := by
        simp only [Nat.pow_eq, Bool.and_eq_true, decide_eq_true_eq]
        omega
      rw [if_pos hfits]
      congr 1
      omega
    rw [if_pos hneg, ← hvalue]
    exact hread true
  · have hvalue : ofNumeral false (Nat.toDigits 10 n.natAbs) [] [] = .int n := by
      simp only [ofNumeral, List.isEmpty_nil, Bool.and_self, if_true, natOfDigits_toDigits,
        Bool.false_eq_true, if_false]
      have hfits : n.natAbs < Nat.pow 2 64 := by
        simp only [Nat.pow_eq]
        omega
      rw [if_pos hfits]
      congr 1
      omega
    rw [if_neg hneg, ← hvalue]
    exact hread false

end Json
end ProductionRates
