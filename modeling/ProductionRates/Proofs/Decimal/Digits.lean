import Mathlib.Data.Nat.Digits.Lemmas
import Mathlib.Algebra.Order.Field.Rat
import Mathlib.Algebra.Order.Field.Power
import Mathlib.Tactic.FieldSimp
import Mathlib.Tactic.Linarith
import Mathlib.Tactic.Ring
import ProductionRates.Decimal.Layout
import ProductionRates.Decimal.Numeral

/-!
# Strings of digits

What digits spell, and what does not change it: zeros in front, and zeros behind a point.

* `natOfDigits_append`, `natOfDigits_toDigits` — the number of a string of digits;
* `takeWhile_append_of_stop`, `dropWhile_append_of_stop` — digits read up to what is no digit;
* `natOfDigits_lt`, `head?_toDigits_ne` — bounds on digits, and the first of them.
-/

namespace ProductionRates
namespace Decimal

/-! ## Reading up to the end -/

section Stop

variable {α : Type} {p : α → Bool} {as rest : List α}

/-- No member satisfying `p` comes first. -/
def StopsAt (p : α → Bool) (rest : List α) : Prop := ∀ a ∈ rest.head?, p a = false

@[simp] theorem stopsAt_nil : StopsAt p ([] : List α) := by simp [StopsAt]

@[simp] theorem stopsAt_cons {a : α} : StopsAt p (a :: rest) ↔ p a = false := by simp [StopsAt]

theorem StopsAt.of_imp {q : α → Bool} (h : StopsAt p as) (himp : ∀ a, q a = true → p a = true) :
    StopsAt q as := by
  intro a ha
  have hp := h a ha
  cases hq : q a with
  | false => rfl
  | true => simp [himp a hq] at hp

theorem takeWhile_append_of_stop (has : ∀ a ∈ as, p a = true) (hrest : StopsAt p rest) :
    (as ++ rest).takeWhile p = as := by
  rw [List.takeWhile_append_of_pos has]
  cases rest with
  | nil => simp
  | cons a rest => simp [stopsAt_cons.1 hrest]

theorem dropWhile_append_of_stop (has : ∀ a ∈ as, p a = true) (hrest : StopsAt p rest) :
    (as ++ rest).dropWhile p = rest := by
  rw [List.dropWhile_append_of_pos has]
  cases rest with
  | nil => simp
  | cons a rest => simp [stopsAt_cons.1 hrest]

end Stop

/-! ## The number of digits -/

/-- All characters are decimal digits. -/
def AllDigits (cs : List Char) : Prop := ∀ c ∈ cs, c.isDigit = true

variable {base : ℕ} {cs ds : List Char}

theorem AllDigits.append (hcs : AllDigits cs) (hds : AllDigits ds) : AllDigits (cs ++ ds) := by
  intro c hc
  rcases List.mem_append.1 hc with hc | hc
  · exact hcs c hc
  · exact hds c hc

theorem AllDigits.take (hcs : AllDigits cs) (count : ℕ) : AllDigits (cs.take count) :=
  fun c hc => hcs c (List.mem_of_mem_take hc)

theorem AllDigits.drop (hcs : AllDigits cs) (count : ℕ) : AllDigits (cs.drop count) :=
  fun c hc => hcs c (List.mem_of_mem_drop hc)

theorem allDigits_replicate_zero (count : ℕ) : AllDigits (List.replicate count '0') := by
  intro c hc
  rw [List.eq_of_mem_replicate hc]
  rfl

theorem allDigits_toDigits (n : ℕ) : AllDigits (Nat.toDigits 10 n) :=
  fun _ hc => Nat.isDigit_of_mem_toDigits (by norm_num) (le_refl _) hc

theorem foldl_digitValue (n : ℕ) (cs : List Char) :
    cs.foldl (fun n c => n * base + digitValue c) n =
      n * base ^ cs.length + natOfDigits base cs := by
  induction cs generalizing n with
  | nil => simp [natOfDigits]
  | cons c cs ih =>
    have hhead : natOfDigits base (c :: cs) = digitValue c * base ^ cs.length +
        natOfDigits base cs := by
      rw [natOfDigits, List.foldl_cons, ih, Nat.zero_mul, Nat.zero_add]
    rw [List.foldl_cons, ih, hhead, List.length_cons, pow_succ]
    ring

theorem natOfDigits_append (cs ds : List Char) :
    natOfDigits base (cs ++ ds) = natOfDigits base cs * base ^ ds.length + natOfDigits base ds := by
  rw [natOfDigits, List.foldl_append, foldl_digitValue]
  rfl

theorem natOfDigits_cons (c : Char) (cs : List Char) :
    natOfDigits base (c :: cs) = digitValue c * base ^ cs.length + natOfDigits base cs := by
  rw [natOfDigits, List.foldl_cons, foldl_digitValue, Nat.zero_mul, Nat.zero_add]

@[simp] theorem natOfDigits_nil : natOfDigits base [] = 0 := rfl

@[simp] theorem natOfDigits_replicate_zero (count : ℕ) :
    natOfDigits base (List.replicate count '0') = 0 := by
  induction count with
  | zero => rfl
  | succ count ih =>
    rw [List.replicate_succ, natOfDigits_cons, ih]
    simp [digitValue]

/-- Zeros in front do not count. -/
theorem natOfDigits_dropWhile_zero (cs : List Char) :
    natOfDigits base (cs.dropWhile (· = '0')) = natOfDigits base cs := by
  induction cs with
  | nil => rfl
  | cons c cs ih =>
    by_cases hzero : c = '0'
    · subst hzero
      rw [List.dropWhile_cons_of_pos (by simp), ih, natOfDigits_cons]
      simp [digitValue]
    · rw [List.dropWhile_cons_of_neg (by simp [hzero])]

theorem digitValue_lt {c : Char} (h : c.isDigit = true) : digitValue c < 10 := by
  have hrange := Char.isDigit_iff_toNat.1 h
  rw [digitValue, if_pos h]
  have hzero : '0'.toNat = 48 := rfl
  have hnine : '9'.toNat = 57 := rfl
  omega

theorem natOfDigits_lt (hcs : AllDigits cs) : natOfDigits 10 cs < 10 ^ cs.length := by
  induction cs with
  | nil => simp
  | cons c cs ih =>
    have hrest := ih fun d hd => hcs d (List.mem_cons_of_mem c hd)
    have hvalue : digitValue c + 1 ≤ 10 := digitValue_lt (hcs c (List.mem_cons_self ..))
    rw [natOfDigits_cons, List.length_cons, pow_succ]
    calc digitValue c * 10 ^ cs.length + natOfDigits 10 cs
        < (digitValue c + 1) * 10 ^ cs.length := by rw [Nat.succ_mul]; omega
      _ ≤ 10 * 10 ^ cs.length := Nat.mul_le_mul_right _ hvalue
      _ = 10 ^ cs.length * 10 := Nat.mul_comm _ _

/-- Digits without a zero in front are no more than their number needs. -/
theorem length_le_of_natOfDigits_lt {places : ℕ} (hcs : AllDigits cs) (hhead : cs.head? ≠ some '0')
    (h : natOfDigits 10 cs < 10 ^ places) : cs.length ≤ places := by
  cases cs with
  | nil => simp
  | cons c cs =>
    have hrange := Char.isDigit_iff_toNat.1 (hcs c (List.mem_cons_self ..))
    have hvalue : 1 ≤ digitValue c := by
      have hne : c.toNat ≠ '0'.toNat := fun heq => hhead (by rw [Char.toNat_inj.1 heq]; rfl)
      have hzero : '0'.toNat = 48 := rfl
      rw [digitValue, if_pos (hcs c (List.mem_cons_self ..))]
      omega
    rw [natOfDigits_cons] at h
    have hpow : 10 ^ cs.length < 10 ^ places := by
      have hleading := Nat.mul_le_mul_right (10 ^ cs.length) hvalue
      omega
    exact (Nat.pow_lt_pow_iff_right (by norm_num)).1 hpow

@[simp] theorem natOfDigits_toDigits (n : ℕ) : natOfDigits 10 (Nat.toDigits 10 n) = n := by
  have hsame : natOfDigits 10 (Nat.toDigits 10 n) =
      Nat.ofDigitChars 10 (Nat.toDigits 10 n) 0 := by
    rw [Nat.ofDigitChars_eq_foldl, natOfDigits]
    refine List.foldl_ext _ _ 0 ?_
    intro m c hc
    rw [digitValue, if_pos (allDigits_toDigits n c hc), Nat.mul_comm]
  rw [hsame, Nat.ofDigitChars_ten_toDigits]

theorem length_toDigits_le {n places : ℕ} (hplaces : 0 < places) (h : n < 10 ^ places) :
    (Nat.toDigits 10 n).length ≤ places :=
  (Nat.length_toDigits_le_iff (by norm_num) hplaces).2 h

/-- The digits of a positive number do not begin with zero. -/
theorem head?_toDigits_ne {n : ℕ} (hn : 0 < n) : (Nat.toDigits 10 n).head? ≠ some '0' := by
  intro hhead
  obtain ⟨rest, hdigits⟩ := List.head?_eq_some_iff.1 hhead
  have hrest : AllDigits rest :=
    fun c hc => allDigits_toDigits n c (by rw [hdigits]; exact List.mem_cons_of_mem _ hc)
  have hvalue : n = natOfDigits 10 rest := by
    have hall := natOfDigits_toDigits n
    rw [hdigits, natOfDigits_cons] at hall
    simpa [digitValue] using hall.symm
  have hlt : n < 10 ^ rest.length := hvalue ▸ natOfDigits_lt hrest
  rcases Nat.eq_zero_or_pos rest.length with hempty | hmore
  · rw [hempty] at hlt
    omega
  · have hlength := length_toDigits_le hmore hlt
    rw [hdigits, List.length_cons] at hlength
    omega

end Decimal
end ProductionRates
