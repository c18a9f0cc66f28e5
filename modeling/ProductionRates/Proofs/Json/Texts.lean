import Mathlib.Data.List.Basic
import Mathlib.Tactic.Common
import ProductionRates.Json.Reader
import ProductionRates.Json.Writer

/-!
# Texts in JSON texts are read back

Every character is written so that it is read as one piece, whatever follows it: the character
itself, or for control characters without a letter of their own the 16-bit unit that it is.

* `pieceOf` — the piece that a character is read as;
* `pieces?_escaped`, `pieces?_quoted` — one character, and all up to the closing quote;
* `textOfPieces?_map` — the pieces spell the text.
-/

namespace ProductionRates
namespace Json

/-- The control characters that have a letter to escape them. -/
def lettered : List Char := ['\x08', '\t', '\n', '\x0c', '\r']

/-- The piece that a character is read as. -/
def pieceOf (c : Char) : Piece :=
  if c.toNat < 32 ∧ c ∉ lettered then .unit c.toNat else .char c

/-- Two digits of base sixteen spell the control character that they are made of. -/
theorem hexDigits_spell {n : Nat} (h : n < 32) :
    [('0' : Char), '0', hexDigit (n / 16), hexDigit (n % 16)].all Decimal.isHexDigit = true ∧
      Decimal.natOfDigits 16 ['0', '0', hexDigit (n / 16), hexDigit (n % 16)] = n := by
  decide +revert

/-- **A character is read as one piece**, whatever follows it. -/
theorem pieces?_escaped (c : Char) (rest : List Char) :
    pieces? (escaped c ++ rest) =
      (pieces? rest).map fun read => (pieceOf c :: read.1, read.2) := by
  rw [escaped]
  split_ifs with hquote hbackslash hback htab hline hform hreturn hcontrol
  all_goals try (subst c; simp [pieces?, escape?]; cases pieces? rest <;> rfl)
  · obtain ⟨hhex, hvalue⟩ := hexDigits_spell hcontrol
    have hpiece : pieceOf c = .unit c.toNat :=
      if_pos ⟨hcontrol, by simp [lettered, hback, htab, hline, hform, hreturn]⟩
    simp only [List.cons_append, List.nil_append, pieces?, hhex, if_true, hvalue, hpiece]
    cases pieces? rest <;> rfl
  · have hpiece : pieceOf c = .char c := if_neg fun hunit => hcontrol hunit.1
    have hplain : ¬ (decide (c.toNat < 32) || decide (c = '\\')) = true := by
      simp [hcontrol, hbackslash]
    rw [List.singleton_append, pieces?.eq_def, hpiece]
    split
    · rename_i heq
      cases heq
    · rename_i heq
      exact absurd (List.cons.inj heq).1 hbackslash
    · rename_i heq
      exact absurd (List.cons.inj heq).1 hbackslash
    · rename_i heq
      obtain ⟨rfl, rfl⟩ := List.cons.inj heq
      rw [if_neg hquote, if_neg hplain]
      cases pieces? rest <;> rfl

/-- All characters are read up to the closing quote. -/
theorem pieces?_quoted (cs rest : List Char) :
    pieces? (cs.flatMap escaped ++ '\x22' :: rest) = some (cs.map pieceOf, rest) := by
  induction cs with
  | nil => simp [pieces?]
  | cons c cs ih =>
    rw [List.flatMap_cons, List.append_assoc, pieces?_escaped, ih]
    rfl

/-- The pieces spell the text. -/
theorem textOfPieces?_map (text : String) :
    textOfPieces? (text.toList.map pieceOf) = some text := by
  have hchars (cs : List Char) : charsOfPieces? (cs.map pieceOf) = some cs := by
    induction cs with
    | nil => rfl
    | cons c cs ih =>
      rw [List.map_cons, pieceOf]
      by_cases hunit : c.toNat < 32 ∧ c ∉ lettered
      · have hleading : isLeading c.toNat = false := by
          simp only [isLeading, Bool.and_eq_false_iff, decide_eq_false_iff_not]
          omega
        have htrailing : isTrailing c.toNat = false := by
          simp only [isTrailing, Bool.and_eq_false_iff, decide_eq_false_iff_not]
          omega
        rw [if_pos hunit, charsOfPieces?.eq_def]
        simp [hleading, htrailing, ih]
      · rw [if_neg hunit, charsOfPieces?, ih]
        rfl
  rw [textOfPieces?, hchars]
  simp

end Json
end ProductionRates
