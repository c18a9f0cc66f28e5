import ProductionRates.Proofs.Script.Comments
import ProductionRates.Proofs.Script.TokenStarts

/-!
# The rules of tokens

The scanner looks at the first characters of a text to see which piece stands at its head.  Here is
what it looks for, one rule for each kind of token, and that what it finds is always the longest
match of any rule.

* `LexicalRule`, `LexicalRule.Matches`, `LexicalRule.token?` — the rules, the characters that they
  match, and the tokens of these;
* `length_le_decimalLength`, `exists_isDecimal` — decimal numerals at the head of a text;
* `quotedLength_of_isInside`, `exists_isInside` — strings;
* `exists_symbol` — symbols;
* `LexicalRule.givesWay_atHead` — a rule that matches at the head of a text matches no more than the
  piece there, and comes to that piece if it matches as much;
* `beginsWith_of_atHead` — the piece of a token is matched by a rule that comes to this token;
* `IsLexeme` — the longest match of all rules, and `exists_isLexeme_of_token`,
  `exists_isLexeme_of_blank` and `isLexeme_dashes`, that a text is cut into such matches.
-/

namespace ProductionRates
namespace Script

open Decimal

variable {c quote : Char} {cs ds inside digits tail whole rest more : List Char} {p : Char → Bool}

/-! ## Rules -/

/-- What stands between the quotes of a string: no quote of its kind, backslash or line feed, but a
backslash with any character after it other than a line feed. -/
inductive IsInside (quote : Char) : List Char → Prop where
  /-- Nothing. -/
  | nil : IsInside quote []
  /-- A character as it is. -/
  | plain {c : Char} {cs : List Char} (hquote : c ≠ quote) (hslash : c ≠ '\\') (hfeed : c ≠ '\n')
      (h : IsInside quote cs) : IsInside quote (c :: cs)
  /-- A character after a backslash. -/
  | escaped {c : Char} {cs : List Char} (hfeed : c ≠ '\n') (h : IsInside quote cs) :
      IsInside quote ('\\' :: c :: cs)

/-- The rules by which a text is cut. -/
inductive LexicalRule where
  /-- Blanks between tokens. -/
  | blanks
  /-- The dashes of a comment. -/
  | dashes
  /-- A decimal numeral. -/
  | decimal
  /-- A hexadecimal numeral. -/
  | hexadecimal
  /-- A string in quotes. -/
  | quoted (quote : Char)
  /-- The opening of a string in long brackets. -/
  | longBracket
  /-- A name. -/
  | name
  /-- A reserved word. -/
  | keyword (word : Keyword)
  /-- An operator or a punctuation mark. -/
  | symbol (mark : Symbol)

namespace LexicalRule

/-- The rule matches these characters. -/
def Matches : LexicalRule → List Char → Prop
  | .blanks, cs => cs ≠ [] ∧ AllBlank cs
  | .dashes, cs => cs = ['-', '-']
  | .decimal, cs => IsDecimal cs
  | .hexadecimal, cs => ∃ mark digits, (mark = 'x' ∨ mark = 'X') ∧ digits ≠ [] ∧
      (∀ c ∈ digits, isHexDigit c = true) ∧ cs = '0' :: mark :: digits
  | .quoted quote, cs => (quote = '\x22' ∨ quote = '\x27') ∧
      ∃ inside, IsInside quote inside ∧ cs = quote :: (inside ++ [quote])
  | .longBracket, cs => ∃ level, cs = longOpener level
  | .name, cs => ∃ c rest, cs = c :: rest ∧ isNameStart c = true ∧ ∀ d ∈ rest, isNameRest d = true
  | .keyword word, cs => cs = word.text.toList
  | .symbol mark, cs => cs = mark.chars

/-- The token of characters that the rule matches; none for what separates tokens, and for
hexadecimal numerals that are too large. -/
def token? : LexicalRule → List Char → Option Token
  | .blanks, _ | .dashes, _ => none
  | .decimal, cs => some (.number (Numeral.ofChars cs).toFloat)
  | .hexadecimal, cs =>
    if natOfDigits 16 (cs.drop 2) ≤ Piece.largestHex then
      some (.number (floatOfNat (natOfDigits 16 (cs.drop 2))))
    else none
  | .quoted _, cs => some (.quoted (String.ofList cs))
  | .longBracket, _ => some .longBracket
  | .name, cs => some (.name (String.ofList cs))
  | .keyword word, _ => some (.keyword word)
  | .symbol mark, _ => some (.symbol mark)

end LexicalRule

/-! ## Runs -/

theorem take_run (p : Char → Bool) (cs : List Char) : cs.take (run p cs) = cs.takeWhile p :=
  (List.prefix_iff_eq_take.1 (List.takeWhile_prefix p)).symm

theorem length_le_run (hds : ∀ c ∈ ds, p c = true) (h : ds <+: cs) : ds.length ≤ run p cs := by
  obtain ⟨rest, rfl⟩ := h
  rw [run, List.takeWhile_append_of_pos hds, List.length_append]
  exact Nat.le_add_right _ _

/-- A text is characters of a kind and what is not of this kind. -/
theorem exists_run (p : Char → Bool) (cs : List Char) :
    ∃ ds tail, cs = ds ++ tail ∧ (∀ d ∈ ds, p d = true) ∧ StopsAt p tail := by
  refine ⟨cs.takeWhile p, cs.dropWhile p, List.takeWhile_append_dropWhile.symm,
    fun d hd => List.mem_takeWhile_imp hd, fun d hd => ?_⟩
  have hstop := List.head?_dropWhile_not p cs
  rw [Option.mem_def.1 hd] at hstop
  simpa using hstop

theorem exists_digits (cs : List Char) :
    ∃ digits tail, cs = digits ++ tail ∧ AllDigits digits ∧ StopsAt Char.isDigit tail :=
  exists_run Char.isDigit cs

/-! ## Numerals -/

theorem run_digits_append (hdigits : AllDigits digits) (hstop : StopsAt Char.isDigit tail) :
    run Char.isDigit (digits ++ tail) = digits.length := by
  rw [run, takeWhile_append_of_stop hdigits hstop]

/-- A power of ten with its mark, perhaps a sign, and digits. -/
def IsPower (power : List Char) : Prop :=
  ∃ mark sign digits, (mark = 'e' ∨ mark = 'E') ∧ (sign = [] ∨ sign = ['+'] ∨ sign = ['-']) ∧
    digits ≠ [] ∧ AllDigits digits ∧ power = mark :: (sign ++ digits)

theorem length_le_exponentLength {power : List Char} (h : IsPower power) (more : List Char) :
    power.length ≤ exponentLength (power ++ more) := by
  obtain ⟨mark, sign, digits, hmark, hsign, hne, hdigits, rfl⟩ := h
  have hrun : digits.length ≤ run Char.isDigit (digits ++ more) :=
    length_le_run hdigits (List.prefix_append digits more)
  obtain ⟨digit, digits, rfl⟩ := List.exists_cons_of_ne_nil hne
  have hdigit : digit.isDigit = true := hdigits digit (List.mem_cons_self ..)
  have hplus : digit ≠ '+' := by rintro rfl; exact absurd hdigit (by decide)
  have hminus : digit ≠ '-' := by rintro rfl; exact absurd hdigit (by decide)
  rw [List.cons_append, List.length_cons] at hrun
  obtain ⟨count, hcount⟩ := Nat.exists_eq_add_one_of_ne_zero (Nat.ne_zero_of_lt hrun)
  rw [hcount] at hrun
  rcases hsign with rfl | rfl | rfl <;>
    simp [exponentLength, hmark, hcount, hplus, hminus] at hrun ⊢
  all_goals omega

/-- What is taken for an exponent is a power of ten, or nothing. -/
theorem exists_power (cs : List Char) :
    ∃ power rest, cs = power ++ rest ∧ (power = [] ∨ IsPower power) ∧
      exponentLength cs = power.length := by
  have hnone (h : exponentLength cs = 0) : ∃ power rest, cs = power ++ rest ∧
      (power = [] ∨ IsPower power) ∧ exponentLength cs = power.length :=
    ⟨[], cs, rfl, .inl rfl, h⟩
  -- after a sign that is read, the power goes on with the digits there
  have hpower {mark : Char} {sign : List Char} (tail : List Char)
      (hcs : cs = mark :: (sign ++ tail))
      (hmark : mark = 'e' ∨ mark = 'E') (hsign : sign = [] ∨ sign = ['+'] ∨ sign = ['-'])
      (hlength : exponentLength cs =
        if run Char.isDigit tail = 0 then 0 else 1 + sign.length + run Char.isDigit tail) :
      ∃ power rest, cs = power ++ rest ∧ (power = [] ∨ IsPower power) ∧
        exponentLength cs = power.length := by
    obtain ⟨digits, rest, rfl, hdigits, hstop⟩ := exists_digits tail
    rw [run_digits_append hdigits hstop] at hlength
    by_cases hne : digits = []
    · exact hnone (by rw [hlength, hne]; rfl)
    · refine ⟨mark :: (sign ++ digits), rest, by simp [hcs],
        .inr ⟨mark, sign, digits, hmark, hsign, hne, hdigits, rfl⟩, ?_⟩
      rw [hlength, if_neg (by simpa using hne), List.length_cons, List.length_append]
      omega
  cases cs with
  | nil => exact hnone rfl
  | cons mark rest =>
    by_cases hmark : mark = 'e' ∨ mark = 'E'
    · cases rest with
      | nil => exact hpower [] rfl hmark (.inl rfl) (by simp [exponentLength, hmark, run])
      | cons c rest =>
        by_cases hplus : c = '+'
        · subst hplus
          refine hpower rest rfl hmark (.inr (.inl rfl)) ?_
          cases hrun : run Char.isDigit rest <;> simp [exponentLength, hmark, hrun]
        · by_cases hminus : c = '-'
          · subst hminus
            refine hpower rest rfl hmark (.inr (.inr rfl)) ?_
            cases hrun : run Char.isDigit rest <;> simp [exponentLength, hmark, hrun]
          · refine hpower (c :: rest) rfl hmark (.inl rfl) ?_
            cases hrun : run Char.isDigit (c :: rest) <;>
              simp [exponentLength, hmark, hplus, hminus, hrun]
    · exact hnone (by simp [exponentLength, hmark])

/-- Digits without a point after them. -/
theorem decimalLength_whole (hwhole : AllDigits whole) (hne : whole ≠ [])
    (hstop : StopsAt Char.isDigit tail) (hpoint : StopsAt (· = '.') tail) :
    decimalLength (whole ++ tail) = whole.length + exponentLength tail := by
  rw [decimalLength, run_digits_append hwhole hstop, List.drop_left]
  cases tail with
  | nil => simp [hne]
  | cons c tail =>
    have hc : c ≠ '.' := by simpa using hpoint
    simp [hne, hc]

/-- Digits around a point, at least on one side. -/
theorem decimalLength_fraction (hwhole : AllDigits whole) (hdigits : AllDigits digits)
    (hsome : whole ≠ [] ∨ digits ≠ []) (hstop : StopsAt Char.isDigit tail) :
    decimalLength (whole ++ '.' :: (digits ++ tail)) =
      whole.length + (digits.length + 1) + exponentLength tail := by
  have hpoint : StopsAt Char.isDigit ('.' :: (digits ++ tail)) := by simp
  have hlengths : ¬ (whole.length = 0 ∧ digits.length + 1 < 2) := by
    rintro ⟨hnone, hnodigit⟩
    rcases hsome with hne | hne
    · exact hne (List.eq_nil_of_length_eq_zero hnone)
    · exact hne (List.eq_nil_of_length_eq_zero (by omega))
  have hdrop : (whole ++ '.' :: (digits ++ tail)).drop (whole.length + (digits.length + 1)) =
      tail := by
    rw [List.drop_append, List.drop_eq_nil_of_le (by omega), List.nil_append,
      Nat.add_sub_cancel_left, List.drop_succ_cons, List.drop_left]
  simp only [decimalLength, run_digits_append hwhole hpoint, List.drop_left,
    run_digits_append hdigits hstop]
  have hbody : (if (whole.length = 0 && digits.length + 1 < 2) = true then 0
      else whole.length + (digits.length + 1)) = whole.length + (digits.length + 1) :=
    if_neg (by simpa using hlengths)
  rw [hbody, if_neg (by omega), hdrop]

/-- **A decimal numeral at the head of a text is no longer than what is taken for one.** -/
theorem length_le_decimalLength (h : IsDecimal ds) (hleads : ds <+: cs) :
    ds.length ≤ decimalLength cs := by
  obtain ⟨more, rfl⟩ := hleads
  obtain ⟨whole, fraction, power, hparts, rfl⟩ := h
  have hwhole := hparts.whole_digits
  rcases hparts.power_digits with rfl | hpower
  · -- without a power, more digits may follow
    obtain ⟨extra, tail, rfl, hextra, hstop⟩ := exists_digits more
    rcases hparts.fraction_digits with rfl | ⟨digits, hdigits, rfl⟩
    · have hne : whole ++ extra ≠ [] := by
        have hsome : whole ≠ [] := by simpa using hparts.some_digit
        simp [hsome]
      have hall : AllDigits (whole ++ extra) := hwhole.append hextra
      have hassoc : whole ++ [] ++ [] ++ (extra ++ tail) = whole ++ extra ++ tail := by simp
      rw [hassoc]
      by_cases hpoint : StopsAt (· = '.') tail
      · rw [decimalLength_whole hall hne hstop hpoint]
        simp only [List.append_nil, List.length_append]
        omega
      · cases tail with
        | nil => exact absurd stopsAt_nil hpoint
        | cons c tail =>
          obtain rfl : c = '.' := by simpa using hpoint
          obtain ⟨digits, tail, rfl, hdigits, hstop⟩ := exists_digits tail
          rw [decimalLength_fraction hall hdigits (.inl hne) hstop]
          simp only [List.append_nil, List.length_append]
          omega
    · have hassoc : whole ++ '.' :: digits ++ [] ++ (extra ++ tail) =
          whole ++ '.' :: (digits ++ extra ++ tail) := by simp
      have hsome : whole ≠ [] ∨ digits ++ extra ≠ [] := by
        rcases hparts.some_digit with hne | hlength
        · exact .inl hne
        · refine .inr fun hnil => ?_
          obtain ⟨rfl, -⟩ := List.append_eq_nil_iff.1 hnil
          simp at hlength
      rw [hassoc, decimalLength_fraction hwhole (hdigits.append hextra) hsome hstop]
      simp only [List.append_nil, List.length_append, List.length_cons]
      omega
  · -- the mark of a power is neither a digit nor a point
    have hexponent := length_le_exponentLength hpower more
    obtain ⟨mark, sign, exponent, hmark, -, -, -, rfl⟩ := hpower
    have hstop : StopsAt Char.isDigit (mark :: (sign ++ exponent) ++ more) := by
      rcases hmark with rfl | rfl <;> simp
    have hpoint : StopsAt (· = '.') (mark :: (sign ++ exponent) ++ more) := by
      rcases hmark with rfl | rfl <;> simp
    rcases hparts.fraction_digits with rfl | ⟨digits, hdigits, rfl⟩
    · have hne : whole ≠ [] := by simpa using hparts.some_digit
      rw [List.append_nil, List.append_assoc, decimalLength_whole hwhole hne hstop hpoint,
        List.length_append]
      omega
    · have hassoc : whole ++ '.' :: digits ++ mark :: (sign ++ exponent) ++ more =
          whole ++ '.' :: (digits ++ (mark :: (sign ++ exponent) ++ more)) := by simp
      have hsome : whole ≠ [] ∨ digits ≠ [] := by
        refine hparts.some_digit.imp_right fun hlength hnil => ?_
        simp [hnil] at hlength
      rw [hassoc, decimalLength_fraction hwhole hdigits hsome hstop, List.length_append,
        List.length_append, List.length_cons]
      omega

/-- **What is taken for a decimal numeral is one.** -/
theorem exists_isDecimal (h : decimalLength cs ≠ 0) :
    ∃ ds rest, cs = ds ++ rest ∧ IsDecimal ds ∧ ds.length = decimalLength cs := by
  obtain ⟨whole, tail, rfl, hwhole, hstop⟩ := exists_digits cs
  by_cases hpoint : StopsAt (· = '.') tail
  · have hne : whole ≠ [] := by
      rintro rfl
      refine h ?_
      cases tail with
      | nil => rfl
      | cons c tail =>
        have hdigit : c.isDigit = false := by simpa using hstop
        have hc : c ≠ '.' := by simpa using hpoint
        simp [decimalLength, run, hdigit, hc]
    rw [decimalLength_whole hwhole hne hstop hpoint]
    obtain ⟨power, rest, rfl, hpower, hlength⟩ := exists_power tail
    refine ⟨whole ++ power, rest, by simp, ?_, by rw [hlength, List.length_append]⟩
    exact ⟨whole, [], power, ⟨hwhole, .inl rfl, .inl hne, hpower⟩, by simp⟩
  · cases tail with
    | nil => exact absurd stopsAt_nil hpoint
    | cons c tail =>
      obtain rfl : c = '.' := by simpa using hpoint
      obtain ⟨digits, tail, rfl, hdigits, hafter⟩ := exists_digits tail
      have hsome : whole ≠ [] ∨ digits ≠ [] := by
        by_contra hnone
        simp only [not_or, not_not] at hnone
        obtain ⟨rfl, rfl⟩ := hnone
        refine h ?_
        have hbefore : run Char.isDigit ('.' :: tail) = 0 := run_digits_append hwhole hstop
        have hrun : run Char.isDigit tail = 0 := run_digits_append hdigits hafter
        simp [decimalLength, hbefore, hrun]
      rw [decimalLength_fraction hwhole hdigits hsome hafter]
      obtain ⟨power, rest, rfl, hpower, hlength⟩ := exists_power tail
      refine ⟨whole ++ '.' :: digits ++ power, rest, by simp, ?_, ?_⟩
      · refine ⟨whole, '.' :: digits, power,
          ⟨hwhole, .inr ⟨digits, hdigits, rfl⟩, hsome.imp_right fun hne => ?_, hpower⟩, rfl⟩
        have hpos := List.length_pos_of_ne_nil hne
        rw [List.length_cons]
        omega
      · rw [hlength, List.length_append, List.length_append, List.length_cons]

/-- The digits of a hexadecimal numeral. -/
theorem hexDigits_cons {mark : Char} (hmark : mark = 'x' ∨ mark = 'X') (rest : List Char) :
    hexDigits ('0' :: mark :: rest) = run isHexDigit rest := by
  rw [hexDigits, if_pos (by simpa using hmark)]

/-- A text that is taken for a hexadecimal numeral begins with a zero and its mark. -/
theorem exists_of_hexDigits_ne_zero (h : hexDigits cs ≠ 0) :
    ∃ mark rest, (mark = 'x' ∨ mark = 'X') ∧ cs = '0' :: mark :: rest := by
  rw [hexDigits.eq_def] at h
  split at h
  · rename_i mark rest
    split at h
    · rename_i hmark
      exact ⟨mark, rest, by simpa using hmark, rfl⟩
    · exact absurd rfl h
  · exact absurd rfl h

/-- A decimal numeral before the mark of a hexadecimal one is a zero alone. -/
theorem length_of_isDecimal_hex {mark : Char} (hmark : mark = 'x' ∨ mark = 'X') (h : IsDecimal ds)
    (hleads : ds <+: '0' :: mark :: rest) : ds.length ≤ 1 := by
  match ds, h, hleads with
  | [], _, _ => exact Nat.zero_le 1
  | [_], _, _ => exact Nat.le_refl 1
  | _ :: second :: _, h, hleads =>
    obtain ⟨-, hleads⟩ := List.cons_prefix_cons.1 hleads
    obtain ⟨rfl, -⟩ := List.cons_prefix_cons.1 hleads
    have hne := ne_hexMark_of_mem h (by simp : second ∈ _ :: second :: _)
    exact absurd hmark (not_or.2 hne)

/-! ## Strings -/

/-- The contents of a string are read up to its closing quote. -/
theorem quotedLength_of_isInside (hslash : quote ≠ '\\') (h : IsInside quote inside)
    (rest : List Char) : quotedLength quote (inside ++ quote :: rest) = (inside.length + 1, true) := by
  induction h with
  | nil => rw [List.nil_append, quotedLength.eq_4 _ _ _ hslash, if_pos rfl, List.length_nil]
  | plain hquote hbackslash hfeed _ ih =>
    rw [List.cons_append, quotedLength.eq_4 _ _ _ hbackslash, if_neg hquote, if_neg hfeed, ih,
      List.length_cons]
  | escaped hfeed _ ih =>
    rw [List.cons_append, List.cons_append, quotedLength.eq_3, if_neg hfeed, ih, List.length_cons,
      List.length_cons]

/-- What is read up to a closing quote is the contents of a string. -/
theorem exists_isInside {length : Nat} (h : quotedLength quote cs = (length, true)) :
    ∃ inside rest, cs = inside ++ quote :: rest ∧ IsInside quote inside ∧
      length = inside.length + 1 := by
  induction cs using quotedLength.induct quote generalizing length with
  | case1 => cases h
  | case2 => cases h
  | case3 cs =>
    rw [quotedLength.eq_3, if_pos rfl] at h
    cases h
  | case4 c cs hfeed count closed hcount ih =>
    rw [quotedLength.eq_3, if_neg hfeed, hcount] at h
    obtain ⟨rfl, rfl⟩ := Prod.mk.inj h
    obtain ⟨inside, rest, rfl, hinside, rfl⟩ := ih hcount
    exact ⟨'\\' :: c :: inside, rest, rfl, .escaped hfeed hinside, rfl⟩
  | case5 rest hslash =>
    rw [quotedLength.eq_4 _ _ _ hslash, if_pos rfl] at h
    cases h
    exact ⟨[], rest, rfl, .nil, rfl⟩
  | case6 rest hslash hquote =>
    rw [quotedLength.eq_4 _ _ _ hslash, if_neg hquote, if_pos rfl] at h
    cases h
  | case7 c cs hslash hquote hfeed count closed hcount ih =>
    rw [quotedLength.eq_4 _ _ _ hslash, if_neg hquote, if_neg hfeed, hcount] at h
    obtain ⟨rfl, rfl⟩ := Prod.mk.inj h
    obtain ⟨inside, rest, rfl, hinside, rfl⟩ := ih hcount
    exact ⟨c :: inside, rest, rfl, .plain hquote hslash hfeed hinside, rfl⟩

/-! ## Symbols -/

/-- In the list of symbols none begins with an earlier one. -/
theorem pairwise_symbols :
    Symbol.all.Pairwise fun mark other => ¬ mark.chars <+: other.chars := by
  decide

/-- The symbol that is found at the head of a text is the longest there. -/
theorem exists_symbol {mark : Symbol} (h : mark.chars <+: cs) :
    ∃ found : Symbol, Symbol.all.find? (·.chars.isPrefixOf cs) = some found ∧
      (found = mark ∨ mark.chars.length < found.chars.length) := by
  have hmem : mark ∈ Symbol.all := by cases mark <;> decide
  cases hfind : Symbol.all.find? (·.chars.isPrefixOf cs) with
  | none =>
    have hnone := List.find?_eq_none.1 hfind mark hmem
    exact absurd (List.isPrefixOf_iff_prefix.2 h) hnone
  | some found =>
    refine ⟨found, rfl, ?_⟩
    obtain ⟨hfound, before, after, hall, hbefore⟩ := List.find?_eq_some_iff_append.1 hfind
    rw [hall, List.mem_append, List.mem_cons] at hmem
    rcases hmem with hmem | rfl | hmem
    · -- a symbol before the one that was found does not stand at the head
      have hnot := hbefore mark hmem
      rw [List.isPrefixOf_iff_prefix.2 h] at hnot
      cases hnot
    · exact .inl rfl
    · have hpairwise := pairwise_symbols
      rw [hall, List.pairwise_append] at hpairwise
      have hnot : ¬ found.chars <+: mark.chars :=
        (List.pairwise_cons.1 hpairwise.2.1).1 mark hmem
      refine .inr (Nat.lt_of_not_le fun hle => hnot ?_)
      exact List.prefix_of_prefix_length_le (List.isPrefixOf_iff_prefix.1 hfound) h hle

/-! ## What a rule matches at the head of a text -/

namespace LexicalRule

variable {rule : LexicalRule} {found : Piece × Nat}

/-- The piece that characters are by the rule that matches them. -/
def piece (rule : LexicalRule) (cs : List Char) : Piece :=
  match rule with
  | .blanks | .dashes => .skipped
  | rule =>
    match rule.token? cs with
    | some token => .token token
    | none => .unrecognised

/-- The piece is longer than the characters that the rule matches, or it is what they are by the
rule.  A keyword is a name, too, but not by the rule of names. -/
def GivesWay (rule : LexicalRule) (ds : List Char) (found : Piece × Nat) : Prop :=
  ds.length < found.2 ∨ ds.length = found.2 ∧
    (found.1 = rule.piece ds ∨ rule = .name ∧ ∃ word, found.1 = .token (.keyword word))

theorem GivesWay.length_le (h : rule.GivesWay ds found) : ds.length ≤ found.2 :=
  h.elim Nat.le_of_lt fun h => Nat.le_of_eq h.1

theorem givesWay_self (hlength : ds.length = found.2) (hpiece : found.1 = rule.piece ds) :
    rule.GivesWay ds found :=
  .inr ⟨hlength, .inl hpiece⟩

theorem givesWay_blanks (hne : ds ≠ []) (h : AllBlank ds) (rest : List Char) :
    GivesWay .blanks ds (Piece.atHead (ds ++ rest)) := by
  obtain ⟨c, ds, rfl⟩ := List.exists_cons_of_ne_nil hne
  have hc : isBlank c = true := h c (List.mem_cons_self ..)
  have hle : (c :: ds).length ≤ run isBlank (c :: ds ++ rest) :=
    length_le_run h (List.prefix_append _ rest)
  rw [List.cons_append, Piece.atHead_cons (ne_of_kind hc (by decide)), if_pos hc]
  exact (Nat.lt_or_eq_of_le hle).imp_right fun heq => ⟨heq, .inl rfl⟩

theorem givesWay_decimal (h : IsDecimal ds) (rest : List Char) :
    GivesWay .decimal ds (Piece.atHead (ds ++ rest)) := by
  obtain ⟨c, tail, rfl, hc⟩ := exists_beginsNumeral h
  have hle := length_le_decimalLength h (List.prefix_append _ rest)
  rw [List.cons_append] at hle ⊢
  rw [atHead_of_beginsNumeral hc, Piece.numeral?]
  by_cases hhex : hexDigits (c :: (tail ++ rest)) = 0
  · obtain ⟨count, hcount⟩ := Nat.exists_eq_add_one_of_ne_zero (Nat.ne_zero_of_lt hle)
    simp only [hhex, hcount]
    rw [hcount] at hle
    refine (Nat.lt_or_eq_of_le hle).imp_right fun (heq : (c :: tail).length = count + 1) =>
      ⟨heq, .inl ?_⟩
    have htake : (c :: (tail ++ rest)).take (count + 1) = c :: tail := by
      rw [← heq, ← List.cons_append, List.take_left]
    simp only [htake]
    rfl
  · -- before the mark of a hexadecimal numeral there is only its zero
    obtain ⟨mark, others, hmark, hcs⟩ := exists_of_hexDigits_ne_zero hhex
    have hleads : c :: tail <+: '0' :: mark :: others := ⟨rest, hcs⟩
    have hlength := length_of_isDecimal_hex hmark h hleads
    obtain ⟨count, hcount⟩ := Nat.exists_eq_add_one_of_ne_zero hhex
    simp only [hcount]
    left
    show (c :: tail).length < count + 1 + 2
    omega

theorem givesWay_hexadecimal {mark : Char} (hmark : mark = 'x' ∨ mark = 'X') (hne : digits ≠ [])
    (hdigits : ∀ c ∈ digits, isHexDigit c = true) (rest : List Char) :
    GivesWay .hexadecimal ('0' :: mark :: digits)
      (Piece.atHead ('0' :: mark :: digits ++ rest)) := by
  have hle : digits.length ≤ run isHexDigit (digits ++ rest) :=
    length_le_run hdigits (List.prefix_append _ rest)
  have hpos : 0 < digits.length := List.length_pos_of_ne_nil hne
  obtain ⟨count, hcount⟩ :=
    Nat.exists_eq_add_one_of_ne_zero (Nat.ne_zero_of_lt (Nat.lt_of_lt_of_le hpos hle))
  rw [hcount] at hle
  rw [List.cons_append, List.cons_append, atHead_of_beginsNumeral (by decide), Piece.numeral?,
    hexDigits_cons hmark, hcount]
  dsimp only
  refine (Nat.lt_or_eq_of_le hle).imp (fun hlt => ?_) fun heq => ⟨?_, .inl ?_⟩
  · simpa using hlt
  · simpa using heq
  · have htake : (digits ++ rest).take (count + 1) = digits := by rw [← heq, List.take_left]
    simp only [List.drop_succ_cons, List.drop_zero, htake, piece, token?]
    split <;> rfl

theorem givesWay_quoted (hquote : quote = '\x22' ∨ quote = '\x27') (h : IsInside quote inside)
    (rest : List Char) : GivesWay (.quoted quote) (quote :: (inside ++ [quote]))
      (Piece.atHead (quote :: (inside ++ [quote]) ++ rest)) := by
  have hslash : quote ≠ '\\' := by rcases hquote with rfl | rfl <;> decide
  have hassoc : quote :: (inside ++ [quote]) ++ rest = quote :: (inside ++ quote :: rest) := by
    simp
  have hhead : Piece.atHead (quote :: (inside ++ quote :: rest)) =
      Piece.quoted quote (quote :: (inside ++ quote :: rest)) := by
    rcases hquote with rfl | rfl <;> exact Piece.atHead_cons (by decide)
  have htake : (quote :: (inside ++ quote :: rest)).take (inside.length + 2) =
      quote :: (inside ++ [quote]) := by
    rw [← hassoc, List.take_left' (by simp)]
  rw [hassoc, hhead, Piece.quoted, List.drop_one, List.tail_cons,
    quotedLength_of_isInside hslash h]
  dsimp only
  rw [if_pos rfl, htake]
  exact givesWay_self (by simp) rfl

theorem givesWay_longBracket (level : Nat) (rest : List Char) :
    GivesWay .longBracket (longOpener level) (Piece.atHead (longOpener level ++ rest)) := by
  have hlevel : longBracketLevel? (longOpener level ++ rest) = some level :=
    longBracketLevel?_eq_some_iff.2 ⟨rest, rfl⟩
  have hhead : Piece.atHead (longOpener level ++ rest) =
      Piece.bracket (longOpener level ++ rest) := Piece.atHead_cons (by decide)
  rw [hhead, Piece.bracket, hlevel]
  exact givesWay_self (length_longOpener level) rfl

/-- What is spelled like a name gives way to the word at the head of a text. -/
theorem givesWay_word (hc : isNameStart c = true) (hds : ∀ d ∈ ds, isNameRest d = true)
    (rest : List Char) : (c :: ds).length < (Piece.atHead (c :: ds ++ rest)).2 ∨
      Piece.atHead (c :: ds ++ rest) =
        (match Keyword.ofText? (String.ofList (c :: ds)) with
          | some word => .token (.keyword word)
          | none => .token (.name (String.ofList (c :: ds))), (c :: ds).length) := by
  obtain ⟨extra, after, rfl, hextra, hstop⟩ := exists_run isNameRest rest
  have hword := atHead_word hc (List.forall_mem_append.2 ⟨hds, hextra⟩) hstop
  cases extra with
  | nil =>
    rw [List.append_nil] at hword
    exact .inr hword
  | cons d extra =>
    left
    rw [List.append_assoc] at hword
    rw [List.cons_append, hword, List.length_cons, List.length_append, List.length_cons]
    omega

theorem givesWay_name (hc : isNameStart c = true) (hds : ∀ d ∈ ds, isNameRest d = true)
    (rest : List Char) : GivesWay .name (c :: ds) (Piece.atHead (c :: ds ++ rest)) := by
  refine (givesWay_word hc hds rest).imp_right fun hword => ?_
  rw [hword]
  cases Keyword.ofText? (String.ofList (c :: ds)) with
  | none => exact ⟨rfl, .inl rfl⟩
  | some word => exact ⟨rfl, .inr ⟨rfl, word, rfl⟩⟩

theorem givesWay_keyword (word : Keyword) (rest : List Char) :
    GivesWay (.keyword word) word.text.toList (Piece.atHead (word.text.toList ++ rest)) := by
  obtain ⟨c, ds, htext, hc, hds⟩ := word.exists_chars
  have hsame : String.ofList (c :: ds) = word.text := by rw [← htext, String.ofList_toList]
  rw [htext]
  refine (givesWay_word hc hds rest).imp_right fun hword => ?_
  rw [hword, hsame, Keyword.ofText?_text]
  exact ⟨rfl, .inl rfl⟩

/-- Where the head of a text is looked up among the symbols, a symbol there gives way. -/
theorem givesWay_of_symbol {mark : Symbol} (h : mark.chars <+: cs)
    (hhead : Piece.atHead cs = Piece.symbol cs) :
    GivesWay (.symbol mark) mark.chars (Piece.atHead cs) := by
  obtain ⟨found, hfind, hfound⟩ := exists_symbol h
  rw [hhead, Piece.symbol, hfind]
  rcases hfound with rfl | hlt
  · exact givesWay_self rfl rfl
  · exact .inl hlt

/-- A point begins a numeral just when a digit follows it. -/
theorem numeral?_point (cs : List Char) : Piece.numeral? ('.' :: cs) = none ∨
    ∃ d tail piece length, cs = d :: tail ∧ d.isDigit = true ∧
      Piece.numeral? ('.' :: cs) = some (piece, length) ∧ 2 ≤ length := by
  have hhex : hexDigits ('.' :: cs) = 0 := rfl
  cases cs with
  | nil => exact .inl rfl
  | cons d tail =>
    rw [Piece.numeral?, hhex]
    by_cases hd : d.isDigit = true
    · have hdecimal : IsDecimal ['.', d] := by
        refine ⟨[], ['.', d], [], ⟨by simp [AllDigits], .inr ⟨[d], ?_, rfl⟩, by simp, .inl rfl⟩, rfl⟩
        simpa [AllDigits] using hd
      have hle : 2 ≤ decimalLength ('.' :: d :: tail) :=
        length_le_decimalLength hdecimal ⟨tail, rfl⟩
      obtain ⟨count, hcount⟩ := Nat.exists_eq_add_one_of_ne_zero (Nat.ne_zero_of_lt hle)
      rw [hcount] at hle ⊢
      exact .inr ⟨d, tail, _, _, rfl, hd, rfl, hle⟩
    · have hlength : decimalLength ('.' :: d :: tail) = 0 := by
        simp [decimalLength, run, hd]
      rw [hlength]
      exact .inl rfl

/-- A point gives way to a numeral, and points to more points. -/
theorem givesWay_points {mark : Symbol} {others : List Char} (hchars : mark.chars = '.' :: others)
    (hothers : ∀ c ∈ others.head?, c = '.') (rest : List Char) :
    GivesWay (.symbol mark) mark.chars (Piece.atHead (mark.chars ++ rest)) := by
  have hhead := atHead_of_beginsNumeral (by decide : beginsNumeral '.' = true) (others ++ rest)
  rcases numeral?_point (others ++ rest) with hnone | ⟨d, tail, piece, length, hcs, hd, hsome, hle⟩
  · refine givesWay_of_symbol (List.prefix_append _ rest) ?_
    rw [hchars, List.cons_append, hhead, hnone]
  · -- a digit comes after the point, so that the symbol is the point alone
    cases others with
    | nil =>
      rw [hchars, List.cons_append, hhead, hsome]
      exact .inl hle
    | cons c others =>
      obtain rfl : c = '.' := hothers c rfl
      obtain ⟨rfl, -⟩ := List.cons.inj hcs
      cases hd

theorem givesWay_leftBracket (rest : List Char) :
    GivesWay (.symbol .leftBracket) ['['] (Piece.atHead ('[' :: rest)) := by
  have hhead : Piece.atHead ('[' :: rest) = Piece.bracket ('[' :: rest) :=
    Piece.atHead_cons (by decide)
  rw [hhead, Piece.bracket]
  cases longBracketLevel? ('[' :: rest) with
  | some level => exact .inl (by simp)
  | none =>
    cases hrun : run (· = '=') (('[' :: rest).drop 1) with
    | zero => exact givesWay_self rfl rfl
    | succ count => exact .inl (by simp)

theorem givesWay_symbol (mark : Symbol) (rest : List Char)
    (hdashes : ¬ ['-', '-'] <+: mark.chars ++ rest) :
    GivesWay (.symbol mark) mark.chars (Piece.atHead (mark.chars ++ rest)) := by
  cases mark with
  | minus =>
    have hstop : StopsAt (· = '-') rest := by
      intro c hc
      refine decide_eq_false ?_
      rintro rfl
      obtain ⟨more, rfl⟩ := List.head?_eq_some_iff.1 hc
      exact hdashes ⟨more, rfl⟩
    have hhead : Piece.atHead (Symbol.minus.chars ++ rest) = (.token (.symbol .minus), 1) :=
      atHead_minus hstop
    rw [hhead]
    exact givesWay_self rfl rfl
  | leftBracket => exact givesWay_leftBracket rest
  | dot => exact givesWay_points rfl (by simp) rest
  | doubleDot => exact givesWay_points rfl (by simp) rest
  | ellipsis => exact givesWay_points rfl (by simp) rest
  | _ => exact givesWay_of_symbol (List.prefix_append _ rest) rfl

/-- **No rule matches more at the head of a text than the piece there**, unless a comment begins
there, and a rule that matches as much comes to that piece. -/
theorem givesWay_atHead (h : rule.Matches ds) (rest : List Char)
    (hdashes : ¬ ['-', '-'] <+: ds ++ rest) : rule.GivesWay ds (Piece.atHead (ds ++ rest)) := by
  cases rule with
  | blanks => exact givesWay_blanks h.1 h.2 rest
  | dashes =>
    obtain rfl : ds = ['-', '-'] := h
    exact absurd (List.prefix_append _ rest) hdashes
  | decimal => exact givesWay_decimal h rest
  | hexadecimal =>
    obtain ⟨mark, digits, hmark, hne, hdigits, rfl⟩ := h
    exact givesWay_hexadecimal hmark hne hdigits rest
  | quoted quote =>
    obtain ⟨hquote, inside, hinside, rfl⟩ := h
    exact givesWay_quoted hquote hinside rest
  | longBracket =>
    obtain ⟨level, rfl⟩ := h
    exact givesWay_longBracket level rest
  | name =>
    obtain ⟨c, others, rfl, hc, hothers⟩ := h
    exact givesWay_name hc hothers rest
  | keyword word =>
    obtain rfl : ds = word.text.toList := h
    exact givesWay_keyword word rest
  | symbol mark =>
    obtain rfl : ds = mark.chars := h
    exact givesWay_symbol mark rest hdashes

/-- A rule matches some character. -/
theorem Matches.exists_cons (h : rule.Matches ds) : ∃ c tail, ds = c :: tail := by
  cases rule with
  | blanks => exact List.exists_cons_of_ne_nil h.1
  | dashes => exact ⟨_, _, h⟩
  | decimal =>
    obtain ⟨c, tail, hds, -⟩ := exists_beginsNumeral h
    exact ⟨c, tail, hds⟩
  | hexadecimal =>
    obtain ⟨mark, digits, -, -, -, hds⟩ := h
    exact ⟨_, _, hds⟩
  | quoted quote =>
    obtain ⟨-, inside, -, hds⟩ := h
    exact ⟨_, _, hds⟩
  | longBracket =>
    obtain ⟨level, hds⟩ := h
    exact ⟨_, _, hds⟩
  | name =>
    obtain ⟨c, others, hds, -, -⟩ := h
    exact ⟨c, others, hds⟩
  | keyword word =>
    obtain ⟨c, tail, htext, -, -⟩ := word.exists_chars
    exact ⟨c, tail, h.trans htext⟩
  | symbol mark =>
    obtain rfl : ds = mark.chars := h
    cases mark <;> exact ⟨_, _, rfl⟩

/-- At two dashes, only the rule of comments matches both, and no rule more. -/
theorem Matches.of_dashes {tail : List Char} (h : rule.Matches ds)
    (hleads : ds <+: '-' :: '-' :: tail) : ds.length ≤ 2 ∧ (ds.length = 2 → rule = .dashes) := by
  obtain ⟨c, others, rfl⟩ := h.exists_cons
  obtain ⟨rfl, hothers⟩ := List.cons_prefix_cons.1 hleads
  cases rule with
  | dashes =>
    have hlength := congrArg List.length (h : '-' :: others = ['-', '-'])
    exact ⟨Nat.le_of_eq hlength, fun _ => rfl⟩
  | symbol mark =>
    have hchars : '-' :: others = mark.chars := h
    obtain rfl : others = [] := by cases mark <;> cases hchars; rfl
    exact ⟨by decide, nofun⟩
  | blanks => exact absurd (h.2 '-' (List.mem_cons_self ..)) (by decide)
  | decimal =>
    obtain ⟨c, tail, hds, hc⟩ := exists_beginsNumeral h
    obtain ⟨rfl, -⟩ := List.cons.inj hds
    exact absurd hc (by decide)
  | hexadecimal =>
    obtain ⟨mark, digits, -, -, -, hds⟩ := h
    cases hds
  | quoted quote =>
    obtain ⟨hquote, inside, -, hds⟩ := h
    obtain ⟨rfl, -⟩ := List.cons.inj hds
    exact absurd hquote (by decide)
  | longBracket =>
    obtain ⟨level, hds⟩ := h
    cases hds
  | name =>
    obtain ⟨c, others, hds, hc, -⟩ := h
    obtain ⟨rfl, -⟩ := List.cons.inj hds
    exact absurd hc (by decide)
  | keyword word =>
    obtain ⟨c, tail, htext, hc, -⟩ := word.exists_chars
    obtain ⟨rfl, -⟩ := List.cons.inj (Eq.trans h htext)
    exact absurd hc (by decide)

end LexicalRule

/-! ## The rule of a piece -/

/-- A text begins with characters that a rule matches and makes a token of. -/
def BeginsWith (token : Token) (length : Nat) (cs : List Char) : Prop :=
  ∃ (rule : LexicalRule) (lexeme rest : List Char), cs = lexeme ++ rest ∧
    lexeme.length = length ∧ rule.Matches lexeme ∧ rule.token? lexeme = some token

variable {token : Token} {length : Nat}

theorem beginsWith_of_word (hc : isNameStart c = true)
    (h : Piece.word (c :: rest) = (.token token, length)) : BeginsWith token length (c :: rest) := by
  have hlength : run isNameRest (c :: rest) = ((c :: rest).takeWhile isNameRest).length := rfl
  have hcs : c :: rest = (c :: rest).takeWhile isNameRest ++ (c :: rest).dropWhile isNameRest :=
    List.takeWhile_append_dropWhile.symm
  rw [Piece.word] at h
  simp only [take_run] at h
  cases hword : Keyword.ofText? (String.ofList ((c :: rest).takeWhile isNameRest)) with
  | some word =>
    rw [hword] at h
    obtain ⟨rfl, rfl⟩ : token = .keyword word ∧ length = run isNameRest (c :: rest) := by
      cases h
      exact ⟨rfl, rfl⟩
    have htext : word.text = String.ofList ((c :: rest).takeWhile isNameRest) := by
      simpa using List.find?_some hword
    refine ⟨.keyword word, _, _, hcs, rfl, ?_, rfl⟩
    rw [LexicalRule.Matches, htext, String.toList_ofList]
  | none =>
    rw [hword] at h
    obtain ⟨rfl, rfl⟩ : token = .name (String.ofList ((c :: rest).takeWhile isNameRest)) ∧
        length = run isNameRest (c :: rest) := by
      cases h
      exact ⟨rfl, rfl⟩
    have hfirst := List.takeWhile_cons_of_pos (p := isNameRest) (l := rest)
      (Piece.isNameRest_of_isNameStart hc)
    exact ⟨.name, _, _, hcs, rfl, ⟨c, _, hfirst, hc, fun d hd => List.mem_takeWhile_imp hd⟩, rfl⟩

theorem beginsWith_of_quoted (hquote : quote = '\x22' ∨ quote = '\x27')
    (h : Piece.quoted quote (quote :: rest) = (.token token, length)) :
    BeginsWith token length (quote :: rest) := by
  rw [Piece.quoted, List.drop_one, List.tail_cons] at h
  cases hcount : quotedLength quote rest with
  | mk count closed =>
    rw [hcount] at h
    dsimp only at h
    split at h
    · subst closed
      obtain ⟨inside, more, rfl, hinside, rfl⟩ := exists_isInside hcount
      have htake : (quote :: (inside ++ quote :: more)).take (inside.length + 2) =
          quote :: (inside ++ [quote]) := by
        have hassoc : quote :: (inside ++ quote :: more) = quote :: (inside ++ [quote]) ++ more := by
          simp
        rw [hassoc, List.take_left' (by simp)]
      rw [htake] at h
      cases h
      exact ⟨.quoted quote, quote :: (inside ++ [quote]), more, by simp, by simp,
        ⟨hquote, inside, hinside, rfl⟩, rfl⟩
    · cases h

theorem beginsWith_of_bracket (h : Piece.bracket ('[' :: rest) = (.token token, length)) :
    BeginsWith token length ('[' :: rest) := by
  rw [Piece.bracket] at h
  cases hlevel : longBracketLevel? ('[' :: rest) with
  | some level =>
    rw [hlevel] at h
    cases h
    obtain ⟨more, hcs⟩ := longBracketLevel?_eq_some_iff.1 hlevel
    exact ⟨.longBracket, longOpener level, more, hcs, length_longOpener level, ⟨level, rfl⟩, rfl⟩
  | none =>
    rw [hlevel] at h
    dsimp only at h
    split at h
    · cases h
      exact ⟨.symbol .leftBracket, ['['], rest, rfl, rfl, rfl, rfl⟩
    · cases h

theorem beginsWith_of_numeral (h : Piece.numeral? cs = some (.token token, length)) :
    BeginsWith token length cs := by
  rw [Piece.numeral?] at h
  split at h
  · split at h
    · cases h
    · rename_i hne
      obtain ⟨ds, rest, rfl, hds, hlength⟩ := exists_isDecimal hne
      rw [← hlength, List.take_left] at h
      cases h
      exact ⟨.decimal, ds, rest, rfl, rfl, hds, rfl⟩
  · rename_i hne
    obtain ⟨mark, others, hmark, rfl⟩ := exists_of_hexDigits_ne_zero hne
    rw [hexDigits_cons hmark] at h hne
    simp only [List.drop_succ_cons, List.drop_zero, take_run] at h
    have hothers : others = others.takeWhile isHexDigit ++ others.dropWhile isHexDigit :=
      List.takeWhile_append_dropWhile.symm
    refine ⟨.hexadecimal, '0' :: mark :: others.takeWhile isHexDigit, others.dropWhile isHexDigit,
      congrArg ('0' :: mark :: ·) hothers, ?_, ⟨mark, _, hmark, ?_, ?_, rfl⟩, ?_⟩
    · exact congrArg Prod.snd (Option.some.inj h)
    · intro hnil
      rw [run, hnil] at hne
      exact hne rfl
    · exact fun d hd => List.mem_takeWhile_imp hd
    · rw [LexicalRule.token?, List.drop_succ_cons, List.drop_succ_cons, List.drop_zero]
      split at h
      · rename_i hle
        cases h
        exact if_pos hle
      · cases h

theorem beginsWith_of_symbol (h : Piece.symbol cs = (.token token, length)) :
    BeginsWith token length cs := by
  rw [Piece.symbol] at h
  cases hfind : Symbol.all.find? (·.chars.isPrefixOf cs) with
  | none =>
    rw [hfind] at h
    cases h
  | some mark =>
    rw [hfind] at h
    cases h
    have hleads := List.find?_some hfind
    obtain ⟨rest, rfl⟩ := List.isPrefixOf_iff_prefix.1 hleads
    exact ⟨.symbol mark, mark.chars, rest, rfl, rfl, rfl, rfl⟩

/-- **The piece of a token is matched by a rule that comes to this token.** -/
theorem beginsWith_of_atHead (h : Piece.atHead cs = (.token token, length)) :
    BeginsWith token length cs := by
  rw [Piece.atHead.eq_def] at h
  split at h
  · cases h
  · cases h
  · rename_i c rest _
    split at h
    · cases h
    · split at h
      · exact beginsWith_of_word ‹_› h
      · split at h
        · rename_i hquote
          exact beginsWith_of_quoted (by simpa using hquote) h
        · split at h
          · rename_i hc
            subst hc
            exact beginsWith_of_bracket h
          · split at h
            · rename_i hnumeral
              rw [h] at hnumeral
              exact beginsWith_of_numeral hnumeral
            · exact beginsWith_of_symbol h

/-! ## Lexemes -/

/-- What a rule cuts off the head of a text: the longest that any rule matches there.  All rules that
match it come to the same token, except that a keyword is also matched by the rule of names. -/
structure IsLexeme (rule : LexicalRule) (lexeme rest : List Char) : Prop where
  /-- The rule matches it. -/
  fits : rule.Matches lexeme
  /-- No rule matches more of the text. -/
  longest : ∀ (other : LexicalRule) (ds : List Char), other.Matches ds → ds <+: lexeme ++ rest →
    ds.length ≤ lexeme.length
  /-- Other rules come to the same token, or give way to a keyword. -/
  agreed : ∀ other : LexicalRule, other.Matches lexeme →
    other.token? lexeme = rule.token? lexeme ∨ other = .name ∧ ∃ word, rule = .keyword word

/-- The token of a piece. -/
def Piece.token? : Piece → Option Token
  | .token token => some token
  | .skipped | .unrecognised => none

theorem LexicalRule.token?_piece (rule : LexicalRule) (cs : List Char) :
    (rule.piece cs).token? = rule.token? cs := by
  cases rule with
  | hexadecimal =>
    show (match LexicalRule.hexadecimal.token? cs with
      | some token => Piece.token token
      | none => .unrecognised).token? = LexicalRule.hexadecimal.token? cs
    cases LexicalRule.hexadecimal.token? cs <;> rfl
  | _ => rfl

/-- Only the rule of a keyword comes to it. -/
theorem LexicalRule.eq_keyword {rule : LexicalRule} {cs : List Char} {word : Keyword}
    (h : rule.token? cs = some (.keyword word)) : rule = .keyword word := by
  cases rule with
  | keyword other =>
    cases h
    rfl
  | hexadecimal =>
    rw [LexicalRule.token?] at h
    split at h <;> cases h
  | _ => cases h

/-- Where no comment begins, the piece at the head of a text is the longest match of its rule. -/
theorem isLexeme_of_atHead {rule : LexicalRule} {lexeme : List Char} {piece : Piece}
    (hdashes : ¬ ['-', '-'] <+: lexeme ++ rest) (hfits : rule.Matches lexeme)
    (hhead : Piece.atHead (lexeme ++ rest) = (piece, lexeme.length))
    (htoken : rule.token? lexeme = piece.token?) : IsLexeme rule lexeme rest where
  fits := hfits
  longest := by
    rintro other ds hds ⟨more, hmore⟩
    have hgives := LexicalRule.givesWay_atHead hds more (by rwa [hmore])
    rw [hmore, hhead] at hgives
    exact hgives.length_le
  agreed := by
    intro other hother
    have hgives := LexicalRule.givesWay_atHead hother rest hdashes
    rw [hhead] at hgives
    rcases hgives with hlt | ⟨-, hsame | ⟨rfl, word, hword⟩⟩
    · exact absurd hlt (Nat.lt_irrefl _)
    · left
      rw [htoken, ← other.token?_piece lexeme]
      exact congrArg Piece.token? hsame.symm
    · right
      refine ⟨rfl, word, LexicalRule.eq_keyword (htoken.trans ?_)⟩
      exact congrArg Piece.token? hword

/-- **A token is the longest match of a rule at the head of a text.** -/
theorem exists_isLexeme_of_token (hdashes : ¬ ['-', '-'] <+: cs)
    (h : Piece.atHead cs = (.token token, length)) :
    ∃ (rule : LexicalRule) (lexeme rest : List Char), cs = lexeme ++ rest ∧
      lexeme.length = length ∧ rule.token? lexeme = some token ∧ IsLexeme rule lexeme rest := by
  obtain ⟨rule, lexeme, rest, rfl, rfl, hfits, htoken⟩ := beginsWith_of_atHead h
  exact ⟨rule, lexeme, rest, rfl, rfl, htoken, isLexeme_of_atHead hdashes hfits h htoken⟩

/-- Blanks are cut off together. -/
theorem exists_isLexeme_of_blank (hc : isBlank c = true) (rest : List Char) :
    ∃ blanks others, c :: rest = blanks ++ others ∧
      Piece.atHead (c :: rest) = (.skipped, blanks.length) ∧ IsLexeme .blanks blanks others := by
  have hdash : c ≠ '-' := ne_of_kind hc (by decide)
  have hcs : c :: rest = (c :: rest).takeWhile isBlank ++ (c :: rest).dropWhile isBlank :=
    List.takeWhile_append_dropWhile.symm
  have hhead : Piece.atHead (c :: rest) = (.skipped, ((c :: rest).takeWhile isBlank).length) := by
    rw [Piece.atHead_cons hdash, if_pos hc, run]
  have hfits : LexicalRule.blanks.Matches ((c :: rest).takeWhile isBlank) := by
    refine ⟨?_, fun d hd => List.mem_takeWhile_imp hd⟩
    rw [List.takeWhile_cons_of_pos hc]
    exact List.cons_ne_nil _ _
  have hdashes : ¬ ['-', '-'] <+: c :: rest :=
    fun hleads => hdash (List.cons_prefix_cons.1 hleads).1.symm
  exact ⟨_, _, hcs, hhead, isLexeme_of_atHead (by rwa [← hcs]) hfits (by rwa [← hcs]) rfl⟩

/-- The dashes of a comment are cut off before anything else. -/
theorem isLexeme_dashes (rest : List Char) : IsLexeme .dashes ['-', '-'] rest where
  fits := rfl
  longest _ _ hds hleads := (hds.of_dashes hleads).1
  agreed other hother := by
    obtain rfl : other = .dashes := (hother.of_dashes (List.prefix_append _ rest)).2 rfl
    exact .inl rfl

end Script
end ProductionRates
