import ProductionRates.Proofs.Decimal.Digits
import ProductionRates.Script.Lexeme

/-!
# Texts that are cut into given tokens

The scanner takes as many characters for a token as it can, so what a text is cut into depends on
the character after it.  `Lexes` says that a text is cut into given tokens wherever it stands, as
long as no character of some kind comes next.

* `Lexes.append` — texts one after the other are cut into the tokens of both;
* `lexes_blanks`, `lexes_mark`, `lexes_word` — blanks, punctuation, and names and keywords;
* `IsDecimal`, `lexes_decimal` — decimal numerals;
* `lexes_quoted` — strings without escapes.
-/

namespace ProductionRates
namespace Script

open Decimal

/-! ## Scanning -/

namespace Token

/-- Characters that are already dealt with are passed over. -/
theorem scanFrom_skip (location : Location) (cs rest : List Char) :
    scanFrom location cs.length (cs ++ rest) = scanFrom (location.pastAll cs) 0 rest := by
  induction cs generalizing location with
  | nil => rfl
  | cons c cs ih => exact ih (location.past c)

/-- A token at the head of a text. -/
theorem scanFrom_token {token : Token} {c : Char} {cs rest : List Char} (location : Location)
    (h : Piece.atHead (c :: (cs ++ rest)) = (.token token, cs.length + 1)) :
    scanFrom location 0 (c :: (cs ++ rest)) =
      (⟨token, location⟩ :: ·) <$> scanFrom (location.pastAll (c :: cs)) 0 rest := by
  rw [scanFrom, h]
  dsimp only
  rw [Nat.add_sub_cancel, scanFrom_skip]
  rfl

end Token

/-- All characters are blanks. -/
def AllBlank (cs : List Char) : Prop := ∀ c ∈ cs, isBlank c = true

@[simp] theorem allBlank_nil : AllBlank [] := fun _ hc => nomatch hc

/-- A text is cut into these tokens wherever it stands, if no character satisfying `stop` comes
next. -/
def Lexes (stop : Char → Bool) (cs : List Char) (tokens : List Token) : Prop :=
  ∀ rest, StopsAt stop rest → ∀ location : Location, ∃ placed : List PlacedToken,
    placed.map PlacedToken.token = tokens ∧
      Token.scanFrom location 0 (cs ++ rest) =
        (placed ++ ·) <$> Token.scanFrom (location.pastAll cs) 0 rest

variable {stop other : Char → Bool} {c : Char} {cs ds rest : List Char}
  {tokens others : List Token}

/-- What is cut into tokens before some characters is so before fewer. -/
theorem Lexes.mono (h : Lexes stop cs tokens) (himp : ∀ c, stop c = true → other c = true) :
    Lexes other cs tokens :=
  fun rest hrest => h rest (hrest.of_imp himp)

/-- **Texts one after the other are cut into the tokens of both**, if the second may follow the
first. -/
theorem Lexes.append (hcs : Lexes stop cs tokens) (hds : Lexes other ds others)
    (h : ∀ rest, StopsAt other rest → StopsAt stop (ds ++ rest)) :
    Lexes other (cs ++ ds) (tokens ++ others) := by
  intro rest hrest location
  obtain ⟨first, hfirst, hscan⟩ := hcs (ds ++ rest) (h rest hrest) location
  obtain ⟨second, hsecond, hnext⟩ := hds rest hrest (location.pastAll cs)
  refine ⟨first ++ second, by rw [List.map_append, hfirst, hsecond], ?_⟩
  have hpast : (location.pastAll cs).pastAll ds = location.pastAll (cs ++ ds) :=
    List.foldl_append.symm
  rw [List.append_assoc, hscan, hnext, hpast, ← comp_map]
  congr 1
  funext tail
  exact (List.append_assoc first second tail).symm

/-- A text before which anything may stand. -/
theorem Lexes.append_free (hcs : Lexes (fun _ => false) cs tokens) (hds : Lexes other ds others) :
    Lexes other (cs ++ ds) (tokens ++ others) :=
  hcs.append hds fun _ _ _ _ => rfl

/-- A text that is cut into tokens on its own. -/
theorem Lexes.scan (h : Lexes stop cs tokens) :
    ∃ placed, placed.map PlacedToken.token = tokens ∧
      Token.scan (String.ofList cs) = .ok placed := by
  obtain ⟨placed, hplaced, hscan⟩ := h [] (by simp) Location.start
  refine ⟨placed, hplaced, ?_⟩
  rw [List.append_nil] at hscan
  rw [Token.scan, String.toList_ofList, hscan, Token.scanFrom.eq_def]
  exact congrArg Except.ok (List.append_nil placed)

/-- A text is cut into one token if that token is at its head. -/
theorem lexes_of_atHead {token : Token}
    (h : ∀ rest, StopsAt stop rest →
      Piece.atHead (c :: (cs ++ rest)) = (.token token, cs.length + 1)) :
    Lexes stop (c :: cs) [token] := by
  intro rest hrest location
  exact ⟨[⟨token, location⟩], rfl, Token.scanFrom_token location (h rest hrest)⟩

/-! ## Pieces -/

namespace Piece

/-- What is at the head of a text that begins no comment. -/
theorem atHead_cons (h : c ≠ '-') :
    atHead (c :: rest) =
      if isBlank c then (.skipped, run isBlank (c :: rest))
      else if isNameStart c then word (c :: rest)
      else if c = '\x22' || c = '\x27' then quoted c (c :: rest)
      else if c = '[' then bracket (c :: rest)
      else match numeral? (c :: rest) with
        | some piece => piece
        | none => symbol (c :: rest) := by
  rw [atHead.eq_def]
  split
  · rename_i heq
    cases heq
  · rename_i heq
    exact absurd (List.cons.inj heq).1 h
  · rename_i heq
    obtain ⟨rfl, rfl⟩ := List.cons.inj heq
    rfl

end Piece

/-- A character of some kind is not one that is not of that kind. -/
theorem ne_of_kind {p : Char → Bool} {d : Char} (hc : p c = true) (hd : p d = false) : c ≠ d := by
  rintro rfl
  rw [hc] at hd
  cases hd

/-- A character is no blank if it is of a kind that no blank is of. -/
theorem isBlank_of_kind {p : Char → Bool} (hc : p c = true)
    (h : [' ', '\t', '\r', '\n', '\x0c'].all (!p ·) = true) : isBlank c = false := by
  have hne (d : Char) (hd : d ∈ [' ', '\t', '\r', '\n', '\x0c']) : c ≠ d :=
    ne_of_kind hc (by simpa using List.all_eq_true.1 h d hd)
  simp [isBlank, hne]

/-! ## Blanks -/

/-- Blanks at the head of a text are passed over one by one. -/
theorem scanFrom_run (location : Location) :
    Token.scanFrom location (run isBlank rest) rest = Token.scanFrom location 0 rest := by
  cases rest with
  | nil => rfl
  | cons c rest =>
    by_cases hc : isBlank c = true
    · have hdash : c ≠ '-' := by
        rintro rfl
        exact absurd hc (by decide)
      have hrun : run isBlank (c :: rest) = run isBlank rest + 1 := by
        rw [run, List.takeWhile_cons_of_pos hc, List.length_cons, run]
      rw [Token.scanFrom, Piece.atHead_cons hdash, if_pos hc, hrun, Token.scanFrom]
      rfl
    · rw [run, List.takeWhile_cons_of_neg hc, List.length_nil]

theorem lexes_blanks (h : AllBlank cs) : Lexes (fun _ => false) cs [] := by
  intro rest _ location
  refine ⟨[], rfl, ?_⟩
  have hrun : run isBlank (cs ++ rest) = cs.length + run isBlank rest := by
    rw [run, List.takeWhile_append_of_pos h, List.length_append, run]
  have hskip (skip : Nat) : Token.scanFrom location (cs.length + skip) (cs ++ rest) =
      Token.scanFrom (location.pastAll cs) skip rest := by
    clear hrun h
    induction cs generalizing location with
    | nil => rw [List.length_nil, Nat.zero_add, List.nil_append]; rfl
    | cons c cs ih =>
      rw [List.length_cons, Nat.add_right_comm]
      exact ih (location.past c)
  rw [← scanFrom_run, hrun, hskip, scanFrom_run]
  exact (id_map _).symm

/-! ## Punctuation -/

/-- Marks that no longer mark begins with. -/
theorem lexes_mark (mark : Symbol)
    (h : mark = .leftBrace ∨ mark = .rightBrace ∨ mark = .rightBracket ∨ mark = .comma) :
    Lexes (fun _ => false) mark.chars [.symbol mark] := by
  rcases h with rfl | rfl | rfl | rfl <;> exact lexes_of_atHead fun rest _ => rfl

/-- A minus that no second one follows. -/
theorem atHead_minus (h : StopsAt (· = '-') rest) :
    Piece.atHead ('-' :: rest) = (.token (.symbol .minus), 1) := by
  cases rest with
  | nil => rfl
  | cons c rest =>
    have hc : c ≠ '-' := by simpa using h
    rw [Piece.atHead.eq_def]
    split
    · rename_i heq
      cases heq
    · rename_i heq
      exact absurd (List.cons.inj (List.cons.inj heq).2).1 hc
    · rename_i heq
      obtain ⟨rfl, rfl⟩ := List.cons.inj heq
      rfl

/-- A single minus. -/
theorem lexes_minus : Lexes (· = '-') ['-'] [.symbol .minus] :=
  lexes_of_atHead fun _ hrest => atHead_minus hrest

/-- A single equals sign. -/
theorem lexes_assign : Lexes (· = '=') ['='] [.symbol .assign] := by
  refine lexes_of_atHead fun rest hrest => ?_
  cases rest with
  | nil => rfl
  | cons c rest =>
    have hc : c ≠ '=' := by simpa using hrest
    -- of the marks before it in the list, only one begins with it
    have hbefore : (Symbol.all.take 22).all fun mark =>
        mark = .equal || mark.chars.head?.any (· != '=') := rfl
    have hfind : Symbol.all.find? (·.chars.isPrefixOf ('=' :: c :: rest)) = some .assign := by
      refine List.find?_eq_some_iff_append.2
        ⟨rfl, Symbol.all.take 22, Symbol.all.drop 23, rfl, fun mark hmark => ?_⟩
      have hmark := List.all_eq_true.1 hbefore mark hmark
      rw [Bool.or_eq_true, decide_eq_true_eq, Option.any_eq_true] at hmark
      rcases hmark with rfl | ⟨d, hd, hne⟩
      · simp [Symbol.chars, List.isPrefixOf, Ne.symm hc]
      · obtain ⟨ds, hds⟩ := List.head?_eq_some_iff.1 hd
        simp [hds, List.isPrefixOf, bne_iff_ne.1 hne]
    show Piece.symbol ('=' :: c :: rest) = _
    rw [Piece.symbol, hfind]
    rfl

/-- A bracket that opens no long string. -/
theorem lexes_leftBracket :
    Lexes (fun c => c = '[' || c = '=') ['['] [.symbol .leftBracket] := by
  refine lexes_of_atHead fun rest hrest => ?_
  rw [Piece.atHead_cons (by decide)]
  show Piece.bracket ('[' :: rest) = _
  cases rest with
  | nil => rfl
  | cons c rest =>
    have hc : c ≠ '[' ∧ c ≠ '=' := by simpa using hrest
    have hlevel : longBracketLevel? ('[' :: c :: rest) = none := by
      simp [longBracketLevel?, List.dropWhile, hc]
    simp [Piece.bracket, hlevel, run, hc]

/-! ## Names and keywords -/

/-- A word is read to its end. -/
theorem atHead_word (hc : isNameStart c = true) (hcs : ∀ c ∈ cs, isNameRest c = true)
    (hrest : StopsAt isNameRest rest) :
    Piece.atHead (c :: (cs ++ rest)) =
      (match Keyword.ofText? (String.ofList (c :: cs)) with
        | some keyword => .token (.keyword keyword)
        | none => .token (.name (String.ofList (c :: cs))), cs.length + 1) := by
  have hfirst : isNameRest c = true := by
    simp only [isNameStart, isNameRest, Char.isAlphanum, Bool.or_eq_true] at hc ⊢
    tauto
  have hall : ∀ d ∈ c :: cs, isNameRest d = true := List.forall_mem_cons.2 ⟨hfirst, hcs⟩
  have hrun : run isNameRest (c :: (cs ++ rest)) = cs.length + 1 := by
    rw [← List.cons_append, run, takeWhile_append_of_stop hall hrest, List.length_cons]
  have htake : (c :: (cs ++ rest)).take (cs.length + 1) = c :: cs := by
    rw [List.take_succ_cons, List.take_left]
  rw [Piece.atHead_cons (ne_of_kind hc (by decide)), isBlank_of_kind hc rfl,
    if_neg (by decide), if_pos hc, Piece.word, hrun]
  rw [htake]
  cases Keyword.ofText? (String.ofList (c :: cs)) <;> rfl

/-- What a name is made of. -/
structure IsName (text : String) : Prop where
  /-- A name begins with a letter or an underscore, and goes on with these or digits. -/
  chars : ∃ c cs, text.toList = c :: cs ∧ isNameStart c = true ∧ ∀ d ∈ cs, isNameRest d = true
  /-- No keyword is a name. -/
  not_keyword : ∀ word : Keyword, word.text ≠ text

theorem IsName.ofText? {text : String} (h : IsName text) : Keyword.ofText? text = none := by
  rw [Keyword.ofText?, List.find?_eq_none]
  intro word _
  simpa using h.not_keyword word

theorem lexes_name {text : String} (h : IsName text) :
    Lexes isNameRest text.toList [.name text] := by
  obtain ⟨c, cs, htext, hc, hcs⟩ := h.chars
  have hsame : String.ofList (c :: cs) = text := by rw [← htext, String.ofList_toList]
  rw [htext]
  refine lexes_of_atHead fun rest hrest => ?_
  rw [atHead_word hc hcs hrest, hsame, h.ofText?]

theorem Keyword.ofText?_text (word : Keyword) : ofText? word.text = some word := by
  cases word <;> decide

/-- A keyword is spelled like a name. -/
theorem Keyword.exists_chars (word : Keyword) : ∃ c cs, word.text.toList = c :: cs ∧
    isNameStart c = true ∧ ∀ d ∈ cs, isNameRest d = true := by
  cases word <;> exact ⟨_, _, rfl, rfl, List.all_eq_true.1 rfl⟩

theorem lexes_keyword (word : Keyword) : Lexes isNameRest word.text.toList [.keyword word] := by
  obtain ⟨c, cs, htext, hc, hcs⟩ := word.exists_chars
  have hsame : String.ofList (c :: cs) = word.text := by rw [← htext, String.ofList_toList]
  rw [htext]
  refine lexes_of_atHead fun rest hrest => ?_
  rw [atHead_word hc hcs hrest, hsame, Keyword.ofText?_text]

/-! ## Numerals -/

/-- The parts of a decimal numeral: digits, perhaps a point and digits, and perhaps a power of
ten.  There is a digit before the point or after it. -/
structure DecimalParts (whole fraction power : List Char) : Prop where
  /-- Digits stand before the point. -/
  whole_digits : AllDigits whole
  /-- Digits stand after the point, if there is one. -/
  fraction_digits : fraction = [] ∨ ∃ digits, AllDigits digits ∧ fraction = '.' :: digits
  /-- There is a digit. -/
  some_digit : whole ≠ [] ∨ 1 < fraction.length
  /-- A power has a mark, perhaps a sign, and digits. -/
  power_digits : power = [] ∨ ∃ mark sign digits, (mark = 'e' ∨ mark = 'E') ∧
    (sign = [] ∨ sign = ['+'] ∨ sign = ['-']) ∧ digits ≠ [] ∧ AllDigits digits ∧
    power = mark :: (sign ++ digits)

/-- A text is a decimal numeral. -/
def IsDecimal (cs : List Char) : Prop :=
  ∃ whole fraction power, DecimalParts whole fraction power ∧ cs = whole ++ fraction ++ power

/-- Characters that may go on with a numeral. -/
def goesOn (c : Char) : Bool :=
  c.isDigit || c = '.' || c = 'e' || c = 'E' || c = 'x' || c = 'X'

section Numerals

variable {whole fraction power : List Char}

theorem exponentLength_append (h : DecimalParts whole fraction power)
    (hrest : StopsAt goesOn rest) : exponentLength (power ++ rest) = power.length := by
  rcases h.power_digits with rfl | ⟨mark, sign, digits, hmark, hsign, hne, hdigits, rfl⟩
  · cases rest with
    | nil => rfl
    | cons c rest =>
      have hc : goesOn c = false := Decimal.stopsAt_cons.1 hrest
      simp only [goesOn, Bool.or_eq_false_iff, decide_eq_false_iff_not] at hc
      simp [exponentLength, hc]
  · have hstop : StopsAt Char.isDigit rest := hrest.of_imp fun c hc => by simp [goesOn, hc]
    have hrun : run Char.isDigit (digits ++ rest) = digits.length := by
      rw [run, takeWhile_append_of_stop hdigits hstop]
    obtain ⟨digit, digits, rfl⟩ := List.exists_cons_of_ne_nil hne
    have hdigit : digit.isDigit = true := hdigits digit (List.mem_cons_self ..)
    have hplus : digit ≠ '+' := by rintro rfl; exact absurd hdigit (by decide)
    have hminus : digit ≠ '-' := by rintro rfl; exact absurd hdigit (by decide)
    rw [List.cons_append] at hrun
    rcases hsign with rfl | rfl | rfl <;>
      simp [exponentLength, hmark, hrun, hplus, hminus]
    all_goals omega

theorem decimalLength_append (h : DecimalParts whole fraction power)
    (hrest : StopsAt goesOn rest) :
    decimalLength (whole ++ fraction ++ power ++ rest) = (whole ++ fraction ++ power).length := by
  have hdigit : StopsAt Char.isDigit rest := hrest.of_imp fun c hc => by simp [goesOn, hc]
  have hpoint : StopsAt (· = '.') rest := hrest.of_imp fun c hc => by
    simp only [decide_eq_true_eq] at hc
    simp [goesOn, hc]
  -- what follows the fraction is neither a digit nor a point
  have hpower : StopsAt Char.isDigit (power ++ rest) ∧ StopsAt (· = '.') (power ++ rest) := by
    rcases h.power_digits with rfl | ⟨mark, sign, digits, rfl | rfl, -, -, -, rfl⟩
    · exact ⟨hdigit, hpoint⟩
    · simp
    · simp
  have hfraction : StopsAt Char.isDigit (fraction ++ (power ++ rest)) := by
    rcases h.fraction_digits with rfl | ⟨digits, -, rfl⟩
    · exact hpower.1
    · simp
  have hwhole : run Char.isDigit (whole ++ (fraction ++ (power ++ rest))) = whole.length := by
    rw [run, takeWhile_append_of_stop h.whole_digits hfraction]
  have hdrop : (whole ++ (fraction ++ (power ++ rest))).drop (whole.length + fraction.length) =
      power ++ rest := by
    rw [← List.append_assoc, ← List.length_append, List.drop_left]
  have hexponent := exponentLength_append h hrest
  rw [List.append_assoc, List.append_assoc, decimalLength, hwhole, List.drop_left]
  generalize power ++ rest = tail at *
  rcases h.fraction_digits with rfl | ⟨digits, hdigits, rfl⟩
  · have hne : whole ≠ [] := by simpa using h.some_digit
    cases tail with
    | nil => simp_all
    | cons c tail =>
      have hc : c ≠ '.' := by simpa using hpower.2
      simp_all
  · have hrun : run Char.isDigit (digits ++ tail) = digits.length := by
      rw [run, takeWhile_append_of_stop hdigits hpower.1]
    have hsome : ¬ (whole = [] ∧ digits = []) := by
      rintro ⟨rfl, rfl⟩
      simpa using h.some_digit
    simp [hrun, hsome, hexponent, Nat.add_assoc, Nat.add_comm, Nat.add_left_comm]

end Numerals

/-- Characters that a numeral begins with. -/
def beginsNumeral (c : Char) : Bool := c.isDigit || c = '.'

theorem exists_beginsNumeral (h : IsDecimal cs) :
    ∃ c ds, cs = c :: ds ∧ beginsNumeral c = true := by
  obtain ⟨whole, fraction, power, hparts, rfl⟩ := h
  cases whole with
  | cons c whole =>
    exact ⟨c, _, rfl, by simp [beginsNumeral, hparts.whole_digits c (List.mem_cons_self ..)]⟩
  | nil =>
    rcases hparts.fraction_digits with rfl | ⟨digits, -, rfl⟩
    · simpa using hparts.some_digit
    · exact ⟨'.', _, rfl, rfl⟩

/-- Letters come after the digits. -/
theorem not_isDigit_of_isAlpha (hc : c.isAlpha = true) : c.isDigit = false := by
  refine Bool.eq_false_iff.2 fun hdigit => ?_
  have hlast : c.toNat ≤ 57 := (Char.isDigit_iff_toNat.1 hdigit).2
  have hfirst : (65 : UInt32) ≤ c.val := by
    rcases Bool.or_eq_true_iff.1 (show (c.isUpper || c.isLower) = true from hc) with h | h
    · exact (of_decide_eq_true h).1
    · have hlower : (97 : UInt32) ≤ c.val :=
        of_decide_eq_true (Bool.and_eq_true_iff.1 h).1
      exact UInt32.le_trans (by decide) hlower
  have hle : 65 ≤ c.val.toNat := UInt32.le_iff_toNat_le.1 hfirst
  have hsame : c.toNat = c.val.toNat := rfl
  omega

theorem isNameStart_of_beginsNumeral (hc : beginsNumeral c = true) : isNameStart c = false := by
  rcases Bool.or_eq_true_iff.1 hc with hdigit | hpoint
  · have hscore : c ≠ '_' := ne_of_kind hdigit (by decide)
    have halpha : c.isAlpha = false := Bool.eq_false_iff.2 fun halpha => by
      rw [not_isDigit_of_isAlpha halpha] at hdigit
      cases hdigit
    simp [isNameStart, halpha, hscore]
  · rw [of_decide_eq_true hpoint]
    decide

/-- A digit or a point begins a numeral or a symbol. -/
theorem atHead_of_beginsNumeral (hc : beginsNumeral c = true) (rest : List Char) :
    Piece.atHead (c :: rest) = match Piece.numeral? (c :: rest) with
      | some piece => piece
      | none => Piece.symbol (c :: rest) := by
  have hquote : (c = '\x22' || c = '\x27') = false := by
    simp [ne_of_kind hc (by decide : beginsNumeral '\x22' = false),
      ne_of_kind hc (by decide : beginsNumeral '\x27' = false)]
  rw [Piece.atHead_cons (ne_of_kind hc (by decide)), isBlank_of_kind hc rfl,
    isNameStart_of_beginsNumeral hc, hquote, if_neg (by decide), if_neg (by decide),
    if_neg (by decide), if_neg (ne_of_kind hc (by decide))]

/-- The mark of a hexadecimal numeral is not in a decimal one. -/
theorem ne_hexMark_of_mem (h : IsDecimal cs) (hc : c ∈ cs) : c ≠ 'x' ∧ c ≠ 'X' := by
  have hdigit {digits : List Char} (hdigits : AllDigits digits) (hc : c ∈ digits) :
      c ≠ 'x' ∧ c ≠ 'X' :=
    ⟨ne_of_kind (hdigits c hc) (by decide), ne_of_kind (hdigits c hc) (by decide)⟩
  obtain ⟨whole, fraction, power, hparts, rfl⟩ := h
  rcases List.mem_append.1 hc with hc | hc
  · rcases List.mem_append.1 hc with hc | hc
    · exact hdigit hparts.whole_digits hc
    · rcases hparts.fraction_digits with rfl | ⟨digits, hdigits, rfl⟩
      · cases hc
      · rcases List.mem_cons.1 hc with rfl | hc
        · decide
        · exact hdigit hdigits hc
  · rcases hparts.power_digits with rfl | ⟨mark, sign, digits, hmark, hsign, -, hdigits, rfl⟩
    · cases hc
    · rcases List.mem_cons.1 hc with rfl | hc
      · rcases hmark with rfl | rfl <;> decide
      · rcases List.mem_append.1 hc with hc | hc
        · rcases hsign with rfl | rfl | rfl
          · cases hc
          · rw [List.mem_singleton.1 hc]
            decide
          · rw [List.mem_singleton.1 hc]
            decide
        · exact hdigit hdigits hc

/-- A decimal numeral is not the beginning of a hexadecimal one. -/
theorem hexDigits_append (h : IsDecimal cs) (hrest : StopsAt goesOn rest) :
    hexDigits (cs ++ rest) = 0 := by
  rw [hexDigits.eq_def]
  split
  · rename_i mark tail heq
    have hmark : mark ≠ 'x' ∧ mark ≠ 'X' := by
      match cs, heq with
      | [_], heq =>
        have hmark : goesOn mark = false := by
          obtain rfl : rest = mark :: tail := (List.cons.inj heq).2
          exact Decimal.stopsAt_cons.1 hrest
        simp only [goesOn, Bool.or_eq_false_iff, decide_eq_false_iff_not] at hmark
        exact ⟨hmark.1.2, hmark.2⟩
      | _ :: second :: _, heq =>
        obtain ⟨rfl, -⟩ := List.cons.inj (List.cons.inj heq).2
        exact ne_hexMark_of_mem h (by simp)
      | [], _ =>
        obtain ⟨_, _, hcs, -⟩ := exists_beginsNumeral h
        cases hcs
    simp [hmark]
  · rfl

/-- **A decimal numeral is one token**, the double that it reads as. -/
theorem lexes_decimal (h : IsDecimal cs) :
    Lexes goesOn cs [.number (Numeral.ofChars cs).toFloat] := by
  obtain ⟨c, ds, rfl, hc⟩ := exists_beginsNumeral h
  refine lexes_of_atHead fun rest hrest => ?_
  have hlength : decimalLength (c :: (ds ++ rest)) = ds.length + 1 := by
    obtain ⟨whole, fraction, power, hparts, hsame⟩ := h
    rw [← List.cons_append, hsame, decimalLength_append hparts hrest, ← hsame, List.length_cons]
  have hhex : hexDigits (c :: (ds ++ rest)) = 0 := hexDigits_append h hrest
  have htake : (c :: (ds ++ rest)).take (ds.length + 1) = c :: ds := by
    rw [List.take_succ_cons, List.take_left]
  have hnumeral : Piece.numeral? (c :: (ds ++ rest)) =
      some (.token (.number (Numeral.ofChars (c :: ds)).toFloat), ds.length + 1) := by
    rw [Piece.numeral?, hhex, hlength]
    show some (Piece.token (.number (Numeral.ofChars
      ((c :: (ds ++ rest)).take (ds.length + 1))).toFloat), ds.length + 1) = _
    rw [htake]
  rw [atHead_of_beginsNumeral hc, hnumeral]

/-! ## Strings -/

/-- A string without quotes, backslashes or line feeds inside. -/
def IsPlainText (cs : List Char) : Prop := ∀ c ∈ cs, c ≠ '\x22' ∧ c ≠ '\\' ∧ c ≠ '\n'

theorem quotedLength_append (h : IsPlainText cs) (rest : List Char) :
    quotedLength '\x22' (cs ++ '\x22' :: rest) = (cs.length + 1, true) := by
  induction cs with
  | nil => rfl
  | cons c cs ih =>
    obtain ⟨hquote, hslash, hfeed⟩ := h c (List.mem_cons_self ..)
    have hnext := ih fun d hd => h d (List.mem_cons_of_mem _ hd)
    rw [List.cons_append, quotedLength.eq_def]
    split
    · rename_i heq
      cases heq
    · rename_i heq
      exact absurd (List.cons.inj heq).1 hslash
    · rename_i heq
      obtain ⟨rfl, rfl⟩ := List.cons.inj heq
      rw [if_neg hquote, if_neg hfeed, hnext, List.length_cons]

/-- **A string in double quotes is one token**, as it is written. -/
theorem lexes_quoted (h : IsPlainText cs) :
    Lexes (fun _ => false) ('\x22' :: (cs ++ ['\x22']))
      [.quoted (String.ofList ('\x22' :: (cs ++ ['\x22'])))] := by
  refine lexes_of_atHead fun rest _ => ?_
  have hlength : quotedLength '\x22' (cs ++ ['\x22'] ++ rest) = (cs.length + 1, true) := by
    rw [List.append_assoc]
    exact quotedLength_append h rest
  have htake : ('\x22' :: (cs ++ ['\x22'] ++ rest)).take (cs.length + 2) =
      '\x22' :: (cs ++ ['\x22']) := by
    rw [List.take_succ_cons, List.take_left' (by simp)]
  rw [Piece.atHead_cons (by decide)]
  show Piece.quoted '\x22' ('\x22' :: (cs ++ ['\x22'] ++ rest)) = _
  rw [Piece.quoted, List.drop_one, List.tail_cons, hlength]
  dsimp only
  rw [if_pos rfl, htake, List.length_append]
  rfl

end Script
end ProductionRates
