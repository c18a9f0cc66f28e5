import ProductionRates.Proofs.Decimal.NumberTexts
import ProductionRates.Proofs.Script.Lexing
import ProductionRates.Proofs.Script.Reading

/-!
# Values written as scripts

A value can be written in many ways: its numbers by any decimal numerals that read as them, and with
any blanks around its parts.  `Written` relates a value to the texts it can be written as.  A script
that assigns such a text to a name is read as the map of that name to the value, and every plain
value can be written.

* `Value.IsPlain` — values whose numbers are finite, whose texts need no escapes, and whose maps
  have some entry and no key twice;
* `Written` — the texts of a value;
* `Written.spells` — a text of a value is cut into tokens that are read as the value;
* `exists_written` — every plain value has a text;
* `assignment_of_written` — the script that assigns a text of a value to a name.
-/

namespace ProductionRates
namespace Script

open Decimal

/-! ## Plain values -/

namespace Key

/-- A key as a value. -/
def toValue : Key → Value
  | .number x => .number x
  | .text s => .text s

/-- A finite number that is not the negative zero, or a text that needs no escapes. -/
def IsPlain : Key → Prop
  | .number x => isFinite x = true ∧ x ≠ -0
  | .text s => IsPlainText s.toList

/-- A plain key is the key of its value. -/
theorem key?_toValue {key : Key} (h : key.IsPlain) : key.toValue.key? = .ok key := by
  cases key with
  | text s => rfl
  | number x =>
    obtain ⟨hfinite, hzero⟩ := h
    have hnan := isNaN_of_isFinite hfinite
    have hkey : number? x = some (.number x) := by
      rw [number?, hnan, if_neg (by decide)]
      split
      · rename_i heq
        obtain ⟨-, -, rfl | ⟨rfl, -⟩ | ⟨hneg, -⟩⟩ := Float.beq_iff_ne_nan_and_eq.1 heq
        · rfl
        · rfl
        · exact absurd hneg hzero
      · rfl
    rw [toValue, Value.key?, hkey]

/-- Plain keys are the same only if they are equal. -/
theorem beq_eq_false {a b : Key} (ha : a.IsPlain) (hb : b.IsPlain) (h : a ≠ b) :
    (a == b) = false := by
  rw [Bool.eq_false_iff]
  intro hsame
  cases a with
  | text a =>
    cases b with
    | text b => exact h (congrArg text (eq_of_beq (α := String) hsame))
    | number y => cases hsame
  | number x =>
    cases b with
    | text b => cases hsame
    | number y =>
      obtain ⟨-, -, rfl | ⟨-, hy⟩ | ⟨hx, -⟩⟩ := Float.beq_iff_ne_nan_and_eq.1 hsame
      · exact h rfl
      · exact hb.2 hy
      · exact ha.2 hx

end Key

/-- Values with finite numbers, texts that need no escapes, and maps with some entry and without a
key twice. -/
inductive Value.IsPlain : Value → Prop where
  /-- The absent value. -/
  | nil : IsPlain .nil
  /-- A truth value. -/
  | boolean (b : Bool) : IsPlain (.boolean b)
  /-- A finite number. -/
  | number {x : Float} (h : isFinite x = true) : IsPlain (.number x)
  /-- A text without quotes, backslashes or line feeds. -/
  | text {text : String} (h : IsPlainText text.toList) : IsPlain (.text text)
  /-- A sequence of plain values. -/
  | sequence {items : List Value} (h : ∀ item ∈ items, IsPlain item) : IsPlain (.sequence items)
  /-- A map of plain keys to plain values. -/
  | map {entries : List (Key × Value)} (hsome : entries ≠ [])
      (hkeys : ∀ entry ∈ entries, entry.1.IsPlain) (hdistinct : (entries.map Prod.fst).Nodup)
      (h : ∀ entry ∈ entries, IsPlain entry.2) : IsPlain (.map entries)

theorem Key.isPlain_toValue {key : Key} (h : key.IsPlain) : key.toValue.IsPlain := by
  cases key with
  | number x => exact .number h.1
  | text s => exact .text h

/-! ## Texts of values -/

/-- An entry of a map and its text: the key in brackets, an equals sign and the value, with blanks
before the entry and before the equals sign. -/
structure WrittenEntry where
  /-- The blanks before the entry. -/
  before : List Char
  /-- The key. -/
  key : Key
  /-- The text of the key. -/
  keyText : List Char
  /-- The blanks before the equals sign. -/
  between : List Char
  /-- The value. -/
  value : Value
  /-- The text of the value. -/
  valueText : List Char

namespace WrittenEntry

/-- The key and the value. -/
def entry (written : WrittenEntry) : Key × Value := (written.key, written.value)

/-- The text of an entry. -/
def chars (written : WrittenEntry) : List Char :=
  written.before ++ '[' ::
    (written.keyText ++ ']' :: (written.between ++ '=' :: written.valueText))

end WrittenEntry

/-- Texts with commas between them. -/
def commaSeparated (texts : List (List Char)) : List Char := [','].intercalate texts

/-- A value and a text that it is written as. -/
inductive Written : Value → List Char → Prop where
  /-- The absent value by its keyword. -/
  | nil : Written .nil Keyword.nilWord.text.toList
  /-- A truth value by its keyword. -/
  | boolean (b : Bool) :
      Written (.boolean b) (if b then Keyword.trueWord else .falseWord).text.toList
  /-- A number by a decimal numeral that reads as it. -/
  | number {cs : List Char} (h : IsDecimal cs) :
      Written (.number (Numeral.ofChars cs).toFloat) cs
  /-- A negative number by a minus and a decimal numeral. -/
  | negative {blanks cs : List Char} (hblanks : AllBlank blanks) (h : IsDecimal cs) :
      Written (.number (-(Numeral.ofChars cs).toFloat)) ('-' :: (blanks ++ cs))
  /-- A text in double quotes. -/
  | text (text : String) : Written (.text text) ('\x22' :: (text.toList ++ ['\x22']))
  /-- A sequence by its items in braces, with commas between them. -/
  | sequence {blanks : List Char} {parts : List (Value × List Char)} (hblanks : AllBlank blanks)
      (h : ∀ part ∈ parts, Written part.1 part.2) :
      Written (.sequence (parts.map Prod.fst))
        ('\x7b' :: (blanks ++ commaSeparated (parts.map Prod.snd) ++ ['\x7d']))
  /-- A map by its entries in braces, with commas between them. -/
  | map {parts : List WrittenEntry}
      (hblanks : ∀ part ∈ parts, AllBlank part.before ∧ AllBlank part.between)
      (hkeys : ∀ part ∈ parts, Written part.key.toValue part.keyText)
      (h : ∀ part ∈ parts, Written part.value part.valueText) :
      Written (.map (parts.map WrittenEntry.entry))
        ('\x7b' :: (commaSeparated (parts.map WrittenEntry.chars) ++ ['\x7d']))
  /-- Blanks around a text. -/
  | spaced {value : Value} {before cs after : List Char} (hbefore : AllBlank before)
      (hafter : AllBlank after) (h : Written value cs) : Written value (before ++ cs ++ after)

/-! ## What a text spells -/

/-- Characters that may follow the text of a value: blanks, and what closes or separates. -/
def followers : List Char := [' ', '\t', '\r', '\n', '\x0c', ',', '\x7d', ']']

/-- Characters that must not follow the text of a value. -/
def continues (c : Char) : Bool := !followers.contains c

/-- A text begins so that it is not taken for part of a longer mark. -/
def Opens (cs : List Char) : Prop := ∃ c ds, cs = c :: ds ∧ c ≠ '[' ∧ c ≠ '='

/-- A text is cut into tokens that are read as a value, and may stand after a bracket or an equals
sign. -/
structure Spells (cs : List Char) (value : Value) : Prop where
  /-- The text begins as a value. -/
  opens : Opens cs
  /-- The tokens. -/
  tokens : ∃ tokens, Lexes continues cs tokens ∧ Reads tokens value

variable {c : Char} {cs ds blanks : List Char} {tokens : List Token}

/-- A character may not follow a value if it is of a kind that nothing after a value is of. -/
theorem continues_of_kind {p : Char → Bool} (h : followers.all (!p ·) = true) (hc : p c = true) :
    continues c = true := by
  by_contra hfollows
  have hmem : c ∈ followers := by simpa [continues] using hfollows
  have hnot := List.all_eq_true.1 h c hmem
  rw [hc] at hnot
  cases hnot

theorem continues_of_isBlank (hc : isBlank c = true) : continues c = false := by
  simp only [isBlank, Bool.or_eq_true, decide_eq_true_eq] at hc
  rcases hc with (((rfl | rfl) | rfl) | rfl) | rfl <;> rfl

theorem stopsAt_of_opens (h : Opens cs) {rest : List Char} :
    StopsAt (fun c => c = '[' || c = '=') (cs ++ rest) := by
  obtain ⟨c, ds, rfl, hbracket, hequals⟩ := h
  simp [hbracket, hequals]

/-- A value after an equals sign. -/
theorem lexes_assigned (hopens : Opens cs) (h : Lexes continues cs tokens) :
    Lexes continues ('=' :: cs) (.symbol .assign :: tokens) :=
  lexes_assign.append h fun rest _ => (stopsAt_of_opens hopens).of_imp fun c hc => by
    rw [decide_eq_true_eq] at hc
    simp [hc]

theorem opens_append (h : Opens cs) (ds : List Char) : Opens (cs ++ ds) := by
  obtain ⟨c, cs, rfl, hc⟩ := h
  exact ⟨c, cs ++ ds, rfl, hc⟩

/-- Blanks may follow a value whenever what is after them may. -/
theorem stopsAt_blanks (hblanks : AllBlank blanks) {rest : List Char}
    (hrest : StopsAt continues rest) : StopsAt continues (blanks ++ rest) := by
  cases blanks with
  | nil => exact hrest
  | cons c blanks => simpa using continues_of_isBlank (hblanks c (List.mem_cons_self ..))

theorem Spells.spaced {before after : List Char} {value : Value} (h : Spells cs value)
    (hbefore : AllBlank before) (hafter : AllBlank after) :
    Spells (before ++ cs ++ after) value := by
  obtain ⟨hopens, tokens, hlexes, hreads⟩ := h
  refine ⟨?_, tokens, ?_, hreads⟩
  · refine opens_append ?_ after
    cases before with
    | nil => exact hopens
    | cons c before =>
      have hc := hbefore c (List.mem_cons_self ..)
      exact ⟨c, before ++ cs, rfl, ne_of_kind hc (by decide), ne_of_kind hc (by decide)⟩
  · have hend : Lexes continues after [] := (lexes_blanks hafter).mono fun _ hc => nomatch hc
    have hlast := hlexes.append hend fun rest => stopsAt_blanks hafter
    have hall := (lexes_blanks hbefore).append_free hlast
    rwa [List.nil_append, List.append_nil, ← List.append_assoc] at hall

/-- A keyword that is read as a value. -/
theorem spells_keyword {word : Keyword} {value : Value} (h : Reads [.keyword word] value) :
    Spells word.text.toList value := by
  refine ⟨?_, _, (lexes_keyword word).mono fun _ => continues_of_kind rfl, h⟩
  cases word <;> exact ⟨_, _, rfl, by decide, by decide⟩

theorem lexes_numeral (h : IsDecimal cs) :
    Lexes continues cs [.number (Numeral.ofChars cs).toFloat] :=
  (lexes_decimal h).mono fun _ => continues_of_kind rfl

theorem spells_number (h : IsDecimal cs) :
    Spells cs (.number (Numeral.ofChars cs).toFloat) := by
  refine ⟨?_, _, lexes_numeral h, reads_number _⟩
  obtain ⟨c, ds, rfl, hc⟩ := exists_beginsNumeral h
  exact ⟨c, ds, rfl, ne_of_kind hc (by decide), ne_of_kind hc (by decide)⟩

theorem spells_negative (hblanks : AllBlank blanks) (h : IsDecimal cs) :
    Spells ('-' :: (blanks ++ cs)) (.number (-(Numeral.ofChars cs).toFloat)) := by
  refine ⟨⟨_, _, rfl, by decide, by decide⟩, _, ?_, (reads_number _).negated⟩
  have hnumber := (lexes_blanks hblanks).append_free (lexes_numeral h)
  refine lexes_minus.append hnumber fun rest _ => ?_
  -- the next character is a blank or begins the numeral
  cases blanks with
  | nil =>
    obtain ⟨c, ds, rfl, hc⟩ := exists_beginsNumeral h
    simpa using ne_of_kind hc (by decide)
  | cons c blanks =>
    simpa using ne_of_kind (hblanks c (List.mem_cons_self ..)) (by decide)

theorem spells_text (h : IsPlainText cs) :
    Spells ('\x22' :: (cs ++ ['\x22'])) (.text (String.ofList cs)) :=
  ⟨⟨_, _, rfl, by decide, by decide⟩, _, (lexes_quoted h).mono (fun _ hc => nomatch hc),
    reads_text cs⟩

/-! ## Tables -/

/-- Texts with commas between them are cut into tokens with commas between them. -/
theorem lexes_commaSeparated {α : Type} {parts : List α} {text : α → List Char}
    {tokens : α → List Token} (h : ∀ part ∈ parts, Lexes continues (text part) (tokens part)) :
    Lexes continues (commaSeparated (parts.map text)) (separated (parts.map tokens)) := by
  induction parts with
  | nil => exact (lexes_blanks allBlank_nil).mono fun _ hc => nomatch hc
  | cons part parts ih =>
    have hpart := h part (List.mem_cons_self ..)
    cases parts with
    | nil =>
      rw [List.map_singleton, List.map_singleton, commaSeparated, separated,
        List.intercalate_singleton, List.intercalate_singleton]
      exact hpart
    | cons next parts =>
      have hrest := ih fun other hother => h other (List.mem_cons_of_mem _ hother)
      have hcomma : Lexes continues (',' :: commaSeparated ((next :: parts).map text))
          (.symbol .comma :: separated ((next :: parts).map tokens)) :=
        (lexes_mark .comma (by simp)).append_free hrest
      have hall := hpart.append hcomma fun rest _ => Decimal.stopsAt_cons.2 rfl
      rw [List.map_cons, List.map_cons, List.map_cons, List.map_cons, commaSeparated, separated,
        List.intercalate_cons_cons, List.intercalate_cons_cons, List.append_assoc,
        List.append_assoc]
      exact hall

theorem lexes_braces (h : Lexes continues cs tokens) :
    Lexes continues ('\x7b' :: (cs ++ ['\x7d']))
      (.symbol .leftBrace :: (tokens ++ [.symbol .rightBrace])) := by
  have hclose : Lexes continues ['\x7d'] [.symbol .rightBrace] :=
    (lexes_mark .rightBrace (by simp)).mono fun _ hc => nomatch hc
  have hinner := h.append hclose fun rest _ => Decimal.stopsAt_cons.2 rfl
  exact (lexes_mark .leftBrace (by simp)).append_free hinner

/-- Fields without keys make a sequence. -/
theorem ofFields_positional (items : List Value) :
    Value.ofFields (items.map fun item => (none, item)) = .sequence items := by
  rw [Value.ofFields, if_pos (by simp), List.map_map]
  exact congrArg Value.sequence (List.map_id items)

theorem keyed_some (next : Nat) (entries : List (Key × Value)) :
    Script.keyed next (entries.map fun entry => (some entry.1, entry.2)) = entries := by
  induction entries with
  | nil => rfl
  | cons entry entries ih => rw [List.map_cons, Script.keyed, ih]

/-- Fields with plain keys make a map, if no key comes twice. -/
theorem ofFields_keyed {entries : List (Key × Value)} (hsome : entries ≠ [])
    (hkeys : ∀ entry ∈ entries, entry.1.IsPlain) (hdistinct : (entries.map Prod.fst).Nodup) :
    Value.ofFields (entries.map fun entry => (some entry.1, entry.2)) = .map entries := by
  have hdiffer : entries.Pairwise fun a b => (a.1 == b.1) = false := by
    have hne : entries.Pairwise fun a b => a.1 ≠ b.1 := List.pairwise_map.1 hdistinct
    exact hne.imp_of_mem fun ha hb h => Key.beq_eq_false (hkeys _ ha) (hkeys _ hb) h
  have hnot : ¬ (entries.map fun entry => (some entry.1, entry.2)).all (·.1.isNone) = true := by
    obtain ⟨entry, entries, rfl⟩ := List.exists_cons_of_ne_nil hsome
    simp
  rw [Value.ofFields, if_neg hnot, keyed_some, Table.ofList_of_pairwise hdiffer]

theorem spells_sequence (hblanks : AllBlank blanks) {parts : List (Value × List Char)}
    (h : ∀ part ∈ parts, Spells part.2 part.1) :
    Spells ('\x7b' :: (blanks ++ commaSeparated (parts.map Prod.snd) ++ ['\x7d']))
      (.sequence (parts.map Prod.fst)) := by
  choose! tokens hlexes hreads using fun part hpart => (h part hpart).tokens
  refine ⟨⟨_, _, rfl, by decide, by decide⟩, _,
    lexes_braces ((lexes_blanks hblanks).append_free (lexes_commaSeparated hlexes)), ?_⟩
  have hfields : ∀ field ∈ parts.map fun part => (tokens part, none, part.1),
      ReadsField field.1 field.2 := by
    intro field hfield
    obtain ⟨part, hpart, rfl⟩ := List.mem_map.1 hfield
    exact (hreads part hpart).positional
  have htable := reads_table hfields
  rw [List.map_map, List.map_map] at htable
  have hvalue := ofFields_positional (parts.map Prod.fst)
  rw [List.map_map] at hvalue
  rw [← hvalue]
  exact htable

/-- An entry is read as a field with its key. -/
theorem spells_entry {part : WrittenEntry} (hbefore : AllBlank part.before)
    (hbetween : AllBlank part.between) (hplain : part.key.IsPlain)
    (hkey : Spells part.keyText part.key.toValue) (hvalue : Spells part.valueText part.value) :
    ∃ tokens, Lexes continues part.chars tokens ∧
      ReadsField tokens (some part.key, part.value) := by
  obtain ⟨hopensKey, keyTokens, hlexesKey, hreadsKey⟩ := hkey
  obtain ⟨hopensValue, tokens, hlexes, hreads⟩ := hvalue
  refine ⟨_, ?_, hreads.keyed hreadsKey (Key.key?_toValue hplain)⟩
  have hafter : Lexes continues (']' :: (part.between ++ '=' :: part.valueText))
      (.symbol .rightBracket :: .symbol .assign :: tokens) :=
    (lexes_mark .rightBracket (by simp)).append_free
      ((lexes_blanks hbetween).append_free (lexes_assigned hopensValue hlexes))
  have hinner := hlexesKey.append hafter fun rest _ => Decimal.stopsAt_cons.2 rfl
  have hbracket := lexes_leftBracket.append hinner fun rest _ => by
    rw [List.append_assoc]
    exact stopsAt_of_opens hopensKey
  exact (lexes_blanks hbefore).append_free hbracket

theorem spells_map {parts : List WrittenEntry}
    (hblanks : ∀ part ∈ parts, AllBlank part.before ∧ AllBlank part.between)
    (hplain : ∀ part ∈ parts, part.key.IsPlain)
    (hkeys : ∀ part ∈ parts, Spells part.keyText part.key.toValue)
    (h : ∀ part ∈ parts, Spells part.valueText part.value)
    (hsome : parts.map WrittenEntry.entry ≠ [])
    (hdistinct : ((parts.map WrittenEntry.entry).map Prod.fst).Nodup) :
    Spells ('\x7b' :: (commaSeparated (parts.map WrittenEntry.chars) ++ ['\x7d']))
      (.map (parts.map WrittenEntry.entry)) := by
  choose! tokens hlexes hreads using fun part hpart =>
    spells_entry (hblanks part hpart).1 (hblanks part hpart).2 (hplain part hpart)
      (hkeys part hpart) (h part hpart)
  refine ⟨⟨_, _, rfl, by decide, by decide⟩, _, lexes_braces (lexes_commaSeparated hlexes), ?_⟩
  have hfields : ∀ field ∈ parts.map fun part => (tokens part, some part.key, part.value),
      ReadsField field.1 field.2 := by
    intro field hfield
    obtain ⟨part, hpart, rfl⟩ := List.mem_map.1 hfield
    exact hreads part hpart
  have htable := reads_table hfields
  rw [List.map_map, List.map_map] at htable
  have hentries : ∀ entry ∈ parts.map WrittenEntry.entry, entry.1.IsPlain := by
    intro entry hentry
    obtain ⟨part, hpart, rfl⟩ := List.mem_map.1 hentry
    exact hplain part hpart
  have hvalue := ofFields_keyed hsome hentries hdistinct
  rw [List.map_map] at hvalue
  rw [← hvalue]
  exact htable

/-- **A text of a plain value is cut into tokens that are read as it.** -/
theorem Written.spells {value : Value} (h : Written value cs) (hplain : value.IsPlain) :
    Spells cs value := by
  induction h with
  | nil => exact spells_keyword reads_nil
  | boolean b =>
    have hspells := spells_keyword (reads_boolean b)
    cases b <;> exact hspells
  | number h => exact spells_number h
  | negative hblanks h => exact spells_negative hblanks h
  | text text =>
    cases hplain with
    | text htext =>
      have hspells := spells_text htext
      rwa [String.ofList_toList] at hspells
  | sequence hblanks h ih =>
    cases hplain with
    | sequence hitems =>
      exact spells_sequence hblanks fun part hpart =>
        ih part hpart (hitems part.1 (List.mem_map_of_mem hpart))
  | @map parts hblanks hkeys h ihkeys ih =>
    cases hplain with
    | map hsome hplains hdistinct hvalues =>
      have hmem (part : WrittenEntry) (hpart : part ∈ parts) :
          part.entry ∈ parts.map WrittenEntry.entry := List.mem_map_of_mem hpart
      exact spells_map hblanks (fun part hpart => hplains _ (hmem part hpart))
        (fun part hpart => ihkeys part hpart (Key.isPlain_toValue (hplains _ (hmem part hpart))))
        (fun part hpart => ih part hpart (hvalues _ (hmem part hpart))) hsome hdistinct
  | spaced hbefore hafter h ih => exact (ih hplain).spaced hbefore hafter

/-! ## Every plain value has a text -/

section Numerals

variable {whole fraction : List Char}

theorem isDecimal_of_isNumeral (h : IsNumeral whole fraction []) :
    IsDecimal (whole ++ fraction) := by
  refine ⟨whole, fraction, [], ⟨h.whole_digits, ?_, .inl h.whole_ne_nil, .inl rfl⟩, by simp⟩
  rcases h.fraction_digits with rfl | ⟨digits, -, hdigits, rfl⟩
  · exact .inl rfl
  · exact .inr ⟨digits, hdigits, rfl⟩

/-- A numeral without a power is read by its digits and their place. -/
theorem ofChars_of_isNumeral (h : IsNumeral whole fraction []) :
    Numeral.ofChars (whole ++ fraction) =
      ⟨numeralDigits whole fraction, numeralPlace fraction []⟩ := by
  have hstop : StopsAt Char.isDigit fraction := by
    rcases h.fraction_digits with rfl | ⟨digits, -, -, rfl⟩
    · simp
    · simp
  rw [Numeral.ofChars, takeWhile_append_of_stop h.whole_digits hstop,
    dropWhile_append_of_stop h.whole_digits hstop]
  rcases h.fraction_digits with rfl | ⟨digits, -, hdigits, rfl⟩
  · rfl
  · have htake : digits.takeWhile Char.isDigit = digits := by
      simpa using takeWhile_append_of_stop hdigits (Decimal.stopsAt_nil)
    have hdrop : digits.dropWhile Char.isDigit = [] := by
      simpa using dropWhile_append_of_stop hdigits (Decimal.stopsAt_nil)
    show Numeral.mk (natOfDigits 10 (whole ++ digits.takeWhile Char.isDigit))
      (Numeral.powerOfChars Numeral.boundedPower ((digits.dropWhile Char.isDigit).drop 1) -
        (digits.takeWhile Char.isDigit).length) = _
    rw [htake, hdrop]
    rfl

end Numerals

/-- A finite number is written as in messages. -/
theorem exists_written_number {x : Float} (hx : isFinite x = true) :
    ∃ cs, Written (.number x) cs := by
  obtain ⟨negative, y, digits, grid, rfl, hnear, -, hpos, -⟩ := exists_setDigits Layout.message hx
  obtain ⟨whole, fraction, -, hnumeral, hvalue⟩ := setDigits_message hpos
  have hread : (Numeral.ofChars (whole ++ fraction)).toFloat = y := by
    rw [← hvalue] at hnear
    rw [ofChars_of_isNumeral hnumeral]
    exact IsNear.toFloat_eq hnear
  have hdecimal := isDecimal_of_isNumeral hnumeral
  rw [← hread]
  cases negative with
  | false => exact ⟨_, .number hdecimal⟩
  | true => exact ⟨_, .negative allBlank_nil hdecimal⟩

theorem exists_written_key {key : Key} (h : key.IsPlain) : ∃ cs, Written key.toValue cs := by
  cases key with
  | number x => exact exists_written_number h.1
  | text s => exact ⟨_, .text s⟩

/-- **Every plain value can be written.** -/
theorem exists_written {value : Value} (h : value.IsPlain) : ∃ cs, Written value cs := by
  induction h with
  | nil => exact ⟨_, .nil⟩
  | boolean b => exact ⟨_, .boolean b⟩
  | number h => exact exists_written_number h
  | text h => exact ⟨_, .text _⟩
  | @sequence items h ih =>
    choose! text hwritten using ih
    have hparts : ∀ part ∈ items.map fun item => (item, text item), Written part.1 part.2 := by
      intro part hpart
      obtain ⟨item, hitem, rfl⟩ := List.mem_map.1 hpart
      exact hwritten item hitem
    have hsequence := Written.sequence allBlank_nil hparts
    have hsame : items.map (Prod.fst ∘ fun item => (item, text item)) = items := List.map_id items
    rw [List.map_map, hsame] at hsequence
    exact ⟨_, hsequence⟩
  | @map entries hsome hkeys hdistinct h ih =>
    choose! keyText hkeyText using fun entry hentry => exists_written_key (hkeys entry hentry)
    choose! text hwritten using ih
    let part (entry : Key × Value) : WrittenEntry :=
      ⟨[], entry.1, keyText entry, [], entry.2, text entry⟩
    have hpart {p : WrittenEntry → Prop} (hp : ∀ entry ∈ entries, p (part entry)) :
        ∀ other ∈ entries.map part, p other := by
      intro other hother
      obtain ⟨entry, hentry, rfl⟩ := List.mem_map.1 hother
      exact hp entry hentry
    have hmap := Written.map (hpart fun _ _ => ⟨allBlank_nil, allBlank_nil⟩) (hpart hkeyText)
      (hpart hwritten)
    have hsame : entries.map (WrittenEntry.entry ∘ part) = entries := List.map_id entries
    rw [List.map_map, hsame] at hmap
    exact ⟨_, hmap⟩

/-! ## Scripts that assign a value -/

/-- **A plain value that is assigned to a name in a script is read back**, however it is written:
the script comes to the map of that name to that value. -/
theorem assignment_of_written {value : Value} (hplain : value.IsPlain) {name : String}
    (hname : IsName name) :
    (∃ cs, Written value cs) ∧ ∀ before between cs, AllBlank before → AllBlank between →
      Written value cs → ∃ chunk,
        Chunk.parse (String.ofList (before ++ (name.toList ++ (between ++ '=' :: cs)))) =
            .ok chunk ∧
          ∀ source, chunk.evaluate source = .ok (.map [(.text name, value)]) := by
  refine ⟨exists_written hplain, fun before between cs hbefore hbetween hwritten => ?_⟩
  obtain ⟨hopens, tokens, hlexes, hreads⟩ := hwritten.spells hplain
  have hafter := (lexes_blanks hbetween).append_free (lexes_assigned hopens hlexes)
  have hscript := (lexes_name hname).append hafter fun rest _ => by
    -- a blank or the equals sign ends the name
    cases between with
    | nil => exact Decimal.stopsAt_cons.2 rfl
    | cons c between =>
      refine Decimal.stopsAt_cons.2 (Bool.eq_false_iff.2 fun hrest => ?_)
      have hblank := hbetween c (List.mem_cons_self ..)
      rw [isBlank_of_kind hrest rfl] at hblank
      cases hblank
  obtain ⟨placed, hplaced, hscan⟩ := ((lexes_blanks hbefore).append_free hscript).scan
  obtain ⟨chunk, hchunk, hvalue⟩ := hreads.assigned name hplaced
  refine ⟨chunk, ?_, hvalue⟩
  rw [Chunk.parse, hscan]
  exact hchunk

/-- A map with a sequence in it. -/
def sampleValue : Value := .map [(.number 1, .sequence [.boolean true, .number (-2.5)])]

theorem isPlain_sampleValue : sampleValue.IsPlain := by
  refine .map (by simp) ?_ (by simp) ?_
  · intro entry hentry
    rw [List.mem_singleton.1 hentry]
    exact ⟨by decide +kernel, by decide +kernel⟩
  · intro entry hentry
    rw [List.mem_singleton.1 hentry]
    refine .sequence fun item hitem => ?_
    rcases List.mem_pair.1 hitem with rfl | rfl
    · exact .boolean true
    · exact .number (by decide +kernel)

theorem written_sampleValue : Written sampleValue "\x7b[1] = \x7btrue, - 2.5\x7d \x7d".toList := by
  have hspace : AllBlank [' '] := by simp [AllBlank, isBlank]
  have hkey : Written (.number 1) ['1'] := by
    have hdecimal : IsDecimal ['1'] :=
      ⟨['1'], [], [], ⟨by simp [AllDigits], .inl rfl, .inl (by simp), .inl rfl⟩, rfl⟩
    have hread : (Numeral.ofChars ['1']).toFloat = 1 := by decide +kernel
    exact hread ▸ Written.number hdecimal
  have hnumber : Written (.number (-2.5)) ['-', ' ', '2', '.', '5'] := by
    have hdecimal : IsDecimal ['2', '.', '5'] :=
      ⟨['2'], ['.', '5'], [], ⟨by simp [AllDigits], .inr ⟨['5'], by simp [AllDigits], rfl⟩,
        .inl (by simp), .inl rfl⟩, rfl⟩
    have hread : (Numeral.ofChars ['2', '.', '5']).toFloat = 2.5 := by decide +kernel
    exact hread ▸ Written.negative hspace hdecimal
  have hitems : ∀ part ∈ [(Value.boolean true, "true".toList), (.number (-2.5), " - 2.5".toList)],
      Written part.1 part.2 := by
    intro part hpart
    rcases List.mem_pair.1 hpart with rfl | rfl
    · exact .boolean true
    · exact .spaced hspace allBlank_nil hnumber
  have hsequence := Written.sequence allBlank_nil hitems
  refine @Written.map [⟨[], .number 1, ['1'], [' '], _, " \x7btrue, - 2.5\x7d ".toList⟩]
    (fun part hpart => ?_) (fun part hpart => ?_) fun part hpart => ?_
  all_goals rw [List.mem_singleton.1 hpart]
  · exact ⟨allBlank_nil, hspace⟩
  · exact hkey
  · exact .spaced hspace hspace hsequence

theorem assignment_of_written_sampleValue :
    sampleValue.IsPlain ∧ IsName "data" ∧ ∃ chunk,
      Chunk.parse "data = \x7b[1] = \x7btrue, - 2.5\x7d \x7d" = .ok chunk ∧
        ∀ source, chunk.evaluate source = .ok (.map [(.text "data", sampleValue)]) := by
  have hname : IsName "data" :=
    ⟨⟨'d', ['a', 't', 'a'], by decide, rfl, List.all_eq_true.1 rfl⟩,
      fun word => by cases word <;> decide⟩
  have hspace : AllBlank [' '] := by simp [AllBlank, isBlank]
  have htext : String.ofList ([] ++ ("data".toList ++
      ([' '] ++ '=' :: ([' '] ++ "\x7b[1] = \x7btrue, - 2.5\x7d \x7d".toList ++ [])))) =
        "data = \x7b[1] = \x7btrue, - 2.5\x7d \x7d" := by
    decide +kernel
  have hread := (assignment_of_written isPlain_sampleValue hname).2 [] [' '] _ allBlank_nil hspace
    (.spaced hspace allBlank_nil written_sampleValue)
  rw [htext] at hread
  exact ⟨isPlain_sampleValue, hname, hread⟩

end Script
end ProductionRates
