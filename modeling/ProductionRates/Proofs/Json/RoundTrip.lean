import ProductionRates.Proofs.Json.Numbers
import ProductionRates.Proofs.Json.Texts

/-!
# What is written as JSON is read back

`Json.write` puts blanks between the parts of a value and `Json.value?` passes over them, so how the
parts are spaced does not matter.  The fuel that reading a value needs is at most twice its length.
What is read is the value that was written, but for parts that are nested too deep to be used.

* `HasText`, `Writable` — the values that a text can be written for, and those of them that are not
  nested too deep to be read back;
* `within` — what can be used of a value when only so many arrays and objects may be entered;
* `ReadsAs` — what is read from the text of a value, whatever closes it;
* `items?_of_reads`, `members?_of_reads` — what is between the brackets;
* `reads_within` — of every value that has a text, what is within the room is read back;
* `carried`, `read?_write_within`, `read?_write` — what is read from the text of any value.
-/

namespace ProductionRates
namespace Json

open Decimal

/-! ## Values that have texts -/

/-- The values that have texts of their own: every double in them is finite and every integer has
64 bits. -/
inductive HasText : Json → Prop where
  | null : HasText .null
  | bool (value : Bool) : HasText (.bool value)
  | int {value : Int} (low : -2 ^ 63 ≤ value) (high : value < 2 ^ 64) : HasText (.int value)
  | float {value : Float} (finite : isFinite value = true) : HasText (.float value)
  | string (text : String) : HasText (.string text)
  | array {items : List Json} (texts : ∀ item ∈ items, HasText item) : HasText (.array items)
  | object {members : List (String × Json)} (texts : ∀ member ∈ members, HasText member.2) :
    HasText (.object members)

/-- The values that a text can carry: every double in them is finite, every integer has 64 bits,
and at most `room` arrays and objects stand in one another. -/
inductive Writable : Nat → Json → Prop where
  | null {room : Nat} : Writable room .null
  | bool {room : Nat} (value : Bool) : Writable room (.bool value)
  | int {room : Nat} {value : Int} (low : -2 ^ 63 ≤ value) (high : value < 2 ^ 64) :
    Writable room (.int value)
  | float {room : Nat} {value : Float} (finite : isFinite value = true) :
    Writable room (.float value)
  | string {room : Nat} (text : String) : Writable room (.string text)
  | array {room : Nat} {items : List Json} (writable : ∀ item ∈ items, Writable room item) :
    Writable (room + 1) (.array items)
  | object {room : Nat} {members : List (String × Json)}
    (writable : ∀ member ∈ members, Writable room member.2) :
    Writable (room + 1) (.object members)

mutual

/-- What can be used of a value when at most `room` arrays and objects in one another may be
entered. -/
def within : Nat → Json → Json
  | 0, .array _ => .unusable
  | room + 1, .array items => .array (withinItems room items)
  | 0, .object _ => .unusable
  | room + 1, .object members => .object (withinMembers room members)
  | _, json => json

/-- What can be used of items. -/
def withinItems (room : Nat) : List Json → List Json
  | [] => []
  | item :: items => within room item :: withinItems room items

/-- What can be used of members. -/
def withinMembers (room : Nat) : List (String × Json) → List (String × Json)
  | [] => []
  | (key, value) :: members => (key, within room value) :: withinMembers room members

end

@[simp] theorem withinItems_eq_map (room : Nat) (items : List Json) :
    withinItems room items = items.map (within room) := by
  induction items with
  | nil => rfl
  | cons item items ih => rw [withinItems, ih, List.map_cons]

@[simp] theorem withinMembers_eq_map (room : Nat) (members : List (String × Json)) :
    withinMembers room members = members.map fun member => (member.1, member.2.within room) := by
  induction members with
  | nil => rfl
  | cons member members ih => rw [withinMembers, ih, List.map_cons]

/-- A value that a text can carry has a text. -/
theorem Writable.hasText {room : Nat} {json : Json} (h : Writable room json) : HasText json := by
  induction h with
  | null => exact .null
  | bool value => exact .bool value
  | int low high => exact .int low high
  | float finite => exact .float finite
  | string text => exact .string text
  | array _ ih => exact .array ih
  | object _ ih => exact .object ih

/-- A value that a text can carry can be used as it is. -/
theorem Writable.within_eq {room : Nat} {json : Json} (h : Writable room json) :
    json.within room = json := by
  induction h with
  | @null room => cases room <;> rfl
  | @bool room => cases room <;> rfl
  | @int room => cases room <;> rfl
  | @float room => cases room <;> rfl
  | @string room => cases room <;> rfl
  | array _ ih =>
    rw [within, withinItems_eq_map]
    exact congrArg Json.array ((List.map_congr_left ih).trans (List.map_id _))
  | object _ ih =>
    rw [within, withinMembers_eq_map]
    refine congrArg Json.object ((List.map_congr_left fun member hmember => ?_).trans
      (List.map_id _))
    rw [ih member hmember]
    rfl

/-- Nothing but blanks stands between the parts. -/
structure Spacing.Blank (spacing : Spacing) : Prop where
  /-- Before an item or a closing bracket. -/
  line : ∀ depth, ∀ c ∈ spacing.line depth, isBlank c = true
  /-- After a colon. -/
  afterColon : ∀ c ∈ spacing.afterColon, isBlank c = true

theorem Spacing.blank_compact : Spacing.compact.Blank := by
  constructor <;> simp [compact]

theorem Spacing.blank_indented : Spacing.indented.Blank := by
  constructor
  · intro depth c hc
    rcases List.mem_cons.1 hc with rfl | hc
    · rfl
    · rw [List.eq_of_mem_replicate hc]
      rfl
  · intro c hc
    rw [List.mem_singleton.1 hc]
    rfl

/-! ## Blanks -/

section Blanks

variable {blanks rest : List Char} {fuel room : Nat}

/-- Blanks in front are passed over. -/
theorem skipBlanks_append (hblanks : ∀ c ∈ blanks, isBlank c = true) :
    skipBlanks (blanks ++ rest) = skipBlanks rest :=
  List.dropWhile_append_of_pos hblanks

theorem skipBlanks_cons {c : Char} (hc : isBlank c = false) : skipBlanks (c :: rest) = c :: rest :=
  List.dropWhile_cons_of_neg (by simp [hc])

theorem value?_append (hblanks : ∀ c ∈ blanks, isBlank c = true) :
    value? fuel room (blanks ++ rest) = value? fuel room rest := by
  cases fuel with
  | zero => rfl
  | succ fuel => rw [value?, value?, skipBlanks_append hblanks]

theorem items?_append (hblanks : ∀ c ∈ blanks, isBlank c = true) :
    items? fuel room (blanks ++ rest) = items? fuel room rest := by
  cases fuel with
  | zero => rfl
  | succ fuel => rw [items?, items?, value?_append hblanks]

theorem members?_append (hblanks : ∀ c ∈ blanks, isBlank c = true) :
    members? fuel room (blanks ++ rest) = members? fuel room rest := by
  cases fuel with
  | zero => rfl
  | succ fuel => rw [members?, members?, skipBlanks_append hblanks]

end Blanks

/-! ## Values without parts -/

section Leaves

variable {rest : List Char} {fuel room : Nat}

/-- Characters with which a number begins. -/
def beginsNumber (c : Char) : Bool := c = '-' || c.isDigit

theorem ne_of_beginsNumber {c d : Char} (hc : beginsNumber c = true)
    (hd : beginsNumber d = false) : c ≠ d := by
  rintro rfl
  rw [hc] at hd
  cases hd

theorem isBlank_of_beginsNumber {c : Char} (hc : beginsNumber c = true) : isBlank c = false := by
  have hspace := ne_of_beginsNumber hc (d := ' ') rfl
  have hline := ne_of_beginsNumber hc (d := '\n') rfl
  have htab := ne_of_beginsNumber hc (d := '\t') rfl
  have hreturn := ne_of_beginsNumber hc (d := '\r') rfl
  simp [isBlank, hspace, hline, htab, hreturn]

/-- A value that begins like a number is one. -/
theorem value?_number {c : Char} {cs : List Char} (hc : beginsNumber c = true) :
    value? (fuel + 1) room (c :: cs) = numeral? (c :: cs) := by
  rw [value?, skipBlanks_cons (isBlank_of_beginsNumber hc)]
  split
  case h_7 => rfl
  all_goals
    rename_i heq
    exact absurd (List.cons.inj heq).1 (ne_of_beginsNumber hc rfl)

theorem exists_beginsNumber_intChars (n : ℤ) :
    ∃ c cs, intChars n = c :: cs ∧ beginsNumber c = true := by
  rw [intChars]
  split
  · exact ⟨'-', _, rfl, rfl⟩
  · obtain ⟨c, cs, hdigits⟩ := List.exists_cons_of_ne_nil (@Nat.toDigits_ne_nil n.natAbs 10)
    have hc : c.isDigit = true := allDigits_toDigits n.natAbs c (by simp [hdigits])
    exact ⟨c, cs, hdigits, by simp [beginsNumber, hc]⟩

theorem exists_beginsNumber_chars {x : Float} (hx : isFinite x = true) :
    ∃ c cs, Layout.exchange.chars x = c :: cs ∧ beginsNumber c = true := by
  obtain ⟨negative, y, digits, grid, -, -, hshort, hpos, hchars⟩ :=
    exists_setDigits Layout.exchange hx
  obtain ⟨whole, fraction, power, hset, hnumeral, -⟩ := setDigits_exchange hpos hshort
  rw [hchars, hset]
  cases negative with
  | true => exact ⟨'-', _, rfl, rfl⟩
  | false =>
    obtain ⟨c, cs, rfl⟩ := List.exists_cons_of_ne_nil hnumeral.whole_ne_nil
    have hc : c.isDigit = true := hnumeral.whole_digits c (List.mem_cons_self ..)
    exact ⟨c, _, rfl, by simp [beginsNumber, hc]⟩

/-- A finite double is read back. -/
theorem value?_float {x : Float} (hx : isFinite x = true) (hrest : StopsAt goesOn rest) :
    value? (fuel + 1) room (Layout.exchange.chars x ++ rest) = some (.float x, rest) := by
  have hread := numeral?_chars hx hrest
  obtain ⟨c, cs, hchars, hc⟩ := exists_beginsNumber_chars hx
  rw [hchars, List.cons_append] at hread ⊢
  rw [value?_number hc, hread]

/-- An integer of 64 bits is read back. -/
theorem value?_int {n : ℤ} (hlow : -2 ^ 63 ≤ n) (hhigh : n < 2 ^ 64)
    (hrest : StopsAt goesOn rest) :
    value? (fuel + 1) room (intChars n ++ rest) = some (.int n, rest) := by
  have hread := numeral?_intChars hlow hhigh hrest
  obtain ⟨c, cs, hchars, hc⟩ := exists_beginsNumber_intChars n
  rw [hchars, List.cons_append] at hread ⊢
  rw [value?_number hc, hread]

theorem quoted_append (text : String) (rest : List Char) :
    quoted text ++ rest = '\x22' :: (text.toList.flatMap escaped ++ '\x22' :: rest) := by
  rw [quoted, List.cons_append, List.append_assoc, List.singleton_append]

/-- A text is read back. -/
theorem value?_string (text : String) :
    value? (fuel + 1) room (quoted text ++ rest) = some (.string text, rest) := by
  rw [quoted_append, value?, skipBlanks_cons rfl]
  simp [pieces?_quoted, textOfPieces?_map]

end Leaves

/-! ## Values with parts -/

section Parts

variable {spacing : Spacing} {depth fuel room : Nat} {rest : List Char}

/-- From the text of a value another one is read, whatever closes it. -/
def ReadsAs (spacing : Spacing) (room : Nat) (json read : Json) : Prop :=
  ∀ fuel depth rest, 2 * (write spacing depth json).length ≤ fuel → StopsAt goesOn rest →
    value? fuel room (write spacing depth json ++ rest) = some (read, rest)

/-- What stands between an item and the next, or a closing bracket. -/
theorem stopsAt_blanks {blanks : List Char} (hblanks : ∀ c ∈ blanks, isBlank c = true)
    (hrest : StopsAt goesOn rest) : StopsAt goesOn (blanks ++ rest) := by
  cases blanks with
  | nil => exact hrest
  | cons c blanks =>
    have hc := hblanks c (List.mem_cons_self ..)
    rw [List.cons_append, stopsAt_cons]
    simp only [isBlank, Bool.or_eq_true, decide_eq_true_eq] at hc
    rcases hc with ((rfl | rfl) | rfl) | rfl <;> rfl

/-- Items are read one by one. -/
theorem items?_of_reads (hblank : spacing.Blank) {read : Json → Json} {item : Json}
    {items : List Json} (hreads : ∀ other ∈ item :: items, ReadsAs spacing room other (read other))
    (hfuel : 2 * (write spacing depth item ++ writeItems spacing depth items).length < fuel)
    {outer : Nat} :
    items? fuel room (write spacing depth item ++ writeItems spacing depth items
      ++ spacing.line outer ++ ']' :: rest) = some ((item :: items).map read, rest) := by
  induction items generalizing item fuel with
  | nil =>
    obtain ⟨fuel, rfl⟩ := Nat.exists_eq_succ_of_ne_zero (Nat.ne_zero_of_lt hfuel)
    rw [writeItems, List.append_nil] at hfuel ⊢
    have hclose : StopsAt goesOn (spacing.line outer ++ ']' :: rest) :=
      stopsAt_blanks (hblank.line outer) (stopsAt_cons.2 rfl)
    rw [items?, List.append_assoc,
      hreads item (List.mem_cons_self ..) fuel depth _ (by omega) hclose]
    simp only [Option.bind_eq_bind, Option.bind_some]
    rw [skipBlanks_append (hblank.line outer), skipBlanks_cons rfl]
    rfl
  | cons next items ih =>
    obtain ⟨fuel, rfl⟩ := Nat.exists_eq_succ_of_ne_zero (Nat.ne_zero_of_lt hfuel)
    have hothers : ∀ other ∈ next :: items, ReadsAs spacing room other (read other) :=
      fun other hother => hreads other (List.mem_cons_of_mem _ hother)
    have htext : write spacing depth item ++ writeItems spacing depth (next :: items)
        ++ spacing.line outer ++ ']' :: rest =
        write spacing depth item ++ ',' :: (spacing.line depth ++ (write spacing depth next
          ++ writeItems spacing depth items ++ spacing.line outer ++ ']' :: rest)) := by
      simp only [writeItems, List.append_assoc, List.cons_append]
    simp only [writeItems, List.length_append, List.length_cons] at hfuel
    have hnext := @ih fuel next hothers (by
      rw [List.length_append]
      omega)
    rw [htext, items?, hreads item (List.mem_cons_self ..) fuel depth _ (by omega)
      (stopsAt_cons.2 rfl)]
    simp only [Option.bind_eq_bind, Option.bind_some]
    rw [skipBlanks_cons rfl]
    simp only [items?_append (hblank.line depth), hnext]
    rfl

/-- Members are read one by one, each under its key. -/
theorem members?_of_reads (hblank : spacing.Blank) {read : Json → Json} {key : String}
    {value : Json} {members : List (String × Json)}
    (hreads : ∀ member ∈ (key, value) :: members,
      ReadsAs spacing room member.2 (read member.2)) {outer : Nat}
    (hfuel : 2 * (quoted key ++ write spacing depth value
      ++ writeMembers spacing depth members).length < fuel) :
    members? fuel room (quoted key ++ ':' :: (spacing.afterColon ++ write spacing depth value
      ++ writeMembers spacing depth members ++ spacing.line outer ++ '\x7d' :: rest)) =
      some (((key, value) :: members).map fun member => (some member.1, read member.2), rest) := by
  induction members generalizing key value fuel with
  | nil =>
    have hvalue : ReadsAs spacing room value (read value) := hreads _ (List.mem_cons_self ..)
    obtain ⟨fuel, rfl⟩ := Nat.exists_eq_succ_of_ne_zero (Nat.ne_zero_of_lt hfuel)
    simp only [writeMembers, List.length_append, List.append_nil] at hfuel ⊢
    have hclose : StopsAt goesOn (spacing.line outer ++ '\x7d' :: rest) :=
      stopsAt_blanks (hblank.line outer) (stopsAt_cons.2 rfl)
    rw [members?, quoted_append, skipBlanks_cons rfl]
    simp only [pieces?_quoted, Option.bind_eq_bind, Option.bind_some]
    rw [skipBlanks_cons rfl]
    simp only [List.append_assoc, value?_append hblank.afterColon]
    rw [hvalue fuel depth _ (by omega) hclose]
    simp only [Option.bind_some]
    rw [skipBlanks_append (hblank.line outer), skipBlanks_cons rfl]
    simp [textOfPieces?_map]
  | cons next members ih =>
    obtain ⟨fuel, rfl⟩ := Nat.exists_eq_succ_of_ne_zero (Nat.ne_zero_of_lt hfuel)
    obtain ⟨nextKey, nextValue⟩ := next
    have hvalue : ReadsAs spacing room value (read value) := hreads _ (List.mem_cons_self ..)
    have hothers : ∀ member ∈ (nextKey, nextValue) :: members,
        ReadsAs spacing room member.2 (read member.2) :=
      fun member hmember => hreads member (List.mem_cons_of_mem _ hmember)
    simp only [writeMembers, List.length_append, List.length_cons] at hfuel
    have hnext := @ih fuel nextKey nextValue hothers (by
      simp only [List.length_append]
      omega)
    rw [members?, quoted_append, skipBlanks_cons rfl]
    simp only [pieces?_quoted, Option.bind_eq_bind, Option.bind_some]
    rw [skipBlanks_cons rfl]
    simp only [List.append_assoc, value?_append hblank.afterColon, writeMembers, List.cons_append]
    rw [hvalue fuel depth _ (by omega) (stopsAt_cons.2 rfl)]
    simp only [Option.bind_some]
    rw [skipBlanks_cons rfl]
    simp only [List.append_assoc] at hnext
    simp only [members?_append (hblank.line depth), hnext, textOfPieces?_map, Option.bind_some]
    rfl

/-- Members whose keys are texts make an object. -/
theorem ofMembers_map (read : Json → Json) (members : List (String × Json)) :
    ofMembers (members.map fun member => (some member.1, read member.2)) =
      .object (members.map fun member => (member.1, read member.2)) := by
  have hkeys : (members.map fun member => (some member.1, read member.2)).mapM
      (fun member => member.1.map (·, member.2)) =
        some (members.map fun member => (member.1, read member.2)) := by
    induction members with
    | nil => rfl
    | cons member members ih => simp [ih]
  rw [ofMembers]
  split
  · rename_i read heq
    rw [Option.some.inj (heq.symm.trans hkeys)]
  · rename_i heq
    cases heq.symm.trans hkeys

/-- No value begins with a blank or a closing bracket. -/
theorem exists_begins (spacing : Spacing) (depth : Nat) {json : Json} (h : HasText json) :
    ∃ c cs, write spacing depth json = c :: cs ∧ isBlank c = false ∧ c ≠ ']' := by
  have hnumber {c : Char} (hc : beginsNumber c = true) : isBlank c = false ∧ c ≠ ']' :=
    ⟨isBlank_of_beginsNumber hc, ne_of_beginsNumber hc rfl⟩
  cases h with
  | null => exact ⟨'n', _, rfl, rfl, by decide⟩
  | bool value =>
    cases value with
    | false => exact ⟨'f', _, rfl, rfl, by decide⟩
    | true => exact ⟨'t', _, rfl, rfl, by decide⟩
  | int low high =>
    obtain ⟨c, cs, hchars, hc⟩ := exists_beginsNumber_intChars _
    exact ⟨c, cs, hchars, hnumber hc⟩
  | float finite =>
    obtain ⟨c, cs, hchars, hc⟩ := exists_beginsNumber_chars finite
    exact ⟨c, cs, hchars, hnumber hc⟩
  | string text => exact ⟨'\x22', _, rfl, rfl, by decide⟩
  | @array items _ => cases items <;> exact ⟨'[', _, rfl, rfl, by decide⟩
  | @object members _ =>
    rcases members with _ | ⟨⟨key, value⟩, members⟩ <;> exact ⟨'\x7b', _, rfl, rfl, by decide⟩

/-- Of an array the items are read, if it may be entered. -/
theorem reads_array (hblank : spacing.Blank) {items : List Json}
    (htexts : ∀ item ∈ items, HasText item)
    (hreads : ∀ item ∈ items, ReadsAs spacing (room - 1) item (item.within (room - 1))) :
    ReadsAs spacing room (.array items) (within room (.array items)) := by
  intro fuel depth rest hfuel hrest
  cases items with
  | nil =>
    obtain ⟨fuel, rfl⟩ := Nat.exists_eq_succ_of_ne_zero (Nat.ne_zero_of_lt hfuel)
    cases room <;> rfl
  | cons item items =>
    rw [write] at hfuel ⊢
    simp only [List.length_cons, List.length_append] at hfuel
    obtain ⟨fuel, rfl⟩ := Nat.exists_eq_succ_of_ne_zero (Nat.ne_zero_of_lt hfuel)
    obtain ⟨c, cs, hbegins, hc, hbracket⟩ :=
      exists_begins spacing (depth + 1) (htexts item (List.mem_cons_self ..))
    have hitems := @items?_of_reads spacing (depth + 1) fuel (room - 1) rest hblank _ item items
      hreads (by
        rw [List.length_append]
        omega) depth
    rw [List.cons_append, value?, skipBlanks_cons rfl]
    simp only [List.append_assoc, List.singleton_append] at hitems ⊢
    rw [skipBlanks_append (hblank.line (depth + 1)), hbegins, List.cons_append,
      skipBlanks_cons hc]
    rw [hbegins, List.cons_append] at hitems
    cases room with
    | zero =>
      rw [Nat.zero_sub] at hitems
      simp [hbracket, hitems, within]
    | succ room =>
      rw [Nat.add_sub_cancel] at hitems
      simp [hbracket, hitems, within]

/-- Of an object the members are read, if it may be entered. -/
theorem reads_object (hblank : spacing.Blank) {members : List (String × Json)}
    (hreads : ∀ member ∈ members,
      ReadsAs spacing (room - 1) member.2 (member.2.within (room - 1))) :
    ReadsAs spacing room (.object members) (within room (.object members)) := by
  intro fuel depth rest hfuel hrest
  cases members with
  | nil =>
    obtain ⟨fuel, rfl⟩ := Nat.exists_eq_succ_of_ne_zero (Nat.ne_zero_of_lt hfuel)
    cases room <;> rfl
  | cons member members =>
    obtain ⟨key, value⟩ := member
    rw [write] at hfuel ⊢
    simp only [List.length_cons, List.length_append] at hfuel
    obtain ⟨fuel, rfl⟩ := Nat.exists_eq_succ_of_ne_zero (Nat.ne_zero_of_lt hfuel)
    have hmembers := @members?_of_reads spacing (depth + 1) fuel (room - 1) rest hblank _ key value
      members hreads depth (by
        simp only [List.length_append]
        omega)
    rw [List.cons_append, value?, skipBlanks_cons rfl]
    simp only [List.append_assoc, List.cons_append] at hmembers ⊢
    rw [skipBlanks_append (hblank.line (depth + 1)), quoted_append, skipBlanks_cons rfl]
    rw [quoted_append] at hmembers
    cases room with
    | zero =>
      rw [Nat.zero_sub] at hmembers
      simp [hmembers, within]
    | succ room =>
      rw [Nat.add_sub_cancel] at hmembers
      simpa [hmembers, within] using ofMembers_map (within room) ((key, value) :: members)

theorem exists_fuel {json : Json} (h : HasText json)
    (hfuel : 2 * (write spacing depth json).length ≤ fuel) : ∃ less, fuel = less + 1 := by
  obtain ⟨c, cs, hwrite, -⟩ := exists_begins spacing depth h
  rw [hwrite, List.length_cons] at hfuel
  exact Nat.exists_eq_succ_of_ne_zero (by omega)

/-- **Of every value that has a text, what is within the room is read back.** -/
theorem reads_within (hblank : spacing.Blank) {json : Json} (h : HasText json) :
    ReadsAs spacing room json (json.within room) := by
  induction h generalizing room with
  | array texts ih => exact reads_array hblank texts fun item hitem => ih item hitem
  | object texts ih => exact reads_object hblank fun member hmember => ih member hmember
  | null =>
    intro fuel depth rest hfuel _
    obtain ⟨fuel, rfl⟩ := exists_fuel .null hfuel
    cases room <;> rfl
  | bool value =>
    intro fuel depth rest hfuel _
    obtain ⟨fuel, rfl⟩ := exists_fuel (.bool value) hfuel
    cases room <;> cases value <;> rfl
  | int low high =>
    intro fuel depth rest hfuel hrest
    obtain ⟨fuel, rfl⟩ := exists_fuel (.int low high) hfuel
    cases room <;> exact value?_int low high hrest
  | float finite =>
    intro fuel depth rest hfuel hrest
    obtain ⟨fuel, rfl⟩ := exists_fuel (.float finite) hfuel
    cases room <;> exact value?_float finite hrest
  | string text =>
    intro fuel depth rest hfuel _
    obtain ⟨fuel, rfl⟩ := exists_fuel (.string text) hfuel
    cases room <;> exact value?_string text

end Parts

/-! ## What a text carries -/

mutual

/-- What the text of a value carries of it: where there is no text for a part, it is null. -/
def carried : Json → Json
  | .float x => if isFinite x then .float x else .null
  | .array items => .array (carriedItems items)
  | .object members => .object (carriedMembers members)
  | .unusable => .null
  | json => json

/-- What is carried of items. -/
def carriedItems : List Json → List Json
  | [] => []
  | item :: items => carried item :: carriedItems items

/-- What is carried of members. -/
def carriedMembers : List (String × Json) → List (String × Json)
  | [] => []
  | (key, value) :: members => (key, carried value) :: carriedMembers members

end

@[simp] theorem carriedItems_eq_map (items : List Json) :
    carriedItems items = items.map carried := by
  induction items with
  | nil => rfl
  | cons item items ih => rw [carriedItems, ih, List.map_cons]

@[simp] theorem carriedMembers_eq_map (members : List (String × Json)) :
    carriedMembers members = members.map fun member => (member.1, member.2.carried) := by
  induction members with
  | nil => rfl
  | cons member members ih => rw [carriedMembers, ih, List.map_cons]

/-- What is carried of a double, if only that it has no text, is written anywhere. -/
theorem writable_float (room : Nat) (x : Float) : Writable room (float x).carried := by
  by_cases hx : isFinite x = true
  · rw [carried, if_pos hx]
    exact .float hx
  · rw [carried, if_neg hx]
    exact .null

/-- What is not finite is written as null. -/
theorem chars_of_not_isFinite {x : Float} (hx : isFinite x = false) :
    Layout.exchange.chars x = ['n', 'u', 'l', 'l'] := by
  rw [isFinite] at hx
  rw [Layout.chars]
  cases hexact : Exact.ofFloat x with
  | nan => rfl
  | infinite negative => rfl
  | finite negative mantissa exponent => simp [hexact] at hx

mutual

/-- **A value and what is carried of it have the same text.** -/
theorem write_carried (spacing : Spacing) (depth : Nat) :
    ∀ json : Json, write spacing depth json.carried = write spacing depth json
  | .null => rfl
  | .bool _ => rfl
  | .int _ => rfl
  | .string _ => rfl
  | .unusable => rfl
  | .float x => by
    rw [carried]
    by_cases hx : isFinite x = true
    · rw [if_pos hx]
    · rw [if_neg hx, write, write, chars_of_not_isFinite (Bool.eq_false_iff.2 hx)]
  | .array [] => rfl
  | .array (item :: items) => by
    rw [carried, carriedItems, write, write, write_carried spacing (depth + 1) item,
      writeItems_carried spacing (depth + 1) items]
  | .object [] => rfl
  | .object ((key, value) :: members) => by
    rw [carried, carriedMembers, write, write, write_carried spacing (depth + 1) value,
      writeMembers_carried spacing (depth + 1) members]

theorem writeItems_carried (spacing : Spacing) (depth : Nat) :
    ∀ items : List Json, writeItems spacing depth (carriedItems items) =
      writeItems spacing depth items
  | [] => rfl
  | item :: items => by
    rw [carriedItems, writeItems, writeItems, write_carried spacing depth item,
      writeItems_carried spacing depth items]

theorem writeMembers_carried (spacing : Spacing) (depth : Nat) :
    ∀ members : List (String × Json), writeMembers spacing depth (carriedMembers members) =
      writeMembers spacing depth members
  | [] => rfl
  | (key, value) :: members => by
    rw [carriedMembers, writeMembers, writeMembers, write_carried spacing depth value,
      writeMembers_carried spacing depth members]

end

/-! ## Texts -/

/-- What is read from the text of a value is what it carries of that value, without what is nested
too deep to be used. -/
theorem read?_write_within {spacing : Spacing} (hblank : spacing.Blank) {json : Json}
    (h : HasText json.carried) :
    read? (String.ofList (json.write spacing 0)) = some (json.carried.within deepestNesting) := by
  rw [← write_carried spacing 0 json]
  have hreads := @reads_within spacing deepestNesting hblank _ h
    (2 * (json.carried.write spacing 0).length + 2) 0 [] (by omega) stopsAt_nil
  rw [List.append_nil] at hreads
  rw [read?, String.toList_ofList, hreads]
  rfl

/-- The text of a value is read as what it carries of that value. -/
theorem read?_write {spacing : Spacing} (hblank : spacing.Blank) {json : Json}
    (h : Writable deepestNesting json.carried) :
    read? (String.ofList (json.write spacing 0)) = some json.carried := by
  rw [read?_write_within hblank h.hasText, h.within_eq]

theorem read?_compact {json : Json} (h : Writable deepestNesting json.carried) :
    read? json.compact = some json.carried := read?_write Spacing.blank_compact h

theorem read?_indented {json : Json} (h : Writable deepestNesting json.carried) :
    read? json.indented = some json.carried := read?_write Spacing.blank_indented h

end Json
end ProductionRates
