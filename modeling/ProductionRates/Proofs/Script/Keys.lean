import ProductionRates.Proofs.Decimal.NumberTexts
import ProductionRates.Proofs.Script.Assignments

/-!
# The keys of what a script comes to

Keys are compared as numbers are, so a NaN would be no key of its own entry, and the two zeros are
one key.  Scripts come to neither: however deep a map stands in the value of a script, its keys are
told apart by comparing them, and two that are the same are equal.

* `Value.Within` — what is in a value, at any depth, and `Value.EveryMap` for what holds of all maps
  in it;
* `Key.isNaN`, `Key.IsNormal` — keys that are no keys, and those that stand for themselves;
* `Distinct` — entries without a key twice and without a NaN, `Distinct.get?_eq` finds each of them;
* `Expression.isNormal_of_evaluate` — the maps in the value of an expression;
* `keys_of_chunk` — the maps in the value of a script.
-/

namespace ProductionRates
namespace Script

variable {source : String}

/-! ## What is in a value -/

namespace Value

/-- The value stands in another one, at any depth: it is the other one, or in an item of it, or in
the value of an entry. -/
inductive Within : Value → Value → Prop where
  /-- A value is in itself. -/
  | self (value : Value) : Within value value
  /-- What is in an item is in the sequence. -/
  | item {inner item : Value} {items : List Value} (hitem : item ∈ items)
      (h : Within inner item) : Within inner (.sequence items)
  /-- What is in the value of an entry is in the map. -/
  | entry {inner : Value} {entry : Key × Value} {entries : Entries} (hentry : entry ∈ entries)
      (h : Within inner entry.2) : Within inner (.map entries)

/-- Every map in a value, at any depth, has entries of a kind. -/
def EveryMap (holds : Entries → Prop) (value : Value) : Prop :=
  ∀ entries : Entries, (Value.map entries).Within value → holds entries

/-- What holds of a table if it holds of what is in it holds of every value. -/
theorem induction {motive : Value → Prop} (nil : motive .nil)
    (boolean : ∀ b, motive (.boolean b)) (number : ∀ x, motive (.number x))
    (text : ∀ text, motive (.text text))
    (sequence : ∀ items, (∀ item ∈ items, motive item) → motive (.sequence items))
    (map : ∀ entries : Entries, (∀ entry ∈ entries, motive entry.2) → motive (.map entries))
    (value : Value) : motive value :=
  @Value.rec motive (fun items => ∀ item ∈ items, motive item)
    (fun entries => ∀ entry ∈ entries, motive entry.2) (fun entry => motive entry.2)
    nil boolean number text sequence map (by simp)
    (fun _ _ hitem hitems => List.forall_mem_cons.2 ⟨hitem, hitems⟩) (by simp)
    (fun _ _ hentry hentries => List.forall_mem_cons.2 ⟨hentry, hentries⟩)
    (fun _ _ hvalue => hvalue) value

variable {holds : Entries → Prop}

@[simp] theorem everyMap_nil : EveryMap holds .nil := by
  rintro entries ⟨⟩

@[simp] theorem everyMap_boolean (b : Bool) : EveryMap holds (.boolean b) := by
  rintro entries ⟨⟩

@[simp] theorem everyMap_number (x : Float) : EveryMap holds (.number x) := by
  rintro entries ⟨⟩

@[simp] theorem everyMap_text (text : String) : EveryMap holds (.text text) := by
  rintro entries ⟨⟩

theorem everyMap_sequence_iff {items : List Value} :
    EveryMap holds (.sequence items) ↔ ∀ item ∈ items, item.EveryMap holds := by
  constructor
  · exact fun h item hitem entries hentries => h entries (.item hitem hentries)
  · intro h entries hentries
    cases hentries with
    | item hitem hinner => exact h _ hitem entries hinner

theorem everyMap_map_iff {entries : Entries} :
    EveryMap holds (.map entries) ↔ holds entries ∧ ∀ entry ∈ entries, entry.2.EveryMap holds := by
  constructor
  · exact fun h => ⟨h entries (.self _), fun entry hentry other hother =>
      h other (.entry hentry hother)⟩
  · rintro ⟨hself, hentries⟩ other hother
    cases hother with
    | self => exact hself
    | entry hentry hinner => exact hentries _ hentry other hinner

end Value

/-! ## Keys -/

namespace Key

/-- Whether a key is a NaN, which is the same as no key. -/
def isNaN : Key → Bool
  | .number x => x.isNaN
  | .text _ => false

/-- A key that is the same as itself and as no other: no NaN and no negative zero. -/
def IsNormal : Key → Prop
  | .number x => x.isNaN = false ∧ x ≠ -0
  | .text _ => True

variable {key other : Key}

theorem beq_self_of_isNaN (h : key.isNaN = false) : (key == key) = true := by
  cases key with
  | number x => exact number_beq_self h
  | text text => exact beq_self_eq_true text

theorem IsNormal.isNaN (h : key.IsNormal) : key.isNaN = false := by
  cases key with
  | number x => exact h.1
  | text text => rfl

/-- Numbers that are the same are equal but for the sign of a zero. -/
theorem number_beq_iff {x y : Float} (hx : x.isNaN = false) (hy : y.isNaN = false) :
    (number x == number y) = true ↔ Decimal.SameNumber x y := by
  rw [Float.isNaN_eq_decide_eq_nan, decide_eq_false_iff_not] at hx hy
  show (x == y) = true ↔ _
  rw [Float.beq_iff_ne_nan_and_eq]
  exact ⟨fun h => h.2.2, fun h => ⟨hx, hy, h⟩⟩

/-- **Normal keys that are the same are equal.** -/
theorem IsNormal.eq_of_beq (h : key.IsNormal) (hother : other.IsNormal)
    (hsame : (key == other) = true) : key = other := by
  cases key with
  | number x => cases other with
    | number y =>
      rcases (number_beq_iff h.1 hother.1).1 hsame with rfl | ⟨-, hy⟩ | ⟨hx, -⟩
      · rfl
      · exact absurd hy hother.2
      · exact absurd hx h.2
    | text text => cases hsame
  | text text => cases other with
    | number y => cases hsame
    | text last => exact congrArg Key.text (eq_of_beq (α := String) hsame)

/-- The key of a number is normal. -/
theorem isNormal_of_number? {x : Float} (h : number? x = some key) : key.IsNormal := by
  rw [number?] at h
  split at h
  · cases h
  · rename_i hnumber
    split at h
    · cases h
      exact ⟨by decide +kernel, by decide +kernel⟩
    · rename_i hzero
      cases h
      refine ⟨by simpa using hnumber, ?_⟩
      rintro rfl
      exact hzero (by decide +kernel)

/-- The key of a value is normal. -/
theorem isNormal_of_key? {value : Value} (h : value.key? = .ok key) : key.IsNormal := by
  cases value with
  | number x =>
    rw [Value.key?] at h
    split at h
    · rename_i found hfound
      cases h
      exact isNormal_of_number? hfound
    · cases h
  | text text =>
    cases h
    trivial
  | _ => cases h

end Key

/-! ## Entries -/

/-- Entries whose keys are told apart by comparing them: none is a NaN, and no two are the same. -/
structure Distinct (entries : Entries) : Prop where
  /-- No two keys are the same. -/
  differ : entries.keys.Pairwise fun a b => (a == b) = false
  /-- No key is a NaN. -/
  notNaN : ∀ key ∈ entries.keys, key.isNaN = false

/-- Entries whose keys are told apart, and all stand for themselves. -/
structure Normal (entries : Entries) : Prop where
  /-- No two keys are the same. -/
  differ : entries.keys.Pairwise fun a b => (a == b) = false
  /-- Each key stands for itself. -/
  isNormal : ∀ key ∈ entries.keys, key.IsNormal

theorem Normal.distinct {entries : Entries} (h : Normal entries) : Distinct entries :=
  ⟨h.differ, fun key hkey => (h.isNormal key hkey).isNaN⟩

/-- The value of an entry is found under its key. -/
theorem Distinct.get?_eq {entries : Entries} (h : Distinct entries) {entry : Key × Value}
    (hentry : entry ∈ entries) : entries.get? entry.1 = some entry.2 :=
  Table.get?_of_mem h.differ
    (Key.beq_self_of_isNaN (h.notNaN _ (List.mem_map_of_mem hentry))) hentry

/-! ## What is set -/

/-- A key and a value that may go into a map: the key is normal, and so are those of all maps in the
value. -/
def IsNormalSetting (setting : Key × Value) : Prop :=
  setting.1.IsNormal ∧ setting.2.EveryMap Normal

/-- The table of settings has their keys and their values. -/
theorem everyMap_ofList {settings : List (Key × Value)}
    (h : ∀ setting ∈ settings, IsNormalSetting setting) :
    (Value.map (Table.ofList settings)).EveryMap Normal := by
  have hself : ∀ setting ∈ settings, (setting.1 == setting.1) = true :=
    fun setting hsetting => Key.beq_self_of_isNaN (h setting hsetting).1.isNaN
  have hkeys : ∀ key ∈ (Table.ofList settings).keys, key.IsNormal := by
    intro key hkey
    rw [Table.keys_ofList] at hkey
    obtain ⟨setting, hsetting, rfl⟩ := List.mem_map.1 ((eraseDups_sublist _).subset hkey)
    exact (h setting hsetting).1
  refine Value.everyMap_map_iff.2 ⟨⟨Table.pairwise_keys_ofList settings, hkeys⟩, ?_⟩
  intro entry hentry
  obtain ⟨setting, hsetting, hvalue⟩ := Table.exists_setting_of_mem_ofList hself hentry
  exact hvalue ▸ (h setting hsetting).2

/-- The fields of a table set normal keys: the positions of those without one are no negative
zeros. -/
theorem isNormalSetting_keyed {evaluated : List EvaluatedField} (next : Nat)
    (h : ∀ field ∈ evaluated, (∀ key ∈ field.1, key.IsNormal) ∧ field.2.EveryMap Normal) :
    ∀ setting ∈ keyed next evaluated, IsNormalSetting setting := by
  induction evaluated generalizing next with
  | nil =>
    intro setting hsetting
    cases hsetting
  | cons field evaluated ih =>
    obtain ⟨⟨hkey, hvalue⟩, hrest⟩ := List.forall_mem_cons.1 h
    rw [keyed_cons]
    refine List.forall_mem_cons.2 ⟨⟨?_, hvalue⟩, ih _ hrest⟩
    rw [settingAt]
    cases hown : field.1 with
    | some key => exact hkey key hown
    | none =>
      exact ⟨Decimal.isNaN_floatOfNat next, Decimal.floatOfNat_ne_neg_zero next⟩

theorem everyMap_ofFields {evaluated : List EvaluatedField}
    (h : ∀ field ∈ evaluated, (∀ key ∈ field.1, key.IsNormal) ∧ field.2.EveryMap Normal) :
    (Value.ofFields evaluated).EveryMap Normal := by
  rw [Value.ofFields]
  split
  · refine Value.everyMap_sequence_iff.2 fun item hitem => ?_
    obtain ⟨field, hfield, rfl⟩ := List.mem_map.1 hitem
    exact (h field hfield).2
  · exact everyMap_ofList (isNormalSetting_keyed 0 h)

/-! ## Expressions -/

mutual

/-- **The keys of all maps in the value of an expression are normal**, whatever numbers stand in
it. -/
theorem Expression.isNormal_of_evaluate : ∀ {e : Expression} {value : Value},
    e.evaluate source = .ok value → value.EveryMap Normal
  | .nil _, _, h => by cases h; exact Value.everyMap_nil
  | .boolean _ _, _, h => by cases h; exact Value.everyMap_boolean _
  | .number _ _, _, h => by cases h; exact Value.everyMap_number _
  | .string _ _, _, h => by cases h; exact Value.everyMap_text _
  | .table location fields, value, h => by
    rw [Expression.evaluate] at h
    obtain ⟨evaluated, hfields, rfl⟩ := map_eq_ok_iff.1 h
    exact everyMap_ofFields (isNormal_of_evaluateFields hfields)
  | .unary _ operator argument, value, h => by
    rw [Expression.evaluate] at h
    split at h
    · -- the operators for data come to numbers
      obtain ⟨operand, -, happly⟩ := exists_of_bind_eq_ok h
      rcases UnaryOperator.kind_of_apply happly with ⟨-, isNaN, -, hresult⟩ | ⟨-, -, hresult⟩ <;>
        cases value <;> first | exact Value.everyMap_number _ | cases hresult
    · cases h
  | .vararg _, _, h => by cases h
  | .identifier _ _, _, h => by cases h
  | .binary _ _ _ _, _, h => by cases h
  | .logical _ _ _ _, _, h => by cases h
  | .member _ _ _, _, h => by cases h
  | .index _ _ _, _, h => by cases h
  | .call _ _ _, _, h => by cases h

theorem isNormal_of_evaluateFields {location : Option Location} :
    ∀ {fields : List Field} {evaluated : List EvaluatedField},
    evaluateFields source location fields = .ok evaluated →
      ∀ field ∈ evaluated, (∀ key ∈ field.1, key.IsNormal) ∧ field.2.EveryMap Normal
  | [], _, h => by
    cases h
    intro field hfield
    cases hfield
  | field :: fields, _, h => by
    rw [evaluateFields] at h
    obtain ⟨first, hfirst, h⟩ := exists_of_bind_eq_ok h
    obtain ⟨rest, hrest, h⟩ := exists_of_bind_eq_ok h
    cases h
    exact List.forall_mem_cons.2
      ⟨Field.isNormal_of_evaluate hfirst, isNormal_of_evaluateFields hrest⟩

theorem Field.isNormal_of_evaluate {location : Option Location} :
    ∀ {field : Field} {evaluated : EvaluatedField},
    field.evaluate source location = .ok evaluated →
      (∀ key ∈ evaluated.1, key.IsNormal) ∧ evaluated.2.EveryMap Normal
  | .positional e, _, h => by
    rw [Field.evaluate] at h
    obtain ⟨value, hvalue, h⟩ := exists_of_bind_eq_ok h
    cases h
    refine ⟨?_, Expression.isNormal_of_evaluate hvalue⟩
    rintro key ⟨⟩
  | .named name e, _, h => by
    rw [Field.evaluate] at h
    obtain ⟨value, hvalue, h⟩ := exists_of_bind_eq_ok h
    cases h
    refine ⟨?_, Expression.isNormal_of_evaluate hvalue⟩
    rintro key ⟨⟩
    trivial
  | .keyed bracketed e, _, h => by
    rw [Field.evaluate] at h
    obtain ⟨keyValue, -, h⟩ := exists_of_bind_eq_ok h
    cases hfound : keyValue.key? with
    | error found =>
      rw [hfound] at h
      cases h
    | ok key =>
      rw [hfound] at h
      obtain ⟨value, hvalue, h⟩ := exists_of_bind_eq_ok h
      cases h
      refine ⟨?_, Expression.isNormal_of_evaluate hvalue⟩
      rintro key ⟨⟩
      exact Key.isNormal_of_key? hfound

end

/-! ## Scripts -/

/-- What a target is paired with is set under its name. -/
theorem Assigns.isNormalSetting {pair : Expression × Option Expression} {setting : Key × Value}
    (h : Assigns source pair setting) : IsNormalSetting setting := by
  cases h with
  | value location name h => exact ⟨trivial, Expression.isNormal_of_evaluate h⟩
  | absent location name => exact ⟨trivial, Value.everyMap_nil⟩

theorem Chunk.everyMap_of_evaluate {chunk : Chunk} {value : Value}
    (h : chunk.evaluate source = .ok value) : value.EveryMap Normal := by
  rw [Chunk.evaluate_eq] at h
  obtain ⟨settings, hsettings, rfl⟩ := map_eq_ok_iff.1 h
  refine everyMap_ofList fun setting hsetting => ?_
  obtain ⟨pair, -, hpair⟩ :=
    exists_left_of_forall₂ (Chunk.forall₂_assigns hsettings) hsetting
  exact hpair.isNormalSetting

/-- **The keys of what a script comes to can be told apart.**  No two keys of a map in it, at any
depth, are the same, and none is a NaN or the negative zero.  So each key is the same as itself, its
entry is found under it, and keys of any two maps that are the same are equal. -/
theorem keys_of_chunk {source : String} {chunk : Chunk} {value : Value}
    (h : chunk.evaluate source = .ok value) {entries : Entries}
    (hentries : (Value.map entries).Within value) :
    (entries.keys.Pairwise fun a b => (a == b) = false) ∧
      (∀ x, .number x ∈ entries.keys → x.isNaN = false ∧ x ≠ -0) ∧
      (∀ key ∈ entries.keys, (key == key) = true) ∧
      (∀ entry ∈ entries, entries.get? entry.1 = some entry.2) ∧
      ∀ others : Entries, (Value.map others).Within value →
        ∀ key ∈ entries.keys, ∀ other ∈ others.keys, (key == other) = true → key = other := by
  have hnormal := Chunk.everyMap_of_evaluate h
  have hown := hnormal entries hentries
  refine ⟨hown.differ, fun x hx => hown.isNormal _ hx,
    fun key hkey => Key.beq_self_of_isNaN (hown.isNormal key hkey).isNaN,
    fun entry hentry => hown.distinct.get?_eq hentry, ?_⟩
  intro others hothers key hkey other hother hsame
  exact (hown.isNormal key hkey).eq_of_beq ((hnormal others hothers).isNormal other hother) hsame

/-- A table that sets its key zero three times, as the negative zero, by position and as a length,
and the text of the key besides. -/
def zeroKeys : Chunk :=
  [.assignment none [.identifier none "t"]
    [.table none [
      .keyed (.number none (-0)) (.number none 1),
      .positional (.number none 2),
      .keyed (.unary none .length (.string none "\x22\x22")) (.nil none),
      .named "0" (.boolean none true)]]]

/-- What the table comes to. -/
def zeroEntries : Entries := [(.number 0, .nil), (.text "0", .boolean true)]

/-- The three settings of the key zero are one entry, which is found under its key. -/
theorem keys_of_chunk_zeroKeys :
    zeroKeys.evaluate "zeros" = .ok (.map [(.text "t", .map zeroEntries)]) ∧
      (Value.map zeroEntries).Within (.map [(.text "t", .map zeroEntries)]) ∧
      (zeroEntries.keys.Pairwise fun a b => (a == b) = false) ∧
      (∀ x, .number x ∈ zeroEntries.keys → x.isNaN = false ∧ x ≠ -0) ∧
      (∀ key ∈ zeroEntries.keys, (key == key) = true) ∧
      (∀ entry ∈ zeroEntries, zeroEntries.get? entry.1 = some entry.2) ∧
      ∀ key ∈ zeroEntries.keys, ∀ other ∈ zeroEntries.keys, (key == other) = true →
        key = other := by
  have hevaluate : zeroKeys.evaluate "zeros" = .ok (.map [(.text "t", .map zeroEntries)]) := rfl
  have hwithin : (Value.map zeroEntries).Within (.map [(.text "t", .map zeroEntries)]) :=
    .entry (List.mem_singleton_self _) (.self _)
  obtain ⟨hdiffer, hnumbers, hself, hfound, hequal⟩ := keys_of_chunk hevaluate hwithin
  exact ⟨hevaluate, hwithin, hdiffer, hnumbers, hself, hfound, hequal zeroEntries hwithin⟩

end Script
end ProductionRates
