import ProductionRates.Json.Decode
import ProductionRates.Proofs.Decimal.NumberTexts
import ProductionRates.Proofs.Sequence
import ProductionRates.Script.Value

/-!
# What values become as JSON

Decoders look at JSON, but a script has values.  This file turns what a decoder accepts back into a
property of values: what becomes a text or a number, where the items and the entries of a table go,
and where the fields of a record come from.

* `Key.toText_eq_iff` — no number has a field's name for its text;
* `Value.itemsToJson_eq_ok_iff`, `Value.entriesToJson_eq_ok_iff` — items and entries become JSON one
  by one, and entries get keys that differ;
* `Value.HasFields`, `Value.IsRecord` — the fields of a record, by name or by position;
* `Decodes` — a decoder accepts what values of some shape become: `decodes_text`, `decodes_int64`,
  `decodes_float`, `Decodes.list`, `Decodes.orNull`, and `decodes_record` for records.
-/

namespace ProductionRates
namespace Script

open Decimal

/-! ## Texts of keys -/

/-- The text cannot be that of a number. -/
def isFieldName (name : String) : Bool :=
  match name.toList with
  | [] => false
  | c :: _ => !(c == '-' || c.isDigit) && name != "inf" && name != "NaN"

/-- The characters begin with a digit or a sign. -/
def BeginsNumber (cs : List Char) : Prop := ∃ c rest, cs = c :: rest ∧ (c = '-' ∨ c.isDigit = true)

theorem beginsNumber_toDigits (n : Nat) : BeginsNumber (Nat.toDigits 10 n) := by
  obtain ⟨c, cs, hdigits⟩ := List.exists_cons_of_ne_nil (@Nat.toDigits_ne_nil n 10)
  exact ⟨c, cs, hdigits, .inr (allDigits_toDigits n c (by simp [hdigits]))⟩

theorem beginsNumber_toString (n : Int) : BeginsNumber (toString n).toList := by
  rw [toList_toString, signed]
  cases decide (n < 0) with
  | false => exact beginsNumber_toDigits n.natAbs
  | true => exact ⟨'-', _, rfl, .inl rfl⟩

theorem beginsNumber_message {x : Float} (hx : isFinite x = true) :
    BeginsNumber (Layout.message.chars x) := by
  obtain ⟨negative, y, digits, grid, -, -, -, hpos, hchars⟩ := exists_setDigits Layout.message hx
  obtain ⟨whole, fraction, hset, hnumeral, -⟩ := setDigits_message hpos
  rw [hchars, hset]
  cases negative with
  | true => exact ⟨'-', _, rfl, .inl rfl⟩
  | false =>
    obtain ⟨c, cs, rfl⟩ := List.exists_cons_of_ne_nil hnumeral.whole_ne_nil
    exact ⟨c, _, rfl, .inr (hnumeral.whole_digits c (List.mem_cons_self ..))⟩

/-- What is not finite has one of three texts. -/
theorem chars_of_not_finite {x : Float} (hx : isFinite x = false) :
    Layout.message.chars x = "NaN".toList ∨ Layout.message.chars x = "inf".toList ∨
      Layout.message.chars x = "-inf".toList := by
  rw [isFinite] at hx
  rw [Layout.chars]
  cases h : Exact.ofFloat x with
  | nan => exact .inl rfl
  | infinite negative => cases negative with
    | false => exact .inr (.inl rfl)
    | true => exact .inr (.inr rfl)
  | finite negative mantissa exponent =>
    rw [h] at hx
    cases hx

/-- **No number has a field's name for its text.** -/
theorem Key.toText_eq_iff {key : Key} {name : String} (hname : isFieldName name = true) :
    key.toText = name ↔ key = .text name := by
  refine ⟨fun htext => ?_, fun h => by rw [h]; rfl⟩
  subst htext
  cases key with
  | text value => rfl
  | number x =>
    exfalso
    have hbegins : ¬ BeginsNumber (Key.number x).toText.toList := by
      rintro ⟨c, cs, hchars, hc⟩
      rw [isFieldName, hchars] at hname
      rcases hc with rfl | hc <;> simp_all
    rw [toText] at hname hbegins
    -- a finite number begins with a digit or a sign, and the texts of others are ruled out by name
    split at hbegins
    · exact hbegins (beginsNumber_toString _)
    · rename_i hwhole
      rw [hwhole] at hname
      rw [Layout.text, String.toList_ofList] at hbegins
      cases hx : isFinite x with
      | true => exact hbegins (beginsNumber_message hx)
      | false =>
        have hchars := chars_of_not_finite hx
        simp only [Layout.text] at hname
        rcases hchars with hchars | hchars | hchars <;> rw [hchars] at hname <;>
          exact absurd hname (by decide)

theorem Key.beq_text_iff {key : Key} {name : String} :
    (key == Key.text name) = true ↔ key = .text name := by
  cases key <;> simp [BEq.beq, Key.same]

/-! ## Tables -/

namespace Value

variable {value : Value} {json : Json}

/-- The value becomes the JSON value. -/
def Becomes (value : Value) (json : Json) : Prop := value.toJson = .ok json

theorem itemsToJson_eq_mapM (items : List Value) : itemsToJson items = items.mapM toJson := by
  induction items with
  | nil => rfl
  | cons item items ih => rw [itemsToJson, ih, List.mapM_cons]

theorem itemsToJson_eq_ok_iff {items : List Value} {jsons : List Json} :
    itemsToJson items = .ok jsons ↔ List.Forall₂ Becomes items jsons := by
  rw [itemsToJson_eq_mapM, mapM_eq_ok_iff, map_eq_map_ok_iff]
  rfl

/-- An entry becomes a member with the text of its key. -/
def EntryBecomes (entry : Key × Value) (member : String × Json) : Prop :=
  entry.1.toText = member.1 ∧ entry.2.Becomes member.2

/-- Entries become members one by one, under keys that differ from each other and from those
before. -/
theorem entriesToJson_eq_ok_iff {before : List String} {entries : List (Key × Value)}
    {members : List (String × Json)} :
    entriesToJson before entries = .ok members ↔
      List.Forall₂ EntryBecomes entries members ∧ (Table.keys members).Nodup ∧
        ∀ key ∈ before, key ∉ Table.keys members := by
  induction entries generalizing before members with
  | nil =>
    rw [entriesToJson]
    cases members <;> simp [Table.keys]
  | cons entry entries ih =>
    obtain ⟨key, value⟩ := entry
    rw [entriesToJson]
    constructor
    · intro h
      split at h
      · cases h
      · rename_i hnew
        obtain ⟨json, hjson, h⟩ := exists_of_bind_eq_ok h
        obtain ⟨rest, hrest, h⟩ := exists_of_bind_eq_ok h
        cases h
        obtain ⟨hentries, hnodup, hbefore⟩ := ih.1 hrest
        refine ⟨.cons ⟨rfl, hjson⟩ hentries,
          List.nodup_cons.2 ⟨hbefore _ (List.mem_cons_self ..), hnodup⟩, fun other hother => ?_⟩
        rw [Table.keys, List.map_cons, List.mem_cons, not_or]
        refine ⟨?_, hbefore other (List.mem_cons_of_mem _ hother)⟩
        rintro rfl
        exact hnew (List.contains_iff_mem.2 hother)
    · rintro ⟨hentries, hnodup, hbefore⟩
      cases hentries with
      | @cons _ member _ rest hentry hentries =>
        obtain ⟨text, json⟩ := member
        obtain ⟨rfl, hjson⟩ := hentry
        obtain ⟨hfirst, hnodup⟩ := List.nodup_cons.1 hnodup
        have hnew : ¬ before.contains key.toText = true := fun hmem =>
          hbefore _ (List.contains_iff_mem.1 hmem) (List.mem_cons_self ..)
        have hrest : entriesToJson (key.toText :: before) entries = .ok rest := by
          refine ih.2 ⟨hentries, hnodup, fun other hother => ?_⟩
          rcases List.mem_cons.1 hother with rfl | hother
          · exact hfirst
          · exact fun hmem => hbefore other hother (List.mem_cons_of_mem _ hmem)
        have hjson : value.toJson = .ok json := hjson
        rw [if_neg hnew, hjson, hrest]
        rfl

/-- What a value becomes: a number that is not finite becomes null, a whole number an integer and
another number a float; tables become what their items and entries become, under keys that
differ. -/
inductive BecomesBy : Value → Json → Prop where
  | nil : BecomesBy .nil .null
  | notFinite {x : Float} (hfinite : isFinite x = false) : BecomesBy (.number x) .null
  | whole {x : Float} {n : Int} (hwhole : wholeNumber? x = some n) : BecomesBy (.number x) (.int n)
  | float {x : Float} (hwhole : wholeNumber? x = none) (hfinite : isFinite x = true) :
    BecomesBy (.number x) (.float x)
  | boolean (b : Bool) : BecomesBy (.boolean b) (.bool b)
  | text (text : String) : BecomesBy (.text text) (.string text)
  | sequence {items : List Value} {jsons : List Json} (hitems : List.Forall₂ Becomes items jsons) :
    BecomesBy (.sequence items) (.array jsons)
  | map {entries : Entries} {members : List (String × Json)}
    (hentries : List.Forall₂ EntryBecomes entries members) (hkeys : (Table.keys members).Nodup) :
    BecomesBy (.map entries) (.object members)

theorem becomes_iff : value.Becomes json ↔ BecomesBy value json := by
  rw [Becomes]
  constructor
  · intro h
    cases value with
    | nil => cases h; exact .nil
    | boolean b => cases h; exact .boolean b
    | text text => cases h; exact .text text
    | number x =>
      cases h
      rw [numberToJson]
      split
      · exact .whole ‹_›
      · split
        · exact .float ‹_› ‹_›
        · exact .notFinite (Bool.eq_false_iff.2 ‹_›)
    | sequence items =>
      rw [toJson] at h
      obtain ⟨jsons, hitems, rfl⟩ := map_eq_ok_iff.1 h
      exact .sequence (itemsToJson_eq_ok_iff.1 hitems)
    | map entries =>
      rw [toJson] at h
      obtain ⟨members, hmembers, rfl⟩ := map_eq_ok_iff.1 h
      obtain ⟨hentries, hkeys, -⟩ := entriesToJson_eq_ok_iff.1 hmembers
      exact .map hentries hkeys
  · intro h
    cases h with
    | sequence hitems => rw [toJson, itemsToJson_eq_ok_iff.2 hitems]; rfl
    | map hentries hkeys =>
      rw [toJson, entriesToJson_eq_ok_iff.2 ⟨hentries, hkeys, by simp⟩]
      rfl
    | @notFinite x hfinite =>
      have hwhole : wholeNumber? x = none := by
        cases h : wholeNumber? x with
        | none => rfl
        | some n => cases hfinite.symm.trans (wholeNumber?_eq_some_iff.1 h).1
      simp [toJson, numberToJson, hwhole, hfinite]
    | whole hwhole => simp [toJson, numberToJson, hwhole]
    | float hwhole hfinite => simp [toJson, numberToJson, hwhole, hfinite]
    | _ => rfl

/-! ## Records -/

/-- How the fields of records may be given. -/
inductive RecordForm where
  /-- By name. -/
  | named
  /-- By name or by position. -/
  | any
  deriving DecidableEq

/-- The value has the fields with the given names, each with a value if it has one. -/
inductive HasFields (form : RecordForm) (names : List String) :
    Value → List (Option Value) → Prop where
  /-- By name: the entries of a map. -/
  | map (entries : Entries) :
    HasFields form names (.map entries) (names.map fun name => entries.get? (.text name))
  /-- By position: the items of a sequence are the first fields.  A table without fields is one. -/
  | sequence {items : List Value} (hform : items = [] ∨ form = .any)
    (hlength : items.length ≤ names.length) : HasFields form names (.sequence items)
      (items.map some ++ List.replicate (names.length - items.length) none)

/-- A value has the fields in one way only. -/
theorem HasFields.unique {form : RecordForm} {names : List String}
    {fields others : List (Option Value)} (h : HasFields form names value fields)
    (hother : HasFields form names value others) : fields = others := by
  cases h <;> cases hother <;> rfl

theorem valuesOf_cons (key : String) (json : Json) (members : List (String × Json))
    (name : String) :
    Json.valuesOf ((key, json) :: members) name =
      if key = name then json :: Json.valuesOf members name else Json.valuesOf members name := by
  by_cases hkey : key = name <;> simp [Json.valuesOf, hkey]

theorem valuesOf_of_not_mem {members : List (String × Json)} {name : String}
    (h : name ∉ Table.keys members) : Json.valuesOf members name = [] := by
  induction members with
  | nil => rfl
  | cons member members ih =>
    obtain ⟨key, json⟩ := member
    rw [Table.keys, List.map_cons, List.mem_cons, not_or] at h
    rw [valuesOf_cons, if_neg (Ne.symm h.1), ih h.2]

/-- The members with a field's name are the entry with it. -/
theorem forall₂_valuesOf {entries : Entries} {members : List (String × Json)}
    (hentries : List.Forall₂ EntryBecomes entries members) (hkeys : (Table.keys members).Nodup)
    {name : String} (hname : isFieldName name = true) :
    List.Forall₂ Becomes (entries.get? (.text name)).toList (Json.valuesOf members name) := by
  induction hentries with
  | nil => exact .nil
  | @cons entry member entries members hentry hentries ih =>
    obtain ⟨key, value⟩ := entry
    obtain ⟨text, json⟩ := member
    obtain ⟨htext, hvalue⟩ := hentry
    dsimp only at htext hvalue
    subst htext
    obtain ⟨hfirst, hkeys⟩ := List.nodup_cons.1 hkeys
    rw [Table.get?, valuesOf_cons]
    by_cases hkey : key = .text name
    · subst hkey
      have htext : Key.toText (.text name) = name := rfl
      rw [htext] at hfirst ⊢
      rw [if_pos (Key.beq_text_iff.2 rfl), if_pos rfl, valuesOf_of_not_mem hfirst]
      exact .cons hvalue .nil
    · have htext : key.toText ≠ name := fun htext => hkey ((Key.toText_eq_iff hname).1 htext)
      rw [if_neg fun h => hkey (Key.beq_text_iff.1 h), if_neg htext]
      exact ih hkeys

/-- What is read under the name of each field. -/
theorem fields?_object {entries : Entries} {members : List (String × Json)}
    (hentries : List.Forall₂ EntryBecomes entries members) (hkeys : (Table.keys members).Nodup)
    {names : List String} (hnames : ∀ name ∈ names, isFieldName name = true) :
    ∃ found, (Json.object members).fields? names = some found ∧
      List.Forall₂ (Option.Rel Becomes) (names.map fun name => entries.get? (.text name))
        found := by
  rw [Json.fields?]
  induction names with
  | nil => exact ⟨[], rfl, .nil⟩
  | cons name names ih =>
    obtain ⟨found, hfound, hall⟩ := ih fun other hother =>
      hnames other (List.mem_cons_of_mem _ hother)
    have hvalue := forall₂_valuesOf hentries hkeys (hnames name (List.mem_cons_self ..))
    rw [List.mapM_cons, hfound, List.map_cons]
    cases hget : entries.get? (.text name) with
    | none =>
      rw [hget] at hvalue
      have hvalues := List.forall₂_nil_left_iff.1 hvalue
      exact ⟨none :: found, by simp [hvalues], .cons .none hall⟩
    | some value =>
      rw [hget] at hvalue
      obtain ⟨json, rest, hjson, hrest, hvalues⟩ := List.forall₂_cons_left_iff.1 hvalue
      rw [List.forall₂_nil_left_iff.1 hrest] at hvalues
      exact ⟨some json :: found, by simp [hvalues], .cons (.some hjson) hall⟩

/-- What is read at the position of each field. -/
theorem fields?_array {items : List Value} {jsons : List Json}
    (hitems : List.Forall₂ Becomes items jsons) {names : List String}
    (hlength : items.length ≤ names.length) :
    ∃ found, (Json.array jsons).fields? names = some found ∧
      List.Forall₂ (Option.Rel Becomes)
        (items.map some ++ List.replicate (names.length - items.length) none) found := by
  have hsame := hitems.length_eq
  refine ⟨_, by rw [Json.fields?, if_pos (hsame ▸ hlength)], ?_⟩
  rw [hsame]
  refine List.rel_append ?_ ?_
  · rw [List.forall₂_map_left_iff, List.forall₂_map_right_iff]
    exact hitems.imp fun _ _ h => .some h
  · generalize names.length - jsons.length = count
    induction count with
    | zero => exact .nil
    | succ count ih => exact .cons .none ih

/-- The fields that a record has are read. -/
theorem HasFields.fields? {form : RecordForm} {names : List String} {fields : List (Option Value)}
    (h : HasFields form names value fields) (hvalue : value.Becomes json)
    (hnames : ∀ name ∈ names, isFieldName name = true) :
    ∃ found, json.fields? names = some found ∧ List.Forall₂ (Option.Rel Becomes) fields found := by
  cases h with
  | map entries => cases becomes_iff.1 hvalue with
    | map hentries hkeys => exact fields?_object hentries hkeys hnames
  | sequence hform hlength => cases becomes_iff.1 hvalue with
    | sequence hitems => exact fields?_array hitems hlength

/-- Fields are read of records only, and they are the fields that the record has. -/
theorem exists_hasFields_of_fields? {names : List String} (hvalue : value.Becomes json)
    (hnames : ∀ name ∈ names, isFieldName name = true) {found : List (Option Json)}
    (hfound : json.fields? names = some found) :
    ∃ fields, HasFields .any names value fields ∧
      List.Forall₂ (Option.Rel Becomes) fields found := by
  have hrecord : ∃ fields, HasFields .any names value fields := by
    cases becomes_iff.1 hvalue with
    | @map entries => exact ⟨_, .map entries⟩
    | sequence hitems =>
      rw [Json.fields?] at hfound
      split at hfound
      · rename_i hlength
        rw [← hitems.length_eq] at hlength
        exact ⟨_, .sequence (.inr rfl) hlength⟩
      · cases hfound
    | _ => cases hfound
  obtain ⟨fields, hhas⟩ := hrecord
  obtain ⟨same, hsame, hfields⟩ := hhas.fields? hvalue hnames
  obtain rfl := Option.some.inj (hsame.symm.trans hfound)
  exact ⟨fields, hhas, hfields⟩

end Value

/-! ## Decoders -/

section Decodes

variable {α β : Type} {decode : Json → Option α} {shape : Value → Prop}

/-- The decoder comes to something. -/
def Accepted (decode : Json → Option α) (json : Json) : Prop := (decode json).isSome

/-- The decoder accepts what values of a shape become, and nothing else. -/
def Decodes (decode : Json → Option α) (shape : Value → Prop) : Prop :=
  ∀ value json, value.Becomes json → (Accepted decode json ↔ shape value)

/-- The value is a text. -/
def Value.IsText (value : Value) : Prop := ∃ text, value = .text text

/-- The value is a finite number. -/
def Value.IsFinite (value : Value) : Prop := ∃ x, value = .number x ∧ isFinite x = true

/-- The value is a whole number, and not a large one. -/
def Value.IsWhole (value : Value) : Prop :=
  ∃ x n, value = .number x ∧ isFinite x = true ∧ (Exact.ofFloat x).toRat = (n : Int) ∧
    n.natAbs ≤ largestSafeInteger

/-- The value is absent or a number that is not finite. -/
def Value.IsNull (value : Value) : Prop :=
  value = .nil ∨ ∃ x, value = .number x ∧ isFinite x = false

/-- The value is a sequence of items of a shape. -/
def Value.IsSequenceOf (shape : Value → Prop) (value : Value) : Prop :=
  ∃ items, value = .sequence items ∧ ∀ item ∈ items, shape item

theorem decodes_text : Decodes Json.text? Value.IsText := by
  intro value json hvalue
  cases Value.becomes_iff.1 hvalue <;> simp [Accepted, Json.text?, Value.IsText]

theorem decodes_float : Decodes Json.float? Value.IsFinite := by
  intro value json hvalue
  cases Value.becomes_iff.1 hvalue with
  | whole hwhole =>
    have hfinite := (wholeNumber?_eq_some_iff.1 hwhole).1
    simp [Accepted, Json.float?, Value.IsFinite, hfinite]
  | float hwhole hfinite => simp [Accepted, Json.float?, Value.IsFinite, hfinite]
  | notFinite hfinite => simp [Accepted, Json.float?, Value.IsFinite, hfinite]
  | _ => simp [Accepted, Json.float?, Value.IsFinite]

theorem decodes_int64 : Decodes Json.int64? Value.IsWhole := by
  intro value json hvalue
  cases Value.becomes_iff.1 hvalue with
  | @whole x n hwhole =>
    have hn := wholeNumber?_eq_some_iff.1 hwhole
    have hbound : -(Nat.pow 2 63 : Int) ≤ n ∧ n < (Nat.pow 2 63 : Int) := by
      have hsafe := hn.2.2
      have hlargest : largestSafeInteger = 9007199254740991 := rfl
      have hpow : (Nat.pow 2 63 : Int) = 9223372036854775808 := rfl
      omega
    refine ⟨fun _ => ⟨x, n, rfl, hn⟩, fun _ => ?_⟩
    rw [Accepted, Json.int64?, if_pos hbound]
    rfl
  | @float x hwhole hfinite =>
    refine ⟨nofun, ?_⟩
    rintro ⟨_, n, hx, hn⟩
    cases hx
    cases hwhole.symm.trans (wholeNumber?_eq_some_iff.2 hn)
  | notFinite hfinite => simp [Accepted, Json.int64?, Value.IsWhole, hfinite]
  | _ => simp [Accepted, Json.int64?, Value.IsWhole]

/-- Null is accepted besides. -/
theorem Decodes.orNull (h : Decodes decode shape) :
    Decodes (Json.orNull? decode) fun value => value.IsNull ∨ shape value := by
  intro value json hvalue
  have hshape : (decode json).isSome ↔ shape value := h value json hvalue
  cases Value.becomes_iff.1 hvalue with
  | nil => simp [Accepted, Json.orNull?, Value.IsNull]
  | notFinite hfinite => simp [Accepted, Json.orNull?, Value.IsNull, hfinite]
  | whole hwhole =>
    simp [Accepted, Json.orNull?, Value.IsNull, (wholeNumber?_eq_some_iff.1 hwhole).1, hshape]
  | float hwhole hfinite => simp [Accepted, Json.orNull?, Value.IsNull, hfinite, hshape]
  | _ => simp [Accepted, Json.orNull?, Value.IsNull, hshape]

/-- Members that go together are accepted together. -/
theorem Decodes.forall_mem (h : Decodes decode shape) {items : List Value} {jsons : List Json}
    (hitems : List.Forall₂ Value.Becomes items jsons) :
    (∀ json ∈ jsons, Accepted decode json) ↔ ∀ item ∈ items, shape item := by
  constructor
  · intro hall item hitem
    obtain ⟨json, hjson, hbecomes⟩ := exists_right_of_forall₂ hitems hitem
    exact (h item json hbecomes).1 (hall json hjson)
  · intro hall json hjson
    obtain ⟨item, hitem, hbecomes⟩ := exists_left_of_forall₂ hitems hjson
    exact (h item json hbecomes).2 (hall item hitem)

/-- Items are accepted one by one. -/
theorem Decodes.list (h : Decodes decode shape) :
    Decodes (Json.list? decode) (Value.IsSequenceOf shape) := by
  intro value json hvalue
  cases Value.becomes_iff.1 hvalue with
  | sequence hitems =>
    simp [Accepted, Json.list?, Value.IsSequenceOf, mapM_isSome_iff, ← h.forall_mem hitems]
  | _ => simp [Accepted, Json.list?, Value.IsSequenceOf]

end Decodes

/-! ## Fields -/

section Fields

variable {α : Type} {decode : Json → Option α} {shape : Value → Prop}

/-- The field is there and has a property. -/
def Required {γ : Type} (holds : γ → Prop) (field : Option γ) : Prop :=
  ∃ a, field = some a ∧ holds a

/-- The field has a property if it is there. -/
def Optional {γ : Type} (holds : γ → Prop) (field : Option γ) : Prop :=
  ∀ a, field = some a → holds a

/-- The fields of a record: the name of each, and what it has to satisfy. -/
abbrev Schema := List (String × (Option Value → Prop))

/-- The value is a record with the fields of a schema. -/
def Value.IsRecord (form : Value.RecordForm) (schema : Schema) (value : Value) : Prop :=
  ∃ fields, value.HasFields form (schema.map Prod.fst) fields ∧
    List.Forall₂ (fun field found => field.2 found) schema fields

/-- The fields of a map are its entries. -/
theorem Value.isRecord_map_iff {form : Value.RecordForm} {schema : Schema} {entries : Entries} :
    IsRecord form schema (.map entries) ↔
      ∀ field ∈ schema, field.2 (entries.get? (.text field.1)) := by
  have hfields : List.Forall₂ (fun (field : String × (Option Value → Prop)) found =>
      field.2 found) schema
        ((schema.map Prod.fst).map fun name => entries.get? (.text name)) ↔
      ∀ field ∈ schema, field.2 (entries.get? (.text field.1)) := by
    rw [List.map_map, List.forall₂_map_right_iff, List.forall₂_same]
    rfl
  rw [← hfields]
  constructor
  · rintro ⟨fields, hhas, hall⟩
    cases hhas
    exact hall
  · exact fun hall => ⟨_, .map entries, hall⟩

/-- The value gives the fields of a record by position. -/
def Value.IsPositional (value : Value) : Prop := ∃ items, value = .sequence items ∧ items ≠ []

/-- A record is one by name if it does not give its fields by position. -/
theorem Value.isRecord_named_iff {schema : Schema} {value : Value} :
    value.IsRecord .named schema ↔ value.IsRecord .any schema ∧ ¬ value.IsPositional := by
  constructor
  · rintro ⟨fields, hhas, hall⟩
    cases hhas with
    | map entries => exact ⟨⟨_, .map entries, hall⟩, by simp [IsPositional]⟩
    | sequence hform hlength =>
      have hnil := hform.resolve_right nofun
      exact ⟨⟨_, .sequence (.inl hnil) hlength, hall⟩, by simp [IsPositional, hnil]⟩
  · rintro ⟨⟨fields, hhas, hall⟩, hnamed⟩
    cases hhas with
    | map entries => exact ⟨_, .map entries, hall⟩
    | @sequence items hform hlength =>
      have hnil : items = [] := by
        by_contra hsome
        exact hnamed ⟨items, rfl, hsome⟩
      exact ⟨_, .sequence (.inl hnil) hlength, hall⟩

/-- A check of what is read for a field, and what the field has to satisfy. -/
def ChecksField (check : Option Json → Prop) (holds : Option Value → Prop) : Prop :=
  ∀ field found, Option.Rel Value.Becomes field found → (check found ↔ holds field)

theorem Decodes.required (h : Decodes decode shape) :
    ChecksField (Required (Accepted decode)) (Required shape) := by
  intro field found hfield
  cases hfield with
  | none => simp [Required]
  | some hvalue => simpa [Required] using h _ _ hvalue

theorem Decodes.optional (h : Decodes decode shape) :
    ChecksField (Optional (Accepted decode)) (Optional shape) := by
  intro field found hfield
  cases hfield with
  | none => simp [Optional]
  | some hvalue => simpa [Optional] using h _ _ hvalue

theorem forall₂_checks_iff {checks : List (Option Json → Prop)} {schema : Schema}
    (hchecks : List.Forall₂ (fun check field => ChecksField check field.2) checks schema)
    {fields : List (Option Value)} {found : List (Option Json)}
    (hfields : List.Forall₂ (Option.Rel Value.Becomes) fields found) :
    List.Forall₂ (fun check json => check json) checks found ↔
      List.Forall₂ (fun field found => field.2 found) schema fields := by
  induction hchecks generalizing fields found with
  | nil => cases hfields <;> simp
  | cons hcheck _ ih => cases hfields with
    | nil => simp
    | cons hfield hfields =>
      rw [List.forall₂_cons, List.forall₂_cons, hcheck _ _ hfield, ih hfields]

/-- A record is accepted if its fields are, by name or by position. -/
theorem decodes_record (schema : Schema) {checks : List (Option Json → Prop)}
    (hnames : ∀ name ∈ schema.map Prod.fst, isFieldName name = true)
    (hchecks : List.Forall₂ (fun check field => ChecksField check field.2) checks schema)
    {value : Value} {json : Json} (hvalue : value.Becomes json) :
    (∃ found, json.fields? (schema.map Prod.fst) = some found ∧
      List.Forall₂ (fun check json => check json) checks found) ↔ value.IsRecord .any schema := by
  constructor
  · rintro ⟨found, hfound, hall⟩
    obtain ⟨fields, hhas, hfields⟩ := Value.exists_hasFields_of_fields? hvalue hnames hfound
    exact ⟨fields, hhas, (forall₂_checks_iff hchecks hfields).1 hall⟩
  · rintro ⟨fields, hhas, hall⟩
    obtain ⟨found, hfound, hfields⟩ := hhas.fields? hvalue hnames
    exact ⟨found, hfound, (forall₂_checks_iff hchecks hfields).2 hall⟩

end Fields

end Script
end ProductionRates
