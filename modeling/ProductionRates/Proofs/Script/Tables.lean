import ProductionRates.Proofs.Decimal.WholeNumbers
import ProductionRates.Proofs.Script.Literals
import ProductionRates.Proofs.Table

/-!
# The values of tables

A table of a script becomes a sequence or a map, by the form of its own fields.  In a map each field
sets a key, and the fields without a key of their own are numbered from zero, whatever keys stand
between them.

* `Field.Sets` — the key and the value that a field at a position sets;
* `Fields.Set` — what all fields of a table set, in order;
* `IsTable` — the value that this makes;
* `evaluate_table_iff` — the value of a table, by what its fields set.

Keys are compared with `Key.same`, which is an equivalence but for NaN; no field sets a NaN.
-/

namespace ProductionRates
namespace Script

/-! ## Keys -/

namespace Key

instance : PartialEquivBEq Key where
  symm := by
    intro a b h
    cases a <;> cases b
    case number.number x y =>
      obtain ⟨hx, hy, hcases⟩ := Float.beq_iff_ne_nan_and_eq.1 h
      refine Float.beq_iff_ne_nan_and_eq.2 ⟨hy, hx, ?_⟩
      rcases hcases with hsame | ⟨hx, hy⟩ | ⟨hx, hy⟩
      · exact .inl hsame.symm
      · exact .inr (.inr ⟨hy, hx⟩)
      · exact .inr (.inl ⟨hy, hx⟩)
    case text.text s t => exact BEq.symm (α := String) h
    all_goals cases h
  trans := by
    intro a b c h hnext
    cases a <;> cases b <;> cases c
    case number.number.number x y z =>
      obtain ⟨hx, -, hcases⟩ := Float.beq_iff_ne_nan_and_eq.1 h
      obtain ⟨-, hz, hnext⟩ := Float.beq_iff_ne_nan_and_eq.1 hnext
      refine Float.beq_iff_ne_nan_and_eq.2 ⟨hx, hz, ?_⟩
      grind
    case text.text.text r s t => exact BEq.trans (α := String) h hnext
    all_goals first | cases h | cases hnext

/-- A number that is not NaN is the same key as itself. -/
theorem number_beq_self {x : Float} (h : x.isNaN = false) :
    (number x == number x) = true := by
  refine Float.beq_iff_ne_nan_and_eq.2 ⟨?_, ?_, .inl rfl⟩ <;>
  · rintro rfl
    cases h

end Key

/-- The key of a number that is not NaN. -/
theorem Value.key?_number {x : Float} (h : x.isNaN = false) :
    (Value.number x).key? = .ok (.number (if x == 0 then 0 else x)) := by
  rw [Value.key?, Key.number?, h, if_neg Bool.false_ne_true]
  by_cases hzero : (x == 0) = true
  · rw [if_pos hzero, if_pos hzero]
  · rw [if_neg hzero, if_neg hzero]

/-! ## What fields set -/

variable {source : String} {location : Option Location} {field : Field} {fields : List Field}
  {settings : List (Key × Value)} {setting : Key × Value} {position start : Nat}

/-- The key and the value that a field sets, at a position among the fields without a key. -/
inductive Field.Sets (source : String) (position : Nat) : Field → Key × Value → Prop where
  /-- A field without a key sets its position. -/
  | positional {e : Expression} {value : Value} (h : e.evaluate source = .ok value) :
      Sets source position (.positional e) (.number (Decimal.floatOfNat position), value)
  /-- A field with a name sets the name. -/
  | named (name : String) {e : Expression} {value : Value} (h : e.evaluate source = .ok value) :
      Sets source position (.named name e) (.text name, value)
  /-- A field with a number in brackets sets the number; both zeros set the positive one. -/
  | number {key e : Expression} {x : Float} {value : Value}
      (hkey : key.evaluate source = .ok (.number x)) (hnumber : x.isNaN = false)
      (h : e.evaluate source = .ok value) :
      Sets source position (.keyed key e) (.number (if x == 0 then 0 else x), value)
  /-- A field with a text in brackets sets the text. -/
  | text {key e : Expression} {text : String} {value : Value}
      (hkey : key.evaluate source = .ok (.text text)) (h : e.evaluate source = .ok value) :
      Sets source position (.keyed key e) (.text text, value)

/-- What an evaluated field sets at a position. -/
def settingAt (position : Nat) (evaluated : EvaluatedField) : Key × Value :=
  (evaluated.1.getD (.number (Decimal.floatOfNat position)), evaluated.2)

/-- A field sets what it evaluates to. -/
theorem Field.Sets.evaluate (h : field.Sets source position setting)
    (location : Option Location) : ∃ evaluated : EvaluatedField,
      field.evaluate source location = .ok evaluated ∧ settingAt position evaluated = setting := by
  cases h with
  | @positional e value h =>
    refine ⟨(none, value), ?_, rfl⟩
    rw [Field.evaluate, h]
    rfl
  | @named name e value h =>
    refine ⟨(some (.text name), value), ?_, rfl⟩
    rw [Field.evaluate, h]
    rfl
  | @number key e x value hkey hnumber h =>
    refine ⟨(some (.number (if x == 0 then 0 else x)), value), ?_, rfl⟩
    rw [Field.evaluate, hkey]
    simp only [Bind.bind, Except.bind, Value.key?_number hnumber, h]
    rfl
  | @text key e text value hkey h =>
    refine ⟨(some (.text text), value), ?_, rfl⟩
    rw [Field.evaluate, hkey]
    show (e.evaluate source >>= fun value => _) = _
    rw [h]
    rfl

/-- What a field evaluates to is what it sets. -/
theorem Field.sets_of_evaluate {evaluated : EvaluatedField}
    (h : field.evaluate source location = .ok evaluated) (position : Nat) :
    field.Sets source position (settingAt position evaluated) := by
  cases field with
  | positional e =>
    obtain ⟨value, hvalue, heq⟩ := exists_of_bind_eq_ok h
    cases heq
    exact .positional hvalue
  | named name e =>
    obtain ⟨value, hvalue, heq⟩ := exists_of_bind_eq_ok h
    cases heq
    exact .named name hvalue
  | keyed bracketed e =>
    rw [Field.evaluate] at h
    obtain ⟨keyValue, hkey, heq⟩ := exists_of_bind_eq_ok h
    cases hfound : keyValue.key? with
    | error found =>
      rw [hfound] at heq
      cases heq
    | ok key =>
      rw [hfound] at heq
      obtain ⟨value, hvalue, heq⟩ := exists_of_bind_eq_ok heq
      cases heq
      cases keyValue with
      | number x =>
        cases hnumber : x.isNaN with
        | true =>
          rw [Value.key?, Key.number?, hnumber, if_pos rfl] at hfound
          cases hfound
        | false =>
          rw [Value.key?_number hnumber] at hfound
          cases hfound
          exact .number hkey hnumber hvalue
      | text text =>
        cases hfound
        exact .text hkey hvalue
      | _ => cases hfound

/-- The key that a field sets is the same as itself. -/
theorem Field.Sets.self (h : field.Sets source position setting) :
    (setting.1 == setting.1) = true := by
  cases h with
  | positional h => exact Key.number_beq_self (Decimal.isNaN_floatOfNat position)
  | @number key e x value hkey hnumber h =>
    refine Key.number_beq_self ?_
    split
    · rfl
    · exact hnumber
  | named name h => exact beq_self_eq_true name
  | @text key e text value hkey h => exact beq_self_eq_true text

/-! ## The fields of a table -/

/-- What the fields of a table set, one by one.  The position of a field among those without a key
is their number before it, from `start` on. -/
structure Fields.Set (source : String) (start : Nat) (fields : List Field)
    (settings : List (Key × Value)) : Prop where
  /-- Each field sets one key. -/
  length : settings.length = fields.length
  /-- Each sets its own key and value. -/
  sets : ∀ (index : Nat) (field : Field) (setting : Key × Value), fields[index]? = some field →
    settings[index]? = some setting →
      field.Sets source (start + (fields.take index).countP Field.isPositional) setting

theorem Fields.set_cons_iff : Fields.Set source start (field :: fields) (setting :: settings) ↔
    field.Sets source start setting ∧
      Fields.Set source (if field.isPositional then start + 1 else start) fields settings := by
  have hnext (index : Nat) : start + ((field :: fields).take (index + 1)).countP
      Field.isPositional = (if field.isPositional then start + 1 else start) +
        (fields.take index).countP Field.isPositional := by
    rw [List.take_succ_cons, List.countP_cons]
    split <;> omega
  constructor
  · rintro ⟨hlength, hsets⟩
    refine ⟨hsets 0 field setting rfl rfl, Nat.succ.inj hlength, ?_⟩
    intro index other value hother hvalue
    rw [← hnext]
    exact hsets (index + 1) other value hother hvalue
  · rintro ⟨hfirst, hlength, hsets⟩
    refine ⟨congrArg Nat.succ hlength, ?_⟩
    intro index other value hother hvalue
    cases index with
    | zero =>
      cases hother
      cases hvalue
      exact hfirst
    | succ index =>
      rw [hnext]
      exact hsets index other value hother hvalue

theorem keyed_cons (next : Nat) (evaluated : EvaluatedField) (rest : List EvaluatedField) :
    keyed next (evaluated :: rest) = settingAt next evaluated ::
      keyed (if evaluated.1.isNone then next + 1 else next) rest := by
  obtain ⟨key, value⟩ := evaluated
  cases key <;> rfl

theorem map_snd_keyed (next : Nat) (evaluated : List EvaluatedField) :
    (keyed next evaluated).map Prod.snd = evaluated.map Prod.snd := by
  induction evaluated generalizing next with
  | nil => rfl
  | cons first rest ih =>
    rw [keyed_cons, List.map_cons, List.map_cons, ih]
    rfl

/-- **The fields of a table set what they evaluate to**, with the positions filled in. -/
theorem Fields.set_iff (location : Option Location) : Fields.Set source start fields settings ↔
    ∃ evaluated, evaluateFields source location fields = .ok evaluated ∧
      keyed start evaluated = settings := by
  induction fields generalizing start settings with
  | nil =>
    constructor
    · rintro ⟨hlength, -⟩
      exact ⟨[], rfl, (List.length_eq_zero_iff.1 hlength).symm⟩
    · rintro ⟨evaluated, hevaluated, rfl⟩
      cases hevaluated
      exact ⟨rfl, fun _ _ _ hfield => nomatch hfield⟩
  | cons field fields ih =>
    constructor
    · intro h
      cases settings with
      | nil => cases h.length
      | cons setting settings =>
        obtain ⟨hfirst, hrest⟩ := Fields.set_cons_iff.1 h
        obtain ⟨first, hevaluated, rfl⟩ := hfirst.evaluate location
        obtain ⟨rest, hfields, rfl⟩ := ih.1 hrest
        refine ⟨first :: rest, ?_, ?_⟩
        · rw [evaluateFields, hevaluated, hfields]
          rfl
        · rw [keyed_cons, isNone_of_field_evaluate hevaluated]
    · rintro ⟨evaluated, hevaluated, rfl⟩
      rw [evaluateFields] at hevaluated
      obtain ⟨first, hfirst, heq⟩ := exists_of_bind_eq_ok hevaluated
      obtain ⟨rest, hrest, heq⟩ := exists_of_bind_eq_ok heq
      cases heq
      rw [keyed_cons, isNone_of_field_evaluate hfirst]
      exact Fields.set_cons_iff.2 ⟨Field.sets_of_evaluate hfirst start, ih.2 ⟨rest, hrest, rfl⟩⟩

theorem Fields.Set.self (h : Fields.Set source start fields settings) :
    ∀ setting ∈ settings, (setting.1 == setting.1) = true := by
  intro setting hsetting
  obtain ⟨index, hindex⟩ := List.mem_iff_getElem?.1 hsetting
  obtain ⟨hbound, -⟩ := List.getElem?_eq_some_iff.1 hindex
  have hfield := List.getElem?_eq_getElem (h.length ▸ hbound)
  exact (h.sets index _ setting hfield hindex).self

/-! ## Tables -/

/-- The value that is made of what the fields of a table set: a sequence of the values if no field
has a key, and otherwise a map that holds the last value of each key. -/
inductive IsTable (fields : List Field) (settings : List (Key × Value)) : Value → Prop where
  /-- No field has a key; there may be no fields. -/
  | sequence (h : ∀ field ∈ fields, field.isPositional = true) :
      IsTable fields settings (.sequence (settings.map Prod.snd))
  /-- Some field has a key. -/
  | map {entries : Entries} (h : ∃ field ∈ fields, field.isPositional = false)
      (hentries : entries.HoldsLast settings) : IsTable fields settings (.map entries)

theorem isTable_iff {evaluated : List EvaluatedField} {value : Value}
    (hevaluated : evaluateFields source location fields = .ok evaluated) :
    IsTable fields (keyed 0 evaluated) value ↔ Value.ofFields evaluated = value := by
  have hset : Fields.Set source 0 fields (keyed 0 evaluated) :=
    (Fields.set_iff location).2 ⟨evaluated, hevaluated, rfl⟩
  have hself := hset.self
  rw [Value.ofFields, all_isNone_of_evaluateFields hevaluated]
  constructor
  · intro h
    cases h with
    | sequence h => rw [if_pos (List.all_eq_true.2 h), map_snd_keyed]
    | map h hentries =>
      rw [if_neg (by simpa using h), (Table.holdsLast_iff hself).1 hentries]
  · rintro rfl
    split
    · rename_i hall
      rw [← map_snd_keyed 0]
      exact .sequence (List.all_eq_true.1 hall)
    · rename_i hsome
      exact .map (by simpa using hsome) ((Table.holdsLast_iff hself).2 rfl)

/-- What the fields of a table set makes a value. -/
theorem Fields.Set.exists_isTable (h : Fields.Set source 0 fields settings) :
    ∃ value, IsTable fields settings value := by
  obtain ⟨evaluated, hevaluated, rfl⟩ := (Fields.set_iff none).1 h
  exact ⟨_, (isTable_iff hevaluated).2 rfl⟩

/-- **The value of a table.**  It has one if all its fields do, and then it is a sequence of the
values if no field has a key, and otherwise a map.  In a map the fields without a key are numbered
from zero among themselves; the value under a key is that of the last field that sets the key, and
the keys stand where they are first set.  This goes for every table by its own fields, wherever it
stands.  Below `2 ^ 53` the keys of fields without one are exact. -/
theorem evaluate_table_iff (source : String) (location : Option Location) (fields : List Field) :
    (∀ value, (Expression.table location fields).evaluate source = .ok value ↔
      ∃ settings, Fields.Set source 0 fields settings ∧ IsTable fields settings value) ∧
    (∀ settings, Fields.Set source 0 fields settings → ∃ value, IsTable fields settings value) ∧
    ∀ position < 2 ^ 53,
      Decimal.wholeNumber? (Decimal.floatOfNat position) = some (position : ℤ) := by
  refine ⟨fun value => ?_, fun settings h => h.exists_isTable,
    fun position h => Decimal.wholeNumber?_floatOfNat h⟩
  rw [Expression.evaluate]
  constructor
  · intro h
    cases hevaluated : evaluateFields source location fields with
    | error error =>
      rw [hevaluated] at h
      cases h
    | ok evaluated =>
      rw [hevaluated] at h
      exact ⟨_, (Fields.set_iff location).2 ⟨evaluated, hevaluated, rfl⟩,
        (isTable_iff hevaluated).2 (Except.ok.inj h)⟩
  · rintro ⟨settings, hset, htable⟩
    obtain ⟨evaluated, hevaluated, rfl⟩ := (Fields.set_iff location).1 hset
    rw [hevaluated, ← (isTable_iff hevaluated).1 htable]
    rfl

end Script
end ProductionRates
