import ProductionRates.Proofs.Script.Members

/-!
# Equality of values

Values are equal if they differ in the order of the entries of maps and in the signs of zeros only.
Said so, without looking anything up, equality is plainly an equivalence, and what equal values
become as JSON differs in the order of members only.  It is compared by looking up each entry of one
map in the other, which comes to the same if no number is a NaN and no map has a key twice.

* `Value.Comparable` — values without a NaN, whose maps have no key twice;
* `Value.Rearranged` — values with entries in another order and zeros of other signs, at any depth;
* `Value.equal_iff_rearranged` — comparable values are equal just when they are rearranged;
* `Json.Reordered` — JSON values that are equal as unordered objects;
* `Value.Rearranged.becomes` — what rearranged values become;
* `equal_values` — equality of comparable values is an equivalence that JSON respects.
-/

namespace ProductionRates

/-! ## JSON without order -/

mutual

/-- The JSON values are equal but for the order of members, at any depth. -/
inductive Json.Reordered : Json → Json → Prop where
  | null : Json.Reordered .null .null
  | bool (b : Bool) : Json.Reordered (.bool b) (.bool b)
  | int (n : Int) : Json.Reordered (.int n) (.int n)
  | float (x : Float) : Json.Reordered (.float x) (.float x)
  | string (text : String) : Json.Reordered (.string text) (.string text)
  | array {items others : List Json} (h : List.Forall₂ Json.Reordered items others) :
      Json.Reordered (.array items) (.array others)
  | object {members middle others : List (String × Json)}
      (h : List.Forall₂ Json.ReorderedMember members middle) (horder : middle.Perm others) :
      Json.Reordered (.object members) (.object others)

/-- The members have one key, and their values are equal but for the order of members. -/
inductive Json.ReorderedMember : String × Json → String × Json → Prop where
  | mk (key : String) {json other : Json} (h : Json.Reordered json other) :
      Json.ReorderedMember (key, json) (key, other)

end

namespace Script

open Decimal

/-! ## Keys that match -/

namespace Key

variable {key other last : Key}

/-- The keys are equal but for the sign of a zero. -/
def Matches : Key → Key → Prop
  | .number x, .number y => SameNumber x y
  | .text s, .text t => s = t
  | _, _ => False

theorem Matches.refl (key : Key) : key.Matches key := by
  cases key with
  | number x => exact SameNumber.refl x
  | text text => rfl

theorem Matches.symm (h : key.Matches other) : other.Matches key := by
  cases key <;> cases other
  case number.number => exact SameNumber.symm h
  case text.text => exact Eq.symm h
  all_goals cases h

theorem Matches.trans (h : key.Matches other) (hnext : other.Matches last) : key.Matches last := by
  cases key <;> cases other <;> cases last
  case number.number.number => exact SameNumber.trans h hnext
  case text.text.text => exact Eq.trans h hnext
  all_goals first | exact False.elim h | exact False.elim hnext

theorem Matches.toText_eq (h : key.Matches other) : key.toText = other.toText := by
  cases key <;> cases other
  case number.number => exact SameNumber.congr (fun x => (number x).toText) (by decide +kernel) h
  case text.text => exact h
  all_goals cases h

theorem Matches.isNaN_eq (h : key.Matches other) : key.isNaN = other.isNaN := by
  cases key <;> cases other
  case number.number => exact SameNumber.isNaN_eq h
  case text.text => rfl
  all_goals cases h

/-- Keys that are the same match. -/
theorem matches_of_beq (h : (key == other) = true) : key.Matches other := by
  cases key <;> cases other
  case number.number x y =>
    have hsame : (x == y) = true := h
    rw [Float.beq_iff_ne_nan_and_eq] at hsame
    exact hsame.2.2
  case text.text => exact eq_of_beq (α := String) h
  all_goals cases h

/-- Keys that match are the same, if they are no NaN. -/
theorem Matches.beq (h : key.Matches other) (hkey : key.isNaN = false) :
    (key == other) = true := by
  have hother := h.isNaN_eq ▸ hkey
  cases key <;> cases other
  case number.number => exact (number_beq_iff hkey hother).2 h
  case text.text => exact beq_iff_eq (α := String) |>.2 h
  all_goals cases h

end Key

namespace Value

variable {a b c : Value} {entries others : Entries}

/-! ## Comparable values -/

/-- Values without a NaN, as a number or as a key, whose maps have no key twice, as none has that is
made by setting keys. -/
structure Comparable (value : Value) : Prop where
  /-- No number is a NaN. -/
  numbers : ∀ x, (Value.number x).Within value → x.isNaN = false
  /-- No key is a NaN, and no map has a key twice. -/
  maps : value.EveryMap Distinct

theorem comparable_number_iff {x : Float} : Comparable (.number x) ↔ x.isNaN = false := by
  refine ⟨fun h => h.numbers x (.self _), fun h => ⟨?_, everyMap_number x⟩⟩
  rintro y ⟨⟩
  exact h

theorem comparable_sequence_iff {items : List Value} :
    Comparable (.sequence items) ↔ ∀ item ∈ items, item.Comparable := by
  constructor
  · rintro ⟨hnumbers, hmaps⟩ item hitem
    exact ⟨fun x hx => hnumbers x (.item hitem hx), everyMap_sequence_iff.1 hmaps item hitem⟩
  · refine fun h => ⟨?_, everyMap_sequence_iff.2 fun item hitem => (h item hitem).maps⟩
    intro x hx
    cases hx with
    | item hitem hinner => exact (h _ hitem).numbers x hinner

theorem comparable_map_iff :
    Comparable (.map entries) ↔ Distinct entries ∧ ∀ entry ∈ entries, entry.2.Comparable := by
  constructor
  · rintro ⟨hnumbers, hmaps⟩
    obtain ⟨hdistinct, hvalues⟩ := everyMap_map_iff.1 hmaps
    exact ⟨hdistinct, fun entry hentry =>
      ⟨fun x hx => hnumbers x (.entry hentry hx), hvalues entry hentry⟩⟩
  · rintro ⟨hdistinct, hvalues⟩
    refine ⟨?_, everyMap_map_iff.2 ⟨hdistinct, fun entry hentry => (hvalues entry hentry).maps⟩⟩
    intro x hx
    cases hx with
    | entry hentry hinner => exact (hvalues _ hentry).numbers x hinner

/-! ## Rearranged values -/

end Value

mutual

/-- The second value is the first with the entries of maps in another order and with other signs of
zeros, at any depth. -/
inductive Value.Rearranged : Value → Value → Prop where
  | nil : Value.Rearranged .nil .nil
  | boolean (b : Bool) : Value.Rearranged (.boolean b) (.boolean b)
  | number {x y : Float} (h : SameNumber x y) : Value.Rearranged (.number x) (.number y)
  | text (text : String) : Value.Rearranged (.text text) (.text text)
  | sequence {items others : List Value} (h : List.Forall₂ Value.Rearranged items others) :
      Value.Rearranged (.sequence items) (.sequence others)
  | map {entries middle others : Entries} (h : List.Forall₂ RearrangedEntry entries middle)
      (horder : middle.Perm others) : Value.Rearranged (.map entries) (.map others)

/-- The keys match, and the second value is the first rearranged. -/
inductive RearrangedEntry : Key × Value → Key × Value → Prop where
  | mk {key other : Key} {value last : Value} (hkey : key.Matches other)
      (h : Value.Rearranged value last) : RearrangedEntry (key, value) (other, last)

end

namespace Value.Rearranged

variable {a b c : Value} {entries others : Entries}

theorem refl (a : Value) : a.Rearranged a := by
  induction a using Value.induction with
  | nil => exact .nil
  | boolean b => exact .boolean b
  | number x => exact .number (.refl x)
  | text text => exact .text text
  | sequence items ih => exact .sequence (List.forall₂_same.2 ih)
  | map entries ih =>
    exact .map (List.forall₂_same.2 fun entry hentry => .mk (.refl _) (ih entry hentry)) (.refl _)

theorem symm (h : a.Rearranged b) : b.Rearranged a := by
  induction a using Value.induction generalizing b with
  | nil => cases h; exact .nil
  | boolean b => cases h; exact .boolean b
  | number x =>
    cases h with
    | number h => exact .number h.symm
  | text text => cases h; exact .text text
  | sequence items ih =>
    cases h with
    | sequence h =>
      exact .sequence (forall₂_imp_mem h fun item hitem other => ih item hitem).flip
  | map entries ih =>
    cases h with
    | @map _ found _ h horder =>
      have hback : List.Forall₂ (fun entry other => RearrangedEntry other entry) entries found := by
        refine forall₂_imp_mem h ?_
        rintro entry hentry _ ⟨hkey, hvalue⟩
        exact .mk hkey.symm (ih _ hentry hvalue)
      obtain ⟨middle, hmiddle, hperm⟩ := List.perm_comp_forall₂ horder.symm hback.flip
      exact .map hmiddle hperm

theorem trans (h : a.Rearranged b) (hnext : b.Rearranged c) : a.Rearranged c := by
  induction a using Value.induction generalizing b c with
  | nil => cases h; exact hnext
  | boolean b => cases h; exact hnext
  | number x =>
    cases h with
    | number h =>
      cases hnext with
      | number hnext => exact .number (h.trans hnext)
  | text text => cases h; exact hnext
  | sequence items ih =>
    cases h with
    | sequence h =>
      cases hnext with
      | sequence hnext =>
        exact .sequence (forall₂_trans h hnext fun item hitem _ _ => ih item hitem)
  | map entries ih =>
    cases h with
    | map h horder =>
      cases hnext with
      | map hnext hlast =>
        obtain ⟨middle, hmiddle, hperm⟩ := List.perm_comp_forall₂ horder hnext
        refine .map (forall₂_trans h hmiddle fun entry hentry _ _ hfirst hsecond => ?_)
          (hperm.trans hlast)
        cases hfirst with
        | mk hkey hvalue =>
          cases hsecond with
          | mk hother hlater => exact .mk (hkey.trans hother) (ih _ hentry hvalue hlater)

end Value.Rearranged

namespace Value

variable {a b c : Value} {entries others middle : Entries}

/-! ## Rearranged values are comparable -/

/-- The keys of rearranged entries match those of the entries, in some order. -/
theorem matches_keys (h : List.Forall₂ RearrangedEntry entries middle) :
    List.Forall₂ Key.Matches entries.keys middle.keys := by
  rw [Table.keys, Table.keys, List.forall₂_map_left_iff, List.forall₂_map_right_iff]
  refine h.imp ?_
  rintro _ _ ⟨hkey, -⟩
  exact hkey

theorem distinct_of_rearranged (hdistinct : Distinct entries)
    (h : List.Forall₂ RearrangedEntry entries middle) (horder : middle.Perm others) :
    Distinct others := by
  have hkeys := matches_keys h
  have hnotNaN : ∀ key ∈ middle.keys, key.isNaN = false := by
    intro key hkey
    obtain ⟨own, hown, hmatch⟩ := exists_left_of_forall₂ hkeys hkey
    rw [← hmatch.isNaN_eq]
    exact hdistinct.notNaN own hown
  have hboth := (List.forall₂_and_left _ _).2 ⟨hdistinct.notNaN, hkeys⟩
  have hdiffer : middle.keys.Pairwise fun a b => (a == b) = false := by
    refine pairwise_of_forall₂ hboth hdistinct.differ ?_
    rintro key other found last ⟨hkey, hmatch⟩ ⟨-, hlast⟩ hne
    rw [Bool.eq_false_iff] at hne ⊢
    intro hsame
    exact hne ((hmatch.trans ((Key.matches_of_beq hsame).trans hlast.symm)).beq hkey)
  have hperm : middle.keys.Perm others.keys := horder.map Prod.fst
  refine ⟨(hperm.pairwise_iff ?_).1 hdiffer, fun key hkey => hnotNaN key (hperm.mem_iff.2 hkey)⟩
  intro key other hne
  rwa [BEq.comm]

theorem Rearranged.comparable (h : a.Rearranged b) (ha : a.Comparable) : b.Comparable := by
  induction a using Value.induction generalizing b with
  | nil => cases h; exact ha
  | boolean b => cases h; exact ha
  | number x =>
    cases h with
    | number h => exact comparable_number_iff.2 (h.isNaN_eq ▸ comparable_number_iff.1 ha)
  | text text => cases h; exact ha
  | sequence items ih =>
    cases h with
    | sequence h =>
      refine comparable_sequence_iff.2 fun other hother => ?_
      obtain ⟨item, hitem, hrearranged⟩ := exists_left_of_forall₂ h hother
      exact ih item hitem hrearranged (comparable_sequence_iff.1 ha item hitem)
  | map entries ih =>
    cases h with
    | map h horder =>
      obtain ⟨hdistinct, hvalues⟩ := comparable_map_iff.1 ha
      refine comparable_map_iff.2 ⟨distinct_of_rearranged hdistinct h horder, ?_⟩
      intro other hother
      obtain ⟨entry, hentry, hrearranged⟩ := exists_left_of_forall₂ h (horder.mem_iff.2 hother)
      cases hrearranged with
      | mk _ hvalue => exact ih _ hentry hvalue (hvalues _ hentry)

/-! ## Equality -/

theorem equalItems_iff {items last : List Value} :
    equalItems items last = true ↔ List.Forall₂ (fun a b => (a == b) = true) items last := by
  induction items generalizing last with
  | nil => cases last <;> simp [equalItems]
  | cons item items ih =>
    cases last with
    | nil => simp [equalItems]
    | cons other last =>
      rw [equalItems, Bool.and_eq_true, ih, List.forall₂_cons]
      rfl

theorem eachIn_iff : eachIn entries others = true ↔
    ∀ entry ∈ entries, ∃ found, others.get? entry.1 = some found ∧
      (entry.2 == found) = true := by
  induction entries with
  | nil => simp [eachIn]
  | cons entry entries ih =>
    obtain ⟨key, value⟩ := entry
    rw [eachIn, Bool.and_eq_true, ih, List.forall_mem_cons]
    refine and_congr_left fun _ => ?_
    cases others.get? key with
    | none => simp
    | some found => simp [BEq.beq]

theorem map_beq_map_iff : (Value.map entries == Value.map others) = true ↔
    entries.length = others.length ∧
      ∀ entry ∈ entries, ∃ found, others.get? entry.1 = some found ∧
        (entry.2 == found) = true := by
  show equal (.map entries) (.map others) = true ↔ _
  rw [equal, Bool.and_eq_true, eachIn_iff, beq_iff_eq]

/-- The entries of rearranged maps are found under each other's keys. -/
theorem get?_of_rearranged {entry : Key × Value} (hdistinct : Distinct entries)
    (hothers : Distinct others) (h : List.Forall₂ RearrangedEntry entries middle)
    (horder : middle.Perm others) (hentry : entry ∈ entries) :
    ∃ found ∈ others, others.get? entry.1 = some found.2 ∧ entry.2.Rearranged found.2 := by
  obtain ⟨found, hfound, hrearranged⟩ := exists_right_of_forall₂ h hentry
  have hmem := horder.mem_iff.1 hfound
  cases hrearranged with
  | mk hkey hvalue =>
    have hsame := hkey.beq (hdistinct.notNaN _ (List.mem_map_of_mem hentry))
    exact ⟨_, hmem, (Table.get?_congr hsame).trans (hothers.get?_eq hmem), hvalue⟩

/-- **Comparable values are equal just when they are rearranged.** -/
theorem equal_iff_rearranged (ha : a.Comparable) (hb : b.Comparable) :
    (a == b) = true ↔ a.Rearranged b := by
  induction a using Value.induction generalizing b with
  | nil =>
    refine ⟨fun h => ?_, fun h => by cases h; rfl⟩
    cases b <;> first | exact .nil | cases h
  | boolean p =>
    refine ⟨fun h => ?_, fun h => by cases h; exact beq_self_eq_true p⟩
    cases b with
    | boolean q =>
      obtain rfl : p = q := eq_of_beq (α := Bool) h
      exact .boolean p
    | _ => cases h
  | text s =>
    refine ⟨fun h => ?_, fun h => by cases h; exact beq_self_eq_true s⟩
    cases b with
    | text t =>
      obtain rfl : s = t := eq_of_beq (α := String) h
      exact .text s
    | _ => cases h
  | number x =>
    refine ⟨fun h => ?_, fun h => ?_⟩
    · cases b with
      | number y =>
        have hsame : (Key.number x == Key.number y) = true := h
        exact .number (Key.matches_of_beq hsame)
      | _ => cases h
    · cases h with
      | @number _ y h =>
        have hmatch : (Key.number x).Matches (.number y) := h
        exact hmatch.beq (comparable_number_iff.1 ha)
  | sequence items ih =>
    have hitems := comparable_sequence_iff.1 ha
    have hall {last : List Value} (hlast : ∀ other ∈ last, other.Comparable) :
        equalItems items last = true ↔ List.Forall₂ Value.Rearranged items last := by
      rw [equalItems_iff]
      exact forall₂_congr_mem fun item hitem other hother =>
        ih item hitem (hitems item hitem) (hlast other hother)
    refine ⟨fun h => ?_, fun h => ?_⟩
    · cases b with
      | sequence others => exact .sequence ((hall (comparable_sequence_iff.1 hb)).1 h)
      | _ => cases h
    · cases h with
      | sequence h => exact (hall (comparable_sequence_iff.1 hb)).2 h
  | map entries ih =>
    obtain ⟨hdistinct, hvalues⟩ := comparable_map_iff.1 ha
    refine ⟨fun h => ?_, fun h => ?_⟩
    · cases b with
      | map others =>
        obtain ⟨-, hfound⟩ := comparable_map_iff.1 hb
        obtain ⟨hlength, hentries⟩ := map_beq_map_iff.1 h
        -- the other map is as long, so it has no entries but those that are found in it
        obtain ⟨middle, hmiddle, horder⟩ := Table.exists_perm_of_get? (R := Value.Rearranged)
          hdistinct.differ hlength fun entry hentry => by
            obtain ⟨found, hget, hequal⟩ := hentries entry hentry
            obtain ⟨before, own, after, rfl, -⟩ := Table.exists_of_get? hget
            have hcomparable := hfound (own, found) (by simp)
            exact ⟨found, hget, (ih entry hentry (hvalues entry hentry) hcomparable).1 hequal⟩
        refine .map (hmiddle.imp ?_) horder
        rintro entry found ⟨hkey, hvalue⟩
        exact .mk (Key.matches_of_beq hkey) hvalue
      | _ => cases h
    · cases h with
      | map h horder =>
        obtain ⟨hothers, hfound⟩ := comparable_map_iff.1 hb
        refine map_beq_map_iff.2 ⟨h.length_eq.trans horder.length_eq, fun entry hentry => ?_⟩
        obtain ⟨found, hmem, hget, hvalue⟩ := get?_of_rearranged hdistinct hothers h horder hentry
        exact ⟨found.2, hget, (ih entry hentry (hvalues entry hentry) (hfound found hmem)).2 hvalue⟩

/-! ## What equal values become -/

/-- What numbers become is the same if they are. -/
theorem numberToJson_eq {x y : Float} (h : SameNumber x y) : numberToJson x = numberToJson y := by
  refine h.congr numberToJson ?_
  have hzero : wholeNumber? 0 = some 0 := by decide +kernel
  have hminus : wholeNumber? (-0) = some 0 := by decide +kernel
  rw [numberToJson, numberToJson, hzero, hminus]

/-- What entries become has the keys of the entries. -/
theorem entryBecomes_of_rearranged {entry other : Key × Value} {member : String × Json}
    (hvalue : ∀ {b : Value} {json : Json}, entry.2.Rearranged b → entry.2.Becomes json →
      ∃ last, b.Becomes last ∧ json.Reordered last)
    (h : RearrangedEntry entry other) (hentry : EntryBecomes entry member) :
    ∃ last, EntryBecomes other last ∧ Json.ReorderedMember member last := by
  obtain ⟨text, json⟩ := member
  obtain ⟨htext, hjson⟩ := hentry
  cases h with
  | mk hkey h =>
    obtain ⟨last, hlast, hsame⟩ := hvalue h hjson
    exact ⟨(text, last), ⟨hkey.toText_eq.symm.trans htext, hlast⟩, .mk text hsame⟩

theorem keys_eq_of_reordered {members found : List (String × Json)}
    (h : List.Forall₂ Json.ReorderedMember members found) :
    Table.keys members = Table.keys found := by
  refine map_eq_map_iff_forall₂.2 (h.imp ?_)
  rintro _ _ ⟨⟩
  rfl

/-- **What rearranged values become differs in the order of members only.** -/
theorem Rearranged.becomes {json : Json} (h : a.Rearranged b) (ha : a.Becomes json) :
    ∃ other, b.Becomes other ∧ json.Reordered other := by
  induction a using Value.induction generalizing b json with
  | nil =>
    cases h
    cases becomes_iff.1 ha
    exact ⟨_, ha, .null⟩
  | boolean p =>
    cases h
    cases becomes_iff.1 ha
    exact ⟨_, ha, .bool p⟩
  | text s =>
    cases h
    cases becomes_iff.1 ha
    exact ⟨_, ha, .string s⟩
  | number x =>
    cases h with
    | @number _ y h =>
      have hb : (Value.number y).Becomes json := by
        rw [Becomes, toJson, ← numberToJson_eq h]
        exact ha
      cases becomes_iff.1 ha with
      | notFinite => exact ⟨_, hb, .null⟩
      | whole => exact ⟨_, hb, .int _⟩
      | float => exact ⟨_, hb, .float x⟩
  | sequence items ih =>
    cases h with
    | sequence h =>
      cases becomes_iff.1 ha with
      | sequence hitems =>
        have hback := ((List.forall₂_and_left _ _).2 ⟨ih, h⟩).flip
        obtain ⟨jsons, hjsons, hsame⟩ := exists_forall₂_of_both (forall₂_trans hback hitems
          fun _ _ _ _ hboth hjson => hboth.1 hboth.2 hjson)
        exact ⟨_, becomes_iff.2 (.sequence hjsons), .array hsame⟩
  | map entries ih =>
    cases h with
    | map h horder =>
      cases becomes_iff.1 ha with
      | @map _ members hentries hkeys =>
        have hback := ((List.forall₂_and_left _ _).2 ⟨ih, h⟩).flip
        obtain ⟨found, hfound, hsame⟩ := exists_forall₂_of_both (forall₂_trans hback hentries
          fun _ _ _ _ hboth hentry => entryBecomes_of_rearranged hboth.1 hboth.2 hentry)
        obtain ⟨last, hlast, hperm⟩ := List.perm_comp_forall₂ horder.symm hfound
        have hnodup : (Table.keys last).Nodup := by
          rw [Table.keys, (hperm.map Prod.fst).nodup_iff, ← Table.keys,
            ← keys_eq_of_reordered hsame]
          exact hkeys
        exact ⟨_, becomes_iff.2 (.map hlast hnodup), .object hsame hperm.symm⟩

/-- Both values become JSON, and it is equal but for the order of members, or neither does. -/
def AgreeAsJson (a b : Value) : Prop :=
  (∃ json other, a.toJson = .ok json ∧ b.toJson = .ok other ∧ json.Reordered other) ∨
    ∃ collision found, a.toJson = .error collision ∧ b.toJson = .error found

theorem Rearranged.agreeAsJson (h : a.Rearranged b) : a.AgreeAsJson b := by
  cases ha : a.toJson with
  | ok json =>
    obtain ⟨other, hother, hsame⟩ := h.becomes ha
    exact .inl ⟨json, other, ha, hother, hsame⟩
  | error collision =>
    cases hb : b.toJson with
    | ok json =>
      -- what the second value becomes, the first one does too
      obtain ⟨other, hother, -⟩ := h.symm.becomes hb
      rw [Becomes, ha] at hother
      cases hother
    | error found => exact .inr ⟨collision, found, ha, hb⟩

end Value

/-- **Equality of values is an equivalence that what they become as JSON respects**, if no number in
them is a NaN and no map has a key twice.  In whatever order the entries of maps come and whichever
zeros stand in a value and in its keys, it is equal to the same values and becomes the same JSON but
for the order of members. -/
theorem equal_values {a b c : Value} (ha : a.Comparable) (hb : b.Comparable) (hc : c.Comparable) :
    (a == a) = true ∧ ((a == b) = true → (b == a) = true) ∧
    ((a == b) = true → (b == c) = true → (a == c) = true) ∧
    ((a == b) = true → a.AgreeAsJson b) ∧
    ∀ d, a.Rearranged d → d.Comparable ∧ (a == d) = true ∧ (d == b) = (a == b) ∧
      (b == d) = (b == a) ∧ a.AgreeAsJson d := by
  refine ⟨(Value.equal_iff_rearranged ha ha).2 (.refl a), fun h => ?_, fun h hnext => ?_,
    fun h => ((Value.equal_iff_rearranged ha hb).1 h).agreeAsJson, fun d h => ?_⟩
  · exact (Value.equal_iff_rearranged hb ha).2 ((Value.equal_iff_rearranged ha hb).1 h).symm
  · exact (Value.equal_iff_rearranged ha hc).2 (((Value.equal_iff_rearranged ha hb).1 h).trans
      ((Value.equal_iff_rearranged hb hc).1 hnext))
  · have hd := h.comparable ha
    refine ⟨hd, (Value.equal_iff_rearranged ha hd).2 h, ?_, ?_, h.agreeAsJson⟩
    · rw [Bool.eq_iff_iff, Value.equal_iff_rearranged hd hb, Value.equal_iff_rearranged ha hb]
      exact ⟨h.trans, h.symm.trans⟩
    · rw [Bool.eq_iff_iff, Value.equal_iff_rearranged hb hd, Value.equal_iff_rearranged hb ha]
      exact ⟨fun hother => hother.trans h.symm, fun hother => hother.trans h⟩

/-- A map under a zero and a text. -/
def zeroMap : Value := .map [(.number 0, .number (-0)), (.text "list", .sequence [.number 0])]

/-- The same map in another order, with the other zeros. -/
def otherZeroMap : Value :=
  .map [(.text "list", .sequence [.number (-0)]), (.number (-0), .number 0)]

/-- The maps are equal, and their JSON is too. -/
theorem equal_values_zeroMap : zeroMap.Comparable ∧ otherZeroMap.Comparable ∧
    (zeroMap == otherZeroMap) = true ∧ (otherZeroMap == zeroMap) = true ∧
    zeroMap.AgreeAsJson otherZeroMap := by
  have hcomparable : zeroMap.Comparable ∧ otherZeroMap.Comparable := by
    simp only [zeroMap, otherZeroMap, Value.comparable_map_iff, Value.comparable_sequence_iff,
      Value.comparable_number_iff, List.forall_mem_cons, List.not_mem_nil, false_implies,
      implies_true, and_true]
    exact ⟨⟨⟨by decide +kernel, by decide +kernel⟩, by decide +kernel⟩,
      ⟨by decide +kernel, by decide +kernel⟩, by decide +kernel⟩
  obtain ⟨hzero, hother⟩ := hcomparable
  have hequal : (zeroMap == otherZeroMap) = true := by decide +kernel
  obtain ⟨-, hsymm, -, hjson, -⟩ := equal_values hzero hother hzero
  exact ⟨hzero, hother, hequal, hsymm hequal, hjson hequal⟩

end Script
end ProductionRates
