import ProductionRates.Proofs.Script.Keys
import ProductionRates.Proofs.Script.ValueJson

/-!
# The members that entries become

In JSON the keys of a map are texts, and a number and a text may have the same one.  That is the
only way in which a value fails to become JSON: numbers that are not the same have texts that
differ.  A value that becomes JSON is mirrored in it, table by table.

* `Key.toText_cases` — keys with the same text are the same, or a number and a text;
* `Collide` — two keys of a map have the same text;
* `Value.keySites` — the keys of all maps in a value, in the order in which they are looked at, and
  `KeySite.collision?` for what is wrong with one of them;
* `Value.errorOf?_toJson` — a value comes to its first collision;
* `Mirrors` — the JSON that stands for a value;
* `collision_or_mirrors` — a value without a collision becomes the JSON that stands for it.
-/

namespace ProductionRates
namespace Script

/-! ## Texts of keys -/

namespace Key

variable {key other : Key}

/-- The text of a number shows it. -/
theorem shows_toText {x : Float} (h : x.isNaN = false) :
    Decimal.Shows x (number x).toText.toList := by
  rw [toText]
  split
  · rename_i n hwhole
    exact Decimal.shows_whole hwhole
  · rw [Decimal.Layout.text, String.toList_ofList]
    exact Decimal.shows_message h

/-- **Numbers with the same text are the same.** -/
theorem number_beq_of_toText {x y : Float} (hx : x.isNaN = false) (hy : y.isNaN = false)
    (h : (number x).toText = (number y).toText) : (number x == number y) = true := by
  have hshown := shows_toText hy
  rw [← h] at hshown
  exact (number_beq_iff hx hy).2 ((shows_toText hx).same hshown)

/-- One of two keys is a number and the other a text. -/
def OfTwoKinds : Key → Key → Prop
  | .number _, .text _ | .text _, .number _ => True
  | _, _ => False

/-- Keys with the same text are the same, or they are of two kinds. -/
theorem toText_cases (hkey : key.isNaN = false) (hother : other.isNaN = false)
    (h : key.toText = other.toText) : (key == other) = true ∨ OfTwoKinds key other := by
  cases key with
  | number x => cases other with
    | number y => exact .inl (number_beq_of_toText hkey hother h)
    | text text => exact .inr trivial
  | text text => cases other with
    | number y => exact .inr trivial
    | text last => exact .inl (beq_iff_eq (α := String).2 h)

end Key

/-- Two keys of a map, the one before the other, have the same text. -/
def Collide (entries : Entries) (key other : Key) : Prop :=
  [key, other].Sublist entries.keys ∧ key.toText = other.toText

/-- Of keys that are told apart, only a number and a text collide. -/
theorem Distinct.ofTwoKinds {entries : Entries} {key other : Key} (h : Distinct entries)
    (hcollide : Collide entries key other) : key.OfTwoKinds other := by
  obtain ⟨hsub, htext⟩ := hcollide
  have hdiffer : (key == other) = false := by simpa using h.differ.sublist hsub
  have hkey := h.notNaN key (hsub.subset (by simp))
  have hother := h.notNaN other (hsub.subset (by simp))
  refine (Key.toText_cases hkey hother htext).resolve_left ?_
  rw [hdiffer]
  exact Bool.false_ne_true

/-! ## Where keys stand -/

/-- A key in a map of a value, and the keys before it in the map. -/
structure KeySite where
  /-- The keys before it. -/
  before : List Key
  /-- The key. -/
  key : Key

namespace KeySite

/-- What is wrong with a key whose text a key before it has. -/
def collision? (site : KeySite) : Option Value.KeyCollision :=
  if site.key.toText ∈ site.before.map Key.toText then some ⟨site.key.toText⟩ else none

/-- The key is that of one of some entries, which come after entries with given keys. -/
def StandsIn (before : List Key) (entries : Entries) (site : KeySite) : Prop :=
  ∃ mid value after, entries = mid ++ (site.key, value) :: after ∧
    site.before = before ++ Table.keys mid

theorem standsIn_nil {before : List Key} {site : KeySite} : ¬ site.StandsIn before [] := by
  rintro ⟨mid, value, after, h, -⟩
  simp at h

theorem standsIn_cons_iff {before : List Key} {entry : Key × Value} {entries : Entries}
    {site : KeySite} : site.StandsIn before (entry :: entries) ↔
      site = ⟨before, entry.1⟩ ∨ site.StandsIn (before ++ [entry.1]) entries := by
  obtain ⟨own, key⟩ := site
  constructor
  · rintro ⟨mid, value, after, hentries, hbefore⟩
    dsimp only at hentries hbefore
    cases mid with
    | nil =>
      cases hentries
      exact .inl (by rw [hbefore, Table.keys, List.map_nil, List.append_nil])
    | cons first mid =>
      cases hentries
      exact .inr ⟨mid, value, after, rfl, by simpa [Table.keys] using hbefore⟩
  · rintro (hfirst | ⟨mid, value, after, rfl, hbefore⟩)
    · cases hfirst
      exact ⟨[], entry.2, entries, rfl, (List.append_nil _).symm⟩
    · exact ⟨entry :: mid, value, after, rfl, by simpa [Table.keys] using hbefore⟩

/-- **Keys collide in a map just when something is wrong with one of them.** -/
theorem exists_collide_iff {entries : Entries} :
    (∃ key other, Collide entries key other) ↔
      ∃ site : KeySite, site.StandsIn [] entries ∧ site.collision?.isSome = true := by
  have hsome (site : KeySite) : site.collision?.isSome = true ↔
      ∃ key ∈ site.before, key.toText = site.key.toText := by
    rw [collision?]
    split
    · rename_i hmem
      simpa using hmem
    · rename_i hmem
      simpa using hmem
  constructor
  · rintro ⟨key, other, hsub, htext⟩
    obtain ⟨first, second, hkeys, hkey, hother⟩ := List.cons_sublist_iff.1 hsub
    obtain ⟨mid, last, hsecond⟩ := List.append_of_mem (List.singleton_sublist.1 hother)
    rw [hsecond, ← List.append_assoc, Table.keys] at hkeys
    obtain ⟨earlier, later, rfl, hearlier, hlater⟩ := List.map_eq_append_iff.1 hkeys
    obtain ⟨⟨own, value⟩, after, rfl, rfl, -⟩ := List.map_eq_cons_iff.1 hlater
    refine ⟨⟨Table.keys earlier, own⟩, ⟨earlier, value, after, rfl, rfl⟩, (hsome _).2 ?_⟩
    exact ⟨key, by rw [Table.keys, hearlier]; exact List.mem_append_left _ hkey, htext⟩
  · rintro ⟨site, ⟨mid, value, after, rfl, hbefore⟩, hcollision⟩
    obtain ⟨key, hkey, htext⟩ := (hsome site).1 hcollision
    refine ⟨key, site.key, ?_, htext⟩
    rw [hbefore, List.nil_append] at hkey
    rw [Table.keys, List.map_append, List.map_cons]
    exact List.cons_sublist_iff.2 ⟨_, _, rfl, hkey, by simp⟩

end KeySite

namespace Value

mutual

/-- The keys of all maps in a value, in order: first a key, then those in its value. -/
def keySites : Value → List KeySite
  | .sequence items => itemsKeySites items
  | .map entries => entriesKeySites [] entries
  | .nil | .boolean _ | .number _ | .text _ => []

/-- The keys in the items of a sequence, in order. -/
def itemsKeySites : List Value → List KeySite
  | [] => []
  | item :: items => keySites item ++ itemsKeySites items

/-- The keys of entries, and those in their values, after entries with the given keys. -/
def entriesKeySites (before : List Key) : List (Key × Value) → List KeySite
  | [] => []
  | (key, value) :: entries =>
    ⟨before, key⟩ :: (keySites value ++ entriesKeySites (before ++ [key]) entries)

end

variable {value : Value} {site : KeySite} {before : List Key} {items : List Value}
  {entries : Entries}

theorem mem_itemsKeySites_iff :
    site ∈ itemsKeySites items ↔ ∃ item ∈ items, site ∈ item.keySites := by
  induction items with
  | nil => simp [itemsKeySites]
  | cons item items ih => simp [itemsKeySites, ih]

theorem mem_entriesKeySites_iff : site ∈ entriesKeySites before entries ↔
    site.StandsIn before entries ∨ ∃ entry ∈ entries, site ∈ entry.2.keySites := by
  induction entries generalizing before with
  | nil => simp [entriesKeySites, KeySite.standsIn_nil]
  | cons entry entries ih =>
    have hvalues : (∃ other ∈ entry :: entries, site ∈ other.2.keySites) ↔
        site ∈ entry.2.keySites ∨ ∃ other ∈ entries, site ∈ other.2.keySites := by
      simp
    rw [entriesKeySites, List.mem_cons, List.mem_append, ih, KeySite.standsIn_cons_iff, hvalues]
    tauto

/-- The keys of a value are those of the maps in it. -/
theorem mem_keySites_iff : site ∈ value.keySites ↔
    ∃ entries : Entries, (Value.map entries).Within value ∧ site.StandsIn [] entries := by
  constructor
  · intro h
    induction value using Value.induction with
    | sequence items ih =>
      obtain ⟨item, hitem, hsite⟩ := mem_itemsKeySites_iff.1 h
      obtain ⟨entries, hentries, hstands⟩ := ih item hitem hsite
      exact ⟨entries, .item hitem hentries, hstands⟩
    | map entries ih =>
      rcases mem_entriesKeySites_iff.1 h with hstands | ⟨entry, hentry, hsite⟩
      · exact ⟨entries, .self _, hstands⟩
      · obtain ⟨others, hothers, hstands⟩ := ih entry hentry hsite
        exact ⟨others, .entry hentry hothers, hstands⟩
    | _ => cases h
  · rintro ⟨entries, hentries, hstands⟩
    generalize hmap : Value.map entries = inner at hentries
    induction hentries with
    | self =>
      rw [← hmap]
      exact mem_entriesKeySites_iff.2 (.inl hstands)
    | item hitem _ ih => exact mem_itemsKeySites_iff.2 ⟨_, hitem, ih⟩
    | entry hentry _ ih => exact mem_entriesKeySites_iff.2 (.inr ⟨_, hentry, ih⟩)

/-! ## The first collision -/

/-- The error of the first key with which something is wrong. -/
def firstCollision? (sites : List KeySite) : Option KeyCollision :=
  sites.findSome? KeySite.collision?

theorem firstCollision?_append (sites others : List KeySite) :
    firstCollision? (sites ++ others) = (firstCollision? sites).or (firstCollision? others) :=
  List.findSome?_append

mutual

/-- **A value comes to the error of its first collision**, and to JSON if there is none. -/
theorem errorOf?_toJson : ∀ value : Value,
    errorOf? value.toJson = firstCollision? value.keySites
  | .nil | .boolean _ | .number _ | .text _ => rfl
  | .sequence items => by rw [toJson, errorOf?_map, keySites, errorOf?_itemsToJson items]
  | .map entries => by
    have htexts (text : String) : text ∈ [] ↔ text ∈ ([] : List Key).map Key.toText := Iff.rfl
    rw [toJson, errorOf?_map, keySites, errorOf?_entriesToJson [] htexts entries]

theorem errorOf?_itemsToJson : ∀ items : List Value,
    errorOf? (itemsToJson items) = firstCollision? (itemsKeySites items)
  | [] => rfl
  | item :: items => by
    rw [itemsToJson, itemsKeySites, firstCollision?_append, ← errorOf?_toJson item,
      ← errorOf?_itemsToJson items]
    refine errorOf?_bind fun json _ => ?_
    cases itemsToJson items <;> rfl

/-- Of the keys before only the texts matter, in any order. -/
theorem errorOf?_entriesToJson (before : List Key) {texts : List String}
    (htexts : ∀ text, text ∈ texts ↔ text ∈ before.map Key.toText) :
    ∀ entries : List (Key × Value),
      errorOf? (entriesToJson texts entries) = firstCollision? (entriesKeySites before entries)
  | [] => rfl
  | (key, value) :: entries => by
    have hnext (text : String) :
        text ∈ key.toText :: texts ↔ text ∈ (before ++ [key]).map Key.toText := by
      rw [List.mem_cons, htexts, List.map_append, List.mem_append, List.map_singleton,
        List.mem_singleton, or_comm]
    have hfirst (sites : List KeySite) : firstCollision? (⟨before, key⟩ :: sites) =
        (KeySite.collision? ⟨before, key⟩).or (firstCollision? sites) := by
      rw [firstCollision?, List.findSome?_cons]
      cases KeySite.collision? ⟨before, key⟩ <;> rfl
    rw [entriesToJson, entriesKeySites, hfirst, firstCollision?_append, KeySite.collision?]
    by_cases hold : key.toText ∈ before.map Key.toText
    · rw [if_pos (List.contains_iff_mem.2 ((htexts _).2 hold)), if_pos hold]
      rfl
    · rw [if_neg fun h => hold ((htexts _).1 (List.contains_iff_mem.1 h)), if_neg hold,
        Option.none_or, ← errorOf?_toJson value,
        ← errorOf?_entriesToJson (before ++ [key]) hnext entries]
      refine errorOf?_bind fun json _ => ?_
      cases entriesToJson (key.toText :: texts) entries <;> rfl

end

/-- A value does not become JSON just when keys of a map in it collide. -/
theorem exists_error_iff (value : Value) : (∃ collision, value.toJson = .error collision) ↔
    ∃ entries : Entries, (Value.map entries).Within value ∧
      ∃ key other, Collide entries key other := by
  simp only [← errorOf?_eq_some_iff, errorOf?_toJson, KeySite.exists_collide_iff]
  rw [← Option.isSome_iff_exists, firstCollision?, List.findSome?_isSome_iff]
  constructor
  · rintro ⟨site, hsite, hcollision⟩
    obtain ⟨entries, hentries, hstands⟩ := mem_keySites_iff.1 hsite
    exact ⟨entries, hentries, site, hstands, hcollision⟩
  · rintro ⟨entries, hentries, site, hstands, hcollision⟩
    exact ⟨site, mem_keySites_iff.2 ⟨entries, hentries, hstands⟩, hcollision⟩

end Value

/-! ## What stands for a value -/

/-- The JSON that stands for a value.  A number stands for itself, as an integer if it is one of at
most 53 bits; sequences and maps have as many members in the same order. -/
inductive Mirrors : Value → Json → Prop where
  /-- The absent value. -/
  | nil : Mirrors .nil .null
  /-- A truth value. -/
  | boolean (b : Bool) : Mirrors (.boolean b) (.bool b)
  /-- A text. -/
  | text (text : String) : Mirrors (.text text) (.string text)
  /-- A whole number that is not too large; both zeros are zero. -/
  | whole {x : Float} {n : ℤ} (hfinite : Decimal.isFinite x = true)
      (hvalue : (Decimal.Exact.ofFloat x).toRat = n) (hsmall : n.natAbs ≤ 2 ^ 53 - 1) :
      Mirrors (.number x) (.int n)
  /-- Another finite number. -/
  | float {x : Float} (hfinite : Decimal.isFinite x = true)
      (hother : ¬ ∃ n : ℤ, (Decimal.Exact.ofFloat x).toRat = n ∧ n.natAbs ≤ 2 ^ 53 - 1) :
      Mirrors (.number x) (.float x)
  /-- A number that is not finite. -/
  | notFinite {x : Float} (hfinite : Decimal.isFinite x = false) : Mirrors (.number x) .null
  /-- A sequence, item by item. -/
  | sequence {items : List Value} {jsons : List Json} (hitems : List.Forall₂ Mirrors items jsons) :
      Mirrors (.sequence items) (.array jsons)
  /-- A map, entry by entry. -/
  | map {entries : Entries} {members : List (String × Json)}
      (hkeys : entries.keys.map Key.toText = Table.keys members)
      (hvalues : List.Forall₂ Mirrors entries.values (Table.values members)) :
      Mirrors (.map entries) (.object members)

/-- What a value becomes stands for it. -/
theorem mirrors_of_becomes {value : Value} {json : Json} (h : value.Becomes json) :
    Mirrors value json := by
  induction value using Value.induction generalizing json with
  | nil =>
    cases Value.becomes_iff.1 h
    exact .nil
  | boolean b =>
    cases Value.becomes_iff.1 h
    exact .boolean b
  | text text =>
    cases Value.becomes_iff.1 h
    exact .text text
  | number x =>
    cases Value.becomes_iff.1 h with
    | notFinite hfinite => exact .notFinite hfinite
    | whole hwhole =>
      obtain ⟨hfinite, hvalue, hsmall⟩ := Decimal.wholeNumber?_eq_some_iff.1 hwhole
      exact .whole hfinite hvalue hsmall
    | float hwhole hfinite =>
      refine .float hfinite ?_
      rintro ⟨n, hvalue, hsmall⟩
      have hsome := Decimal.wholeNumber?_eq_some_iff.2 ⟨hfinite, hvalue, hsmall⟩
      rw [hwhole] at hsome
      cases hsome
  | sequence items ih =>
    cases Value.becomes_iff.1 h with
    | sequence hitems =>
      exact .sequence (forall₂_imp_mem hitems fun item hitem json => ih item hitem)
  | map entries ih =>
    cases Value.becomes_iff.1 h with
    | @map _ members hentries hkeys =>
      refine .map ?_ ?_
      · rw [Table.keys, List.map_map]
        exact map_eq_map_iff_forall₂.2 (hentries.imp fun entry member hentry => hentry.1)
      · rw [Table.values, Table.values, List.forall₂_map_left_iff, List.forall₂_map_right_iff]
        exact forall₂_imp_mem hentries fun entry hentry member hbecomes =>
          ih entry hentry hbecomes.2

/-- **A value becomes the JSON that stands for it, unless keys of a map in it collide.**  The keys
of each map being told apart, only a number and a text collide, as numbers that are not the same
have texts that differ.  The error is that of the first key, in the order of the entries and what is
in them, whose text a key before it in its map has; it is found before the value under the key is
looked at. -/
theorem collision_or_mirrors {value : Value} (h : value.EveryMap Distinct) :
    ((∃ collision, value.toJson = .error collision) ↔
      ∃ entries : Entries, (Value.map entries).Within value ∧
        ∃ key other, Collide entries key other) ∧
    (∀ entries : Entries, (Value.map entries).Within value →
      ∀ key other, Collide entries key other → key.OfTwoKinds other) ∧
    (∀ x y : Float, x.isNaN = false → y.isNaN = false →
      (Key.number x == Key.number y) = false → (Key.number x).toText ≠ (Key.number y).toText) ∧
    (∀ collision, value.toJson = .error collision ↔
      value.keySites.findSome? KeySite.collision? = some collision) ∧
    ∀ json, value.toJson = .ok json → Mirrors value json := by
  refine ⟨value.exists_error_iff, fun entries hentries key other hcollide =>
    (h entries hentries).ofTwoKinds hcollide, fun x y hx hy hdiffer htext => ?_,
    fun collision => ?_, fun json hjson => mirrors_of_becomes hjson⟩
  · rw [Key.number_beq_of_toText hx hy htext] at hdiffer
    cases hdiffer
  · rw [← errorOf?_eq_some_iff, Value.errorOf?_toJson]
    rfl

/-- Two maps with a collision each, the second in the value under the key that collides in the
first. -/
def collidingValue : Value :=
  .map [(.number 1, .nil),
    (.text "1", .map [(.text "2", .nil), (.number 2, .boolean true)])]

/-- The outer collision is found before what is under its key is looked at. -/
theorem collision_or_mirrors_collidingValue :
    collidingValue.EveryMap Distinct ∧ collidingValue.toJson = .error ⟨"1"⟩ ∧
      (Key.number 1).OfTwoKinds (.text "1") := by
  have hdistinct : collidingValue.EveryMap Distinct := by
    simp only [collidingValue, Value.everyMap_map_iff, List.forall_mem_cons, List.not_mem_nil,
      false_implies, implies_true, and_true, Value.everyMap_nil, Value.everyMap_boolean, true_and]
    exact ⟨⟨by decide +kernel, by decide +kernel⟩, ⟨by decide +kernel, by decide +kernel⟩⟩
  obtain ⟨-, hkinds, -, hfirst, -⟩ := collision_or_mirrors hdistinct
  refine ⟨hdistinct, (hfirst ⟨"1"⟩).2 (by decide +kernel), hkinds _ (.self _) _ _ ⟨?_, ?_⟩⟩
  · exact .refl _
  · decide +kernel

end Script
end ProductionRates
