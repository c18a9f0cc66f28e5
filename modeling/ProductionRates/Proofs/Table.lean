import Mathlib.Data.List.Induction
import Mathlib.Data.List.Nodup
import ProductionRates.Table

/-!
# What is gathered in a table

A table is filled change by change, and each change alters the value under its key.  In the end its
keys are those of the changes, each where it first came, and the value under a key is what all the
changes of that key make of it, in their order.

* `Table.gather` — the table after changes in order;
* `Table.keys_gather`, `Table.get?_gather` — both sides of it;
* `Table.get?_setAll`, `Table.setAll_ofList` — settings: the last one of a key counts, and settings
  that are made into a table first come to the same;
* `Table.HoldsLast` — the table of settings, said key by key;
* `Table.exists_perm_of_get?` — two tables of which one is found in the other.

Keys are compared with `==`, of which only symmetry and transitivity are used: a key that differs
from itself is new each time, for the table as for `List.eraseDups`.
-/

namespace ProductionRates

/-! ## Lists without repetitions -/

section Repetitions

variable {κ : Type} [BEq κ]

theorem eraseDups_sublist (as : List κ) : as.eraseDups.Sublist as := by
  match as with
  | [] => rw [List.eraseDups_nil]
  | a :: as =>
    rw [List.eraseDups_cons]
    exact ((eraseDups_sublist _).trans List.filter_sublist).cons_cons a
termination_by as.length
decreasing_by exact Nat.lt_succ_of_le (List.length_filter_le ..)

/-- No two members that stay are the same. -/
theorem pairwise_eraseDups [PartialEquivBEq κ] (as : List κ) :
    as.eraseDups.Pairwise fun a b => (a == b) = false := by
  match as with
  | [] =>
    rw [List.eraseDups_nil]
    exact .nil
  | a :: as =>
    rw [List.eraseDups_cons]
    refine .cons ?_ (pairwise_eraseDups _)
    intro b hb
    have hkept := (List.mem_filter.1 ((eraseDups_sublist _).subset hb)).2
    rw [BEq.comm (a := a)]
    simpa using hkept
termination_by as.length
decreasing_by exact Nat.lt_succ_of_le (List.length_filter_le ..)

theorem eraseDups_of_pairwise [PartialEquivBEq κ] {as : List κ}
    (h : as.Pairwise fun a b => (a == b) = false) : as.eraseDups = as := by
  induction as with
  | nil => rw [List.eraseDups_nil]
  | cons a as ih =>
    obtain ⟨hfirst, hrest⟩ := List.pairwise_cons.1 h
    have hall : as.filter (fun b => !b == a) = as := by
      refine List.filter_eq_self.2 fun b hb => ?_
      rw [BEq.comm (a := b), hfirst b hb]
      rfl
    rw [List.eraseDups_cons, hall, ih hrest]

/-- What does not tell apart members that are the same can be sorted out before or after. -/
theorem eraseDups_filter {p : κ → Bool} (hp : ∀ a b, (a == b) = true → p a = p b) (as : List κ) :
    (as.filter p).eraseDups = as.eraseDups.filter p := by
  match as with
  | [] => rfl
  | a :: as =>
    have hlater := eraseDups_filter hp (as.filter fun b => !b == a)
    rw [List.filter_filter] at hlater
    rw [List.eraseDups_cons, List.filter_cons, List.filter_cons]
    by_cases ha : p a = true
    · rw [if_pos ha, if_pos ha, List.eraseDups_cons, List.filter_filter, ← hlater]
      simp only [Bool.and_comm]
    · rw [if_neg ha, if_neg ha, ← hlater]
      congr 1
      refine List.filter_congr fun b _ => ?_
      by_cases hb : (b == a) = true
      · simp [hp b a hb, ha]
      · simp [hb]
termination_by as.length
decreasing_by exact Nat.lt_succ_of_le (List.length_filter_le ..)

end Repetitions

namespace Table

variable {κ ν μ : Type} [BEq κ] {table : Table κ ν} {key : κ}

/-- The table after changes in order; `step` makes the new value of what a change brings and what
was there. -/
def gather (step : μ → Option ν → ν) (table : Table κ ν) (changes : List (κ × μ)) : Table κ ν :=
  changes.foldl (fun table (key, change) => table.alter key (step change)) table

theorem gather_append (step : μ → Option ν → ν) (table : Table κ ν) (changes more : List (κ × μ)) :
    table.gather step (changes ++ more) = (table.gather step changes).gather step more :=
  List.foldl_append ..

theorem setAll_eq_gather (table : Table κ ν) (settings : List (κ × ν)) :
    table.setAll settings = table.gather (fun value _ => value) settings := rfl

/-! ## Keys -/

/-- Altering a key that is there leaves the keys as they are; another comes last. -/
theorem keys_alter (table : Table κ ν) (key : κ) (f : Option ν → ν) :
    (table.alter key f).keys =
      if table.keys.any (· == key) then table.keys else table.keys ++ [key] := by
  induction table with
  | nil => rfl
  | cons entry rest ih =>
    obtain ⟨k, v⟩ := entry
    by_cases hk : (k == key) = true
    · simp [alter, keys, hk]
    · have hrest : keys (alter rest key f) = _ := ih
      rw [alter, if_neg hk]
      simp only [keys, List.map_cons, List.any_cons, hk, Bool.false_or] at hrest ⊢
      rw [hrest]
      by_cases hold : (rest.map Prod.fst).any (· == key) = true <;> simp [hold]

variable [PartialEquivBEq κ]

/-- **Keys come in the order in which they first came**, after those that were there. -/
theorem keys_gather (step : μ → Option ν → ν) (table : Table κ ν) (changes : List (κ × μ)) :
    (table.gather step changes).keys = table.keys ++
      ((changes.map Prod.fst).filter fun key => !table.keys.any (· == key)).eraseDups := by
  induction changes generalizing table with
  | nil => simp [gather]
  | cons change changes ih =>
    obtain ⟨key, brought⟩ := change
    have hfirst := table.keys_alter key (step brought)
    rw [gather, List.foldl_cons]
    refine (ih _).trans ?_
    rw [List.map_cons, List.filter_cons, hfirst]
    by_cases hold : table.keys.any (· == key) = true
    · simp [hold]
    · rw [if_neg hold, if_pos (by simpa using hold), List.eraseDups_cons, List.filter_filter,
        List.append_assoc]
      congr 2
      simp only [List.any_append, List.any_cons, List.any_nil, Bool.or_false, Bool.not_or]
      rw [List.singleton_append]
      congr 3
      funext other
      rw [Bool.and_comm, BEq.comm (a := key)]

theorem keys_gather_empty (step : μ → Option ν → ν) (changes : List (κ × μ)) :
    (empty.gather step changes).keys = (changes.map Prod.fst).eraseDups := by
  rw [keys_gather]
  show [] ++ ((changes.map Prod.fst).filter fun _ => true).eraseDups = _
  rw [List.filter_true, List.nil_append]

/-- If no two keys of a table are the same, none are after changes. -/
theorem pairwise_keys_gather (hkeys : table.keys.Pairwise fun a b => (a == b) = false)
    (step : μ → Option ν → ν) (changes : List (κ × μ)) :
    (table.gather step changes).keys.Pairwise fun a b => (a == b) = false := by
  rw [keys_gather, List.pairwise_append]
  refine ⟨hkeys, pairwise_eraseDups _, ?_⟩
  intro old hold new hnew
  have hfresh := (List.mem_filter.1 ((eraseDups_sublist _).subset hnew)).2
  rw [Bool.not_eq_true', List.any_eq_false] at hfresh
  simpa using hfresh old hold

/-! ## Values -/

theorem get?_congr {other : κ} (h : (key == other) = true) :
    table.get? key = table.get? other := by
  induction table with
  | nil => rfl
  | cons entry rest ih =>
    obtain ⟨k, v⟩ := entry
    rw [get?, get?, BEq.congr_right h, ih]

/-- **The value under a key is what the changes of the key make of it**, in their order. -/
theorem get?_gather (step : μ → Option ν → ν) (table : Table κ ν) (changes : List (κ × μ))
    (key : κ) :
    (table.gather step changes).get? key = (changes.filter (·.1 == key)).foldl
      (fun found change => some (step change.2 found)) (table.get? key) := by
  induction changes generalizing table with
  | nil => rfl
  | cons change changes ih =>
    obtain ⟨first, brought⟩ := change
    rw [gather, List.foldl_cons]
    refine (ih _).trans ?_
    rw [get?_alter, List.filter_cons]
    by_cases hfirst : (first == key) = true
    · rw [if_pos hfirst, if_pos hfirst, List.foldl_cons, get?_congr hfirst]
    · rw [if_neg hfirst, if_neg hfirst]

omit [PartialEquivBEq κ] in
/-- An entry of a table without a key twice is found under its key. -/
theorem get?_of_mem (hkeys : table.keys.Pairwise fun a b => (a == b) = false) {value : ν}
    (hself : (key == key) = true) (h : (key, value) ∈ table) : table.get? key = some value := by
  induction table with
  | nil => cases h
  | cons entry rest ih =>
    obtain ⟨k, v⟩ := entry
    obtain ⟨hfirst, hrest⟩ := List.pairwise_cons.1 hkeys
    rcases List.mem_cons.1 h with heq | hlater
    · cases heq
      rw [get?, hself, if_pos rfl]
    · rw [get?, hfirst key (List.mem_map.2 ⟨_, hlater, rfl⟩)]
      exact ih hrest hlater

/-! ## Settings -/

/-- The last setting of a key counts. -/
theorem get?_setAll (table : Table κ ν) (settings : List (κ × ν)) (key : κ) :
    (table.setAll settings).get? key =
      ((settings.filter (·.1 == key)).getLast?.map Prod.snd).or (table.get? key) := by
  rw [setAll_eq_gather, get?_gather]
  generalize settings.filter (·.1 == key) = mine
  induction mine using List.reverseRecOn with
  | nil => rfl
  | append_singleton mine last =>
    rw [List.foldl_append, List.getLast?_concat]
    rfl

theorem keys_ofList (settings : List (κ × ν)) :
    (ofList settings).keys = (settings.map Prod.fst).eraseDups := by
  rw [ofList, setAll_eq_gather, keys_gather_empty]

theorem get?_ofList (settings : List (κ × ν)) (key : κ) :
    (ofList settings).get? key = (settings.filter (·.1 == key)).getLast?.map Prod.snd := by
  rw [ofList, get?_setAll, get?_empty, Option.or_none]

theorem pairwise_keys_ofList (settings : List (κ × ν)) :
    (ofList settings).keys.Pairwise fun a b => (a == b) = false := by
  rw [keys_ofList]
  exact pairwise_eraseDups _

omit [PartialEquivBEq κ] in
theorem self_of_mem_eraseDups {settings : List (κ × ν)}
    (hself : ∀ setting ∈ settings, (setting.1 == setting.1) = true) {key : κ}
    (hkey : key ∈ (settings.map Prod.fst).eraseDups) : (key == key) = true := by
  obtain ⟨setting, hsetting, rfl⟩ := List.mem_map.1 ((eraseDups_sublist _).subset hkey)
  exact hself setting hsetting

/-- The value of an entry of a table was set under its key. -/
theorem exists_setting_of_mem_ofList {settings : List (κ × ν)}
    (hself : ∀ setting ∈ settings, (setting.1 == setting.1) = true) {entry : κ × ν}
    (h : entry ∈ ofList settings) : ∃ setting ∈ settings, setting.2 = entry.2 := by
  have hkey : entry.1 ∈ (ofList settings).keys := List.mem_map_of_mem h
  rw [keys_ofList] at hkey
  have hfound := get?_of_mem (pairwise_keys_ofList settings) (self_of_mem_eraseDups hself hkey) h
  rw [get?_ofList, Option.map_eq_some_iff] at hfound
  obtain ⟨setting, hlast, hvalue⟩ := hfound
  exact ⟨setting, (List.mem_filter.1 (List.mem_of_getLast? hlast)).1, hvalue⟩

omit [PartialEquivBEq κ] in
/-- A table without a key twice is told by its keys and the values under them. -/
theorem map_get?_keys (hkeys : table.keys.Pairwise fun a b => (a == b) = false)
    (hself : ∀ key ∈ table.keys, (key == key) = true) :
    table.keys.map (fun key => (key, table.get? key)) =
      table.map fun entry => (entry.1, some entry.2) := by
  rw [keys, List.map_map]
  refine List.map_congr_left fun entry hentry => ?_
  have hfound := get?_of_mem hkeys (hself entry.1 (List.mem_map.2 ⟨entry, hentry, rfl⟩)) hentry
  exact congrArg (Prod.mk entry.1) hfound

omit [PartialEquivBEq κ] in
/-- Tables with the same keys, none twice, and the same values under them are equal. -/
theorem ext_of_get? {other : Table κ ν} (hsame : other.keys = table.keys)
    (hkeys : table.keys.Pairwise fun a b => (a == b) = false)
    (hself : ∀ key ∈ table.keys, (key == key) = true)
    (h : ∀ key ∈ table.keys, other.get? key = table.get? key) : other = table := by
  have hentries : other.map (fun entry => (entry.1, some entry.2)) =
      table.map fun entry => (entry.1, some entry.2) := by
    rw [← map_get?_keys hkeys hself, ← map_get?_keys (hsame ▸ hkeys) (hsame ▸ hself), hsame]
    exact List.map_congr_left fun key hkey => congrArg (Prod.mk key) (h key hkey)
  refine List.map_injective_iff.2 ?_ hentries
  rintro ⟨key, value⟩ ⟨other, last⟩ heq
  cases heq
  rfl

/-- Whether a table holds the last value of each key of some settings, in the order in which the
keys first come. -/
structure HoldsLast (table : Table κ ν) (settings : List (κ × ν)) : Prop where
  /-- The keys are those of the settings, each where it first comes. -/
  keys : table.keys = (settings.map Prod.fst).eraseDups
  /-- Under each key is the value of the last setting of the key. -/
  last : ∀ key, table.get? key = (settings.filter (·.1 == key)).getLast?.map Prod.snd

/-- The table of settings holds the last of each key, and no other does. -/
theorem holdsLast_iff {settings : List (κ × ν)}
    (hself : ∀ setting ∈ settings, (setting.1 == setting.1) = true) :
    table.HoldsLast settings ↔ table = ofList settings := by
  constructor
  · rintro ⟨hkeys, hlast⟩
    refine ext_of_get? (hkeys.trans (keys_ofList settings).symm) (pairwise_keys_ofList settings)
      ?_ fun key _ => (hlast key).trans (get?_ofList settings key).symm
    intro key hkey
    rw [keys_ofList] at hkey
    exact self_of_mem_eraseDups hself hkey
  · rintro rfl
    exact ⟨keys_ofList settings, get?_ofList settings⟩

/-- **Settings may be made into a table first**: that leaves out what later settings of a key
replace, and keeps the order in which keys first come. -/
theorem setAll_ofList {settings : List (κ × ν)}
    (hkeys : table.keys.Pairwise fun a b => (a == b) = false)
    (hold : ∀ key ∈ table.keys, (key == key) = true)
    (hnew : ∀ setting ∈ settings, (setting.1 == setting.1) = true) :
    table.setAll (ofList settings) = table.setAll settings := by
  have hsame : (table.setAll (ofList settings)).keys = (table.setAll settings).keys := by
    have hnames : (ofList settings).map Prod.fst = (settings.map Prod.fst).eraseDups :=
      keys_ofList settings
    have htold (a b : κ) (hab : (a == b) = true) :
        (!table.keys.any (· == a)) = !table.keys.any (· == b) := by
      simp only [BEq.congr_right hab]
    rw [setAll_eq_gather, setAll_eq_gather, keys_gather, keys_gather, hnames,
      ← eraseDups_filter htold, eraseDups_of_pairwise (pairwise_eraseDups _)]
  have hdistinct : (table.setAll settings).keys.Pairwise fun a b => (a == b) = false := by
    rw [setAll_eq_gather]
    exact pairwise_keys_gather hkeys _ settings
  refine ext_of_get? hsame hdistinct ?_ ?_
  · intro key hkey
    rw [setAll_eq_gather, keys_gather] at hkey
    rcases List.mem_append.1 hkey with hkey | hkey
    · exact hold key hkey
    · obtain ⟨setting, hsetting, rfl⟩ :=
        List.mem_map.1 (List.mem_filter.1 ((eraseDups_sublist _).subset hkey)).1
      exact hnew setting hsetting
  · intro key _
    have htable : ofList (ofList settings) = ofList settings :=
      ofList_of_pairwise (List.pairwise_map.1 (pairwise_keys_ofList settings))
    rw [get?_setAll, get?_setAll, ← get?_ofList, ← get?_ofList, htable]

/-! ## Two tables -/

section Matching

variable {others : Table κ μ} {other : κ} {value : μ}

omit [PartialEquivBEq κ] in
/-- A value that is found stands in the first entry under the key. -/
theorem exists_of_get? (h : others.get? key = some value) :
    ∃ before own after, others = before ++ (own, value) :: after ∧ (own == key) = true := by
  induction others with
  | nil => cases h
  | cons entry rest ih =>
    obtain ⟨k, v⟩ := entry
    rw [get?] at h
    split at h
    · rename_i hsame
      cases h
      exact ⟨[], k, rest, rfl, hsame⟩
    · obtain ⟨before, own, after, rfl, hsame⟩ := ih h
      exact ⟨(k, v) :: before, own, after, rfl, hsame⟩

omit [PartialEquivBEq κ] in
/-- An entry under another key may be left out. -/
theorem get?_append_cons (before after : Table κ μ) (h : (other == key) = false) :
    get? (before ++ (other, value) :: after) key = get? (before ++ after) key := by
  induction before with
  | nil =>
    rw [List.nil_append, get?, h]
    rfl
  | cons entry before ih =>
    rw [List.cons_append, List.cons_append, get?, get?, ih]

/-- **If each entry of a table is found in another one that is as long, the other one has the same
entries in some order.** -/
theorem exists_perm_of_get? {R : ν → μ → Prop}
    (hkeys : table.keys.Pairwise fun a b => (a == b) = false)
    (hlength : table.length = others.length)
    (h : ∀ entry ∈ table, ∃ found, others.get? entry.1 = some found ∧ R entry.2 found) :
    ∃ middle : Table κ μ, List.Forall₂ (fun entry found =>
      (entry.1 == found.1) = true ∧ R entry.2 found.2) table middle ∧ middle.Perm others := by
  induction table generalizing others with
  | nil =>
    obtain rfl := List.length_eq_zero_iff.1 hlength.symm
    exact ⟨[], .nil, .nil⟩
  | cons entry rest ih =>
    obtain ⟨hfirst, hrest⟩ := List.pairwise_cons.1 hkeys
    obtain ⟨⟨found, hfound, hhead⟩, htail⟩ := List.forall_mem_cons.1 h
    obtain ⟨before, own, after, rfl, hown⟩ := exists_of_get? hfound
    have hothers : rest.length = (before ++ after).length := by
      rw [List.length_append, List.length_cons, List.length_cons] at hlength
      rw [List.length_append]
      omega
    -- the entry that was found is under no other key of the table
    have hleft : ∀ other ∈ rest, ∃ value, get? (before ++ after) other.1 = some value ∧
        R other.2 value := by
      intro other hother
      obtain ⟨value, hvalue, hR⟩ := htail other hother
      have hdiffer : (own == other.1) = false := by
        rw [BEq.congr_left hown]
        exact hfirst other.1 (List.mem_map_of_mem hother)
      rw [get?_append_cons before after hdiffer] at hvalue
      exact ⟨value, hvalue, hR⟩
    obtain ⟨middle, hmiddle, hperm⟩ := ih hrest hothers hleft
    exact ⟨(own, found) :: middle, .cons ⟨BEq.symm hown, hhead⟩ hmiddle,
      (hperm.cons _).trans List.perm_middle.symm⟩

end Matching

end Table
end ProductionRates
