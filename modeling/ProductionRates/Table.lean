/-!
# Tables that keep their order

A `Table` pairs keys with values and keeps the order in which its keys first came.  Setting a key
that is already there replaces its value and leaves it in its place.

* `Table.set`, `Table.get?`, `Table.alter` — writing and reading a key;
* `Table.ofList` — the table of a list of settings, carried out in order;
* `Table.keys`, `Table.values` — both sides in order;
* `Table.get?_alter`, `Table.ofList_of_pairwise` — what altering one key changes, and tables without
  a key twice.

Keys are compared with `==`, which need not be equality.
-/

namespace ProductionRates

/-- Pairs of keys and values in the order in which the keys first came. -/
abbrev Table (κ ν : Type) := List (κ × ν)

namespace Table

variable {κ ν : Type}

/-- The table without entries. -/
def empty : Table κ ν := []

/-- The keys in order. -/
def keys (table : Table κ ν) : List κ := table.map Prod.fst

/-- The values in order. -/
def values (table : Table κ ν) : List ν := table.map Prod.snd

variable [BEq κ]

/-- The value under a key, if there is one. -/
def get? (table : Table κ ν) (key : κ) : Option ν :=
  match table with
  | [] => none
  | (k, v) :: rest => if k == key then some v else get? rest key

/-- Replaces the value under a key by what `f` makes of it, or puts the key last with what `f`
makes of nothing. -/
def alter (table : Table κ ν) (key : κ) (f : Option ν → ν) : Table κ ν :=
  match table with
  | [] => [(key, f none)]
  | (k, v) :: rest => if k == key then (k, f (some v)) :: rest else (k, v) :: alter rest key f

/-- Sets the value under a key, in its place if it has one and last if it has none. -/
def set (table : Table κ ν) (key : κ) (value : ν) : Table κ ν := table.alter key fun _ => value

/-- Carries out settings in order. -/
def setAll (table : Table κ ν) (settings : List (κ × ν)) : Table κ ν :=
  settings.foldl (fun table (key, value) => table.set key value) table

/-- The table of a list of settings. -/
def ofList (settings : List (κ × ν)) : Table κ ν := setAll empty settings

@[simp] theorem get?_empty (key : κ) : (empty : Table κ ν).get? key = none := rfl

/-- Altering the value under a key is seen under the keys that are the same and under no other. -/
theorem get?_alter [PartialEquivBEq κ] (table : Table κ ν) (key other : κ) (f : Option ν → ν) :
    (table.alter key f).get? other =
      if key == other then some (f (table.get? key)) else table.get? other := by
  induction table with
  | nil => simp [alter, get?]
  | cons entry rest ih =>
    obtain ⟨k, v⟩ := entry
    by_cases hk : (k == key) = true
    · have hsame : (k == other) = (key == other) := BEq.congr_left hk
      by_cases hother : (key == other) = true <;> simp [alter, get?, hk, hsame, hother]
    · by_cases hother : (key == other) = true
      · have hnot : ¬ (k == other) = true := by
          rwa [← BEq.congr_right hother]
        simpa [alter, get?, hk, hnot, hother] using ih
      · have hrest : get? (alter rest key f) other = get? rest other := by rw [ih, if_neg hother]
        simp [alter, get?, hk, hother, hrest]

/-! ## New keys -/

/-- A new key is put last. -/
theorem set_of_new {table : Table κ ν} {key : κ} (h : ∀ entry ∈ table, (entry.1 == key) = false)
    (value : ν) : table.set key value = table ++ [(key, value)] := by
  induction table with
  | nil => rfl
  | cons entry rest ih =>
    obtain ⟨k, v⟩ := entry
    have hk : (k == key) = false := h (k, v) (List.mem_cons_self ..)
    have hrest := ih fun other hother => h other (List.mem_cons_of_mem _ hother)
    rw [set] at hrest ⊢
    rw [alter, hk, hrest]
    rfl

/-- Settings of new keys are put last, in order. -/
theorem setAll_of_new {table : Table κ ν} {settings : List (κ × ν)}
    (hnew : ∀ entry ∈ table, ∀ setting ∈ settings, (entry.1 == setting.1) = false)
    (hdistinct : settings.Pairwise fun a b => (a.1 == b.1) = false) :
    table.setAll settings = table ++ settings := by
  induction settings generalizing table with
  | nil => exact (List.append_nil table).symm
  | cons setting settings ih =>
    obtain ⟨key, value⟩ := setting
    obtain ⟨hfirst, hrest⟩ := List.pairwise_cons.1 hdistinct
    have hset := set_of_new (fun entry hentry => hnew entry hentry _ (List.mem_cons_self ..)) value
    have hnext : ∀ entry ∈ table ++ [(key, value)], ∀ other ∈ settings,
        (entry.1 == other.1) = false := by
      intro entry hentry other hother
      rcases List.mem_append.1 hentry with hentry | hentry
      · exact hnew entry hentry other (List.mem_cons_of_mem _ hother)
      · rw [List.mem_singleton.1 hentry]
        exact hfirst other hother
    calc table.setAll ((key, value) :: settings)
        = (table.set key value).setAll settings := rfl
      _ = table ++ [(key, value)] ++ settings := by rw [hset, ih hnext hrest]
      _ = table ++ (key, value) :: settings := List.append_assoc ..

/-- A table whose keys differ is the table of its entries. -/
theorem ofList_of_pairwise {entries : List (κ × ν)}
    (h : entries.Pairwise fun a b => (a.1 == b.1) = false) : ofList entries = entries :=
  setAll_of_new (fun _ hentry => nomatch hentry) h

end Table
end ProductionRates
