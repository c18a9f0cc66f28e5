import ProductionRates.Proofs.Script.Tables

/-!
# What a script assigns

A script is a row of assignments, and each pairs its targets with its values by position.  The value
of the script is the map of all pairs: each name where it is first a target, with what it is last
paired with.

* `Statement.pairs`, `Chunk.pairs` — the targets of a script, each with the expression at its
  position;
* `Assigns` — the key and the value that a pair stands for;
* `Chunk.assignments` — all assignments of a script in order, with `Chunk.run_eq`: carrying out a
  script sets them all;
* `Chunk.evaluate_append` — two scripts one after the other.
-/

namespace ProductionRates
namespace Script

variable {source : String} {targets : List Expression} {pair : Expression × Option Expression}
  {setting : Key × Value}

/-! ## Pairs -/

/-- The targets of an assignment, each with the expression at the same position among the values.
Targets past the last value have none, and values past the last target are left out. -/
def Statement.pairs : Statement → List (Expression × Option Expression)
  | .assignment _ targets values => targets.mapIdx fun index target => (target, values[index]?)
  | _ => []

/-- The pairs of all statements in order. -/
def Chunk.pairs (chunk : Chunk) : List (Expression × Option Expression) :=
  chunk.flatMap Statement.pairs

/-- The key and the value that a pair stands for: the name of the target, with the value of its
expression, or the absent value if it has none. -/
inductive Assigns (source : String) : Expression × Option Expression → Key × Value → Prop where
  /-- A name with an expression. -/
  | value (location : Option Location) (name : String) {e : Expression} {value : Value}
      (h : e.evaluate source = .ok value) :
      Assigns source (.identifier location name, some e) (.text name, value)
  /-- A name without one. -/
  | absent (location : Option Location) (name : String) :
      Assigns source (.identifier location name, none) (.text name, .nil)

/-- The key that a pair stands for is the same as itself. -/
theorem Assigns.self (h : Assigns source pair setting) : (setting.1 == setting.1) = true := by
  cases h with
  | value location name h => exact beq_self_eq_true name
  | absent location name => exact beq_self_eq_true name

/-- Names and values are paired as the targets and expressions that they come from. -/
theorem forall₂_assigns {location : Option Location} {names : List String}
    {es : List Expression} {values : List Value}
    (hnames : List.Forall₂ (fun target name => target.targetName source location = .ok name)
      targets names)
    (hvalues : List.Forall₂ (fun e value => e.evaluate source = .ok value) es values) :
    List.Forall₂ (Assigns source) (targets.mapIdx fun index target => (target, es[index]?))
      (pairNames names values) := by
  induction hnames generalizing es values with
  | nil => exact .nil
  | @cons target name targets names htarget _ ih =>
    obtain ⟨place, rfl⟩ : ∃ place, target = .identifier place name := by
      cases target <;> cases htarget
      exact ⟨_, rfl⟩
    rw [List.mapIdx_cons]
    cases hvalues with
    | nil => exact .cons (.absent place name) (ih .nil)
    | cons he hes => exact .cons (.value place name he) (ih hes)

theorem Statement.forall₂_assigns {statement : Statement} {settings : List (Key × Value)}
    (h : statement.assignments source = .ok settings) :
    List.Forall₂ (Assigns source) statement.pairs settings := by
  cases statement with
  | assignment location targets values =>
    rw [Statement.assignments] at h
    obtain ⟨names, hnames, h⟩ := exists_of_bind_eq_ok h
    obtain ⟨results, hresults, h⟩ := exists_of_bind_eq_ok h
    cases h
    exact Script.forall₂_assigns (map_eq_map_ok_iff.1 (mapM_eq_ok_iff.1 hnames))
      (map_eq_map_ok_iff.1 (mapM_eq_ok_iff.1 hresults))
  | _ => cases h

/-! ## Scripts -/

namespace Chunk

/-- The assignments of all statements, in order. -/
def assignments (source : String) (chunk : Chunk) :
    Except EvaluationError (List (Key × Value)) :=
  List.flatten <$> chunk.mapM (·.assignments source)

theorem assignments_cons (statement : Statement) (chunk : Chunk) :
    assignments source (statement :: chunk) = do
      let first ← statement.assignments source
      let rest ← assignments source chunk
      return first ++ rest := by
  rw [assignments, assignments, List.mapM_cons]
  cases statement.assignments source with
  | error error => rfl
  | ok first => cases chunk.mapM (·.assignments source) <;> rfl

theorem assignments_append (chunk later : Chunk) :
    assignments source (chunk ++ later) = do
      let first ← assignments source chunk
      let second ← assignments source later
      return first ++ second := by
  rw [assignments, assignments, assignments, List.mapM_append]
  cases chunk.mapM (·.assignments source) with
  | error error => rfl
  | ok first =>
    cases later.mapM (·.assignments source) with
    | error error => rfl
    | ok second => exact congrArg Except.ok List.flatten_append

/-- **Carrying out a script sets all that it assigns**, in order. -/
theorem run_eq (globals : Entries) (chunk : Chunk) :
    Chunk.run source globals chunk = globals.setAll <$> assignments source chunk := by
  induction chunk generalizing globals with
  | nil => rfl
  | cons statement chunk ih =>
    rw [Chunk.run, assignments_cons]
    cases statement.assignments source with
    | error error => rfl
    | ok first =>
      show Chunk.run source (globals.setAll first) chunk = _
      rw [ih]
      cases assignments source chunk with
      | error error => rfl
      | ok rest => exact congrArg Except.ok List.foldl_append.symm

theorem evaluate_eq (chunk : Chunk) : chunk.evaluate source =
    (fun settings => Value.map (Table.ofList settings)) <$> assignments source chunk := by
  rw [Chunk.evaluate, run_eq]
  cases assignments source chunk <;> rfl

theorem forall₂_assigns {chunk : Chunk} {settings : List (Key × Value)}
    (h : assignments source chunk = .ok settings) :
    List.Forall₂ (Assigns source) chunk.pairs settings := by
  induction chunk generalizing settings with
  | nil =>
    cases h
    exact .nil
  | cons statement chunk ih =>
    rw [assignments_cons] at h
    obtain ⟨first, hfirst, h⟩ := exists_of_bind_eq_ok h
    obtain ⟨rest, hrest, h⟩ := exists_of_bind_eq_ok h
    cases h
    exact List.rel_append (Statement.forall₂_assigns hfirst) (ih hrest)

theorem self_of_assignments {chunk : Chunk} {settings : List (Key × Value)}
    (h : assignments source chunk = .ok settings) :
    ∀ setting ∈ settings, (setting.1 == setting.1) = true := by
  intro setting hsetting
  obtain ⟨pair, -, hpair⟩ := exists_left_of_forall₂ (forall₂_assigns h) hsetting
  exact hpair.self

end Chunk

/-! ## Scripts in a row -/

/-- Puts the entries of a map, in order, into another; other values stay as they are. -/
def Value.insertAll : Value → Value → Value
  | .map entries, .map others => .map (Table.setAll entries others)
  | value, _ => value

/-- The second of two scripts sets what it assigns on top of the first. -/
theorem insertAll_ofList {first second : List (Key × Value)}
    (hfirst : ∀ setting ∈ first, (setting.1 == setting.1) = true)
    (hsecond : ∀ setting ∈ second, (setting.1 == setting.1) = true) :
    (Value.map (Table.ofList first)).insertAll (.map (Table.ofList second)) =
      .map (Table.ofList (first ++ second)) := by
  have hold : ∀ key ∈ (Table.ofList first).keys, (key == key) = true := by
    intro key hkey
    rw [Table.keys_ofList] at hkey
    exact Table.self_of_mem_eraseDups hfirst hkey
  rw [Value.insertAll, Table.setAll_ofList (Table.pairwise_keys_ofList first) hold hsecond]
  exact congrArg Value.map List.foldl_append.symm

/-- Two scripts in a row come to the map of the first with the entries of the second put into it, or
to the error of the first that has one. -/
theorem Chunk.evaluate_append (chunk later : Chunk) :
    Chunk.evaluate source (chunk ++ later) = do
      let first ← chunk.evaluate source
      let second ← later.evaluate source
      return first.insertAll second := by
  rw [evaluate_eq, evaluate_eq, evaluate_eq, assignments_append]
  cases hfirst : assignments source chunk with
  | error error => rfl
  | ok first =>
    cases hsecond : assignments source later with
    | error error => rfl
    | ok second =>
      exact congrArg Except.ok
        (insertAll_ofList (self_of_assignments hfirst) (self_of_assignments hsecond)).symm

/-- **The value of a script is the map of what it assigns.**  Its keys are the names that are
targets, each where it is first one, and the value of a name is what its last target is paired with:
the value at the same position of its statement, or the absent value if there are fewer values.  So
a script can be cut anywhere: its parts come to maps, and the entries of the later one go into the
earlier one. -/
theorem value_of_chunk (source : String) (chunk : Chunk) :
    (∀ value, chunk.evaluate source = .ok value → ∃ settings,
      List.Forall₂ (Assigns source) chunk.pairs settings ∧
        ∃ entries : Entries, value = .map entries ∧ entries.HoldsLast settings) ∧
    ∀ later : Chunk, Chunk.evaluate source (chunk ++ later) = do
      let first ← chunk.evaluate source
      let second ← later.evaluate source
      return first.insertAll second := by
  refine ⟨?_, chunk.evaluate_append⟩
  intro value h
  rw [Chunk.evaluate_eq] at h
  cases hsettings : Chunk.assignments source chunk with
  | error error =>
    rw [hsettings] at h
    cases h
  | ok settings =>
    rw [hsettings] at h
    cases h
    exact ⟨settings, Chunk.forall₂_assigns hsettings, _, rfl,
      (Table.holdsLast_iff (Chunk.self_of_assignments hsettings)).2 rfl⟩

end Script
end ProductionRates
