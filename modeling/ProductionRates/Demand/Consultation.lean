import ProductionRates.Catalogue.Recipe

/-!
# Asking which recipe to use

Where several recipes make an item, a `Selector` is asked for one of them.  A step of the expansion
of a demand is `Consulted`: it comes to a value or an error, and it keeps the questions that were
asked on the way, in order.  Steps are put together with `do`; an error ends them.
-/

namespace ProductionRates

/-! ## Selectors and errors -/

/-- Chooses among recipes that make the item of a name, by position. -/
abbrev Selector := String → List Recipe → Nat

/-- The selector that takes the first recipe. -/
def Selector.first : Selector := fun _ _ => 0

/-- A question to a selector. -/
structure Inquiry where
  /-- The name of the item. -/
  item : String
  /-- The recipes that make it. -/
  candidates : List Recipe

/-- Why a demand cannot be expanded. -/
inductive DemandError where
  /-- No item has the name. -/
  | notFound (item : String)
  /-- No recipe makes the item. -/
  | noRecipe (item : String)
  /-- The item is needed to make itself; the path leads from the root of the demand to it. -/
  | cyclic (item : String) (path : List String)
  /-- A recipe that is listed as making the item does not. -/
  | missingOutput (item : String) (recipe : RecipeId)
  /-- The selector's choice is none of the recipes. -/
  | invalidSelection (item : String) (choice candidates : Nat)
  deriving DecidableEq, Repr

/-- The message of an error. -/
def DemandError.message : DemandError → String
  | .notFound item => s!"{item} is not a registered item"
  | .noRecipe item => s!"no recipe for {item}"
  | .cyclic item path => s!"recipe cycle through {item}: " ++ " -> ".intercalate path
  | .missingOutput item recipe =>
    s!"{recipe.text} was indexed as producing {item} but has no such output"
  | .invalidSelection item choice candidates =>
    s!"selector chose recipe {choice} of {candidates} for {item}"

/-! ## Consulted steps -/

/-- What a step comes to, and the questions asked on the way. -/
structure Consulted (α : Type) where
  /-- The questions in order. -/
  asked : List Inquiry
  /-- The value, or the error that ended the step. -/
  outcome : Except DemandError α

namespace Consulted

variable {α β : Type}

/-- The step that comes to a value without a question. -/
def value (a : α) : Consulted α := ⟨[], .ok a⟩

/-- The step that fails without a question. -/
def fail (error : DemandError) : Consulted α := ⟨[], .error error⟩

/-- The step that asks a selector and comes to its choice. -/
def ask (choose : Selector) (item : String) (candidates : List Recipe) : Consulted Nat :=
  ⟨[⟨item, candidates⟩], .ok (choose item candidates)⟩

/-- Goes on from a step with one that depends on its value, and may use that it is its value. -/
def bindWith (step : Consulted α) (next : (a : α) → step.outcome = .ok a → Consulted β) :
    Consulted β :=
  match outcome : step.outcome with
  | .error error => ⟨step.asked, .error error⟩
  | .ok a =>
    let after := next a outcome
    ⟨step.asked ++ after.asked, after.outcome⟩

/-- Goes on from a step with one that depends on its value. -/
def bind (step : Consulted α) (next : α → Consulted β) : Consulted β :=
  step.bindWith fun a _ => next a

instance : Monad Consulted where
  pure := value
  bind := bind

theorem bind_eq (step : Consulted α) (next : α → Consulted β) :
    step >>= next = match step.outcome with
      | .error error => ⟨step.asked, .error error⟩
      | .ok a => ⟨step.asked ++ (next a).asked, (next a).outcome⟩ := by
  show (step.bindWith fun a _ => next a) = _
  unfold bindWith
  split <;> simp_all

instance : LawfulMonad Consulted := by
  refine LawfulMonad.mk' Consulted ?_ ?_ ?_
  · intro α step
    show step >>= (fun a => pure (id a)) = step
    obtain ⟨asked, outcome⟩ := step
    rw [bind_eq]
    cases outcome with
    | error error => rfl
    | ok a =>
      show Consulted.mk (asked ++ []) (.ok a) = _
      rw [List.append_nil]
  · intro α β a next
    rw [bind_eq]
    rfl
  · intro α β γ step next last
    obtain ⟨asked, outcome⟩ := step
    simp only [bind_eq]
    cases outcome with
    | error error => rfl
    | ok a =>
      simp only
      cases (next a).outcome <;> simp

/-- What two steps come to together is what the second makes of the value of the first. -/
theorem outcome_bind (step : Consulted α) (next : α → Consulted β) :
    (step >>= next).outcome = step.outcome >>= fun a => (next a).outcome := by
  rw [bind_eq]
  cases step.outcome <;> rfl

/-- Steps in a row come to the list of their values, or to the first error among them. -/
theorem outcome_mapM (f : α → Consulted β) (as : List α) :
    (as.mapM f).outcome = as.mapM fun a => (f a).outcome := by
  induction as with
  | nil => rfl
  | cons a as ih =>
    rw [List.mapM_cons, List.mapM_cons, outcome_bind]
    congr 1
    funext b
    rw [outcome_bind, ih]
    rfl

/-- Two steps ask nothing together if neither does. -/
theorem asked_bind {step : Consulted α} {next : α → Consulted β} (h : step.asked = [])
    (hnext : ∀ a, step.outcome = .ok a → (next a).asked = []) : (step >>= next).asked = [] := by
  rw [bind_eq]
  cases houtcome : step.outcome with
  | error error => exact h
  | ok a =>
    simp only [h, List.nil_append]
    exact hnext a houtcome

/-- Steps in a row ask nothing if none of them does. -/
theorem asked_mapM {f : α → Consulted β} {as : List α} (h : ∀ a ∈ as, (f a).asked = []) :
    (as.mapM f).asked = [] := by
  induction as with
  | nil => rfl
  | cons a as ih =>
    rw [List.mapM_cons]
    refine asked_bind (h a (List.mem_cons_self ..)) fun b _ => ?_
    exact asked_bind (ih fun other hother => h other (List.mem_cons_of_mem _ hother)) fun _ _ => rfl

/-- Two steps together come to a value if both do. -/
theorem outcome_bind_eq_ok {step : Consulted α} {next : α → Consulted β} {b : β} :
    (step >>= next).outcome = .ok b ↔ ∃ a, step.outcome = .ok a ∧ (next a).outcome = .ok b := by
  rw [outcome_bind]
  cases step.outcome with
  | error error => simp [Bind.bind, Except.bind]
  | ok a => simp [Bind.bind, Except.bind]

end Consulted
end ProductionRates
