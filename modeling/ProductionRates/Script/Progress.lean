import ProductionRates.Script.Grammar

/-!
# Reading a script comes to an end

Each notion of the grammar reads at least one token or none, and between one token and the next
there are fewer than eight calls.  So a reader that is given eight units of fuel for each token,
and eight more, never meets its bound.  What it leaves is the end of the tokens that it was given.

* `Parser.LeavesFewer` — reading does not meet its bound, and unless it fails an end of the tokens
  is left that is shorter than a given number;
* `Parser.Progress.all` — what every notion of the grammar leaves, by induction on the fuel;
* `Parser.chunk_ne_exhausted` — reading a whole script with `enoughFuel` does not meet its bound.
-/

namespace ProductionRates
namespace Script

/-! ## What is left -/

namespace Parser

variable {α β : Type}

/-- Reading from these tokens does not meet its bound, and unless it fails an end of them is left
that has fewer than `n` tokens. -/
def LeavesFewer (p : Parser α) (tokens : List PlacedToken) (n : Nat) : Prop :=
  match p tokens with
  | .done _ rest => rest <:+ tokens ∧ rest.length < n
  | .failed _ => True
  | .exhausted => False

variable {tokens : List PlacedToken} {n : Nat}

theorem bind_run (p : Parser α) (f : α → Parser β) (tokens : List PlacedToken) :
    (p >>= f) tokens = match p tokens with
      | .done value rest => f value rest
      | .failed error => .failed error
      | .exhausted => .exhausted := rfl

/-- A reading that leaves fewer than a number of tokens leaves fewer than a larger one. -/
theorem LeavesFewer.mono {p : Parser α} {m : Nat} (h : LeavesFewer p tokens m) (hmn : m ≤ n) :
    LeavesFewer p tokens n := by
  unfold LeavesFewer at *
  split at h
  · exact ⟨h.1, Nat.lt_of_lt_of_le h.2 hmn⟩
  · trivial
  · exact h

/-- A reading that goes on from an end of the tokens leaves what it leaves of that end. -/
theorem LeavesFewer.after {p q : Parser α} {left : List PlacedToken}
    (h : LeavesFewer q left n) (hrun : p tokens = q left) (hleft : left <:+ tokens) :
    LeavesFewer p tokens n := by
  unfold LeavesFewer at *
  rw [hrun]
  split at h
  · exact ⟨h.1.trans hleft, h.2⟩
  · trivial
  · exact h

/-- Reading in two steps leaves what the second step leaves. -/
theorem leavesFewer_bind {p : Parser α} {f : α → Parser β} (m : Nat) (hp : LeavesFewer p tokens m)
    (hf : ∀ value rest, rest.length < m → LeavesFewer (f value) rest n) :
    LeavesFewer (p >>= f) tokens n := by
  cases h : p tokens with
  | done value rest =>
    have hleft : rest <:+ tokens ∧ rest.length < m := by simpa [LeavesFewer, h] using hp
    exact (hf value rest hleft.2).after (by rw [bind_run, h]) hleft.1
  | failed error =>
    unfold LeavesFewer
    rw [bind_run, h]
    trivial
  | exhausted => simp [LeavesFewer, h] at hp

theorem leavesFewer_pure {value : α} (h : tokens.length < n) :
    LeavesFewer (pure value) tokens n := ⟨List.suffix_rfl, h⟩

theorem leavesFewer_fail {error : ParseError} : LeavesFewer (fail error : Parser α) tokens n :=
  trivial

theorem leavesFewer_unexpected {expected : Expected} :
    LeavesFewer (unexpected expected : Parser α) tokens n := by
  cases tokens <;> trivial

/-- A reader that takes the first token or finds it unexpected leaves the other tokens. -/
theorem leavesFewer_one {p : Parser α}
    (h : (∃ next rest value, tokens = next :: rest ∧ p tokens = .done value rest) ∨
      ∃ expected, p tokens = (unexpected expected : Parser α) tokens) :
    LeavesFewer p tokens tokens.length := by
  rcases h with ⟨next, rest, value, rfl, run⟩ | ⟨expected, run⟩
  · unfold LeavesFewer
    rw [run]
    exact ⟨List.suffix_cons next rest, Nat.lt_succ_self _⟩
  · exact (@leavesFewer_unexpected α tokens _ expected).after run List.suffix_rfl

theorem leavesFewer_expectSymbol {mark : Symbol} :
    LeavesFewer (expectSymbol mark) tokens tokens.length := by
  apply leavesFewer_one
  unfold expectSymbol
  split
  · split
    · exact .inl ⟨_, _, _, rfl, rfl⟩
    · exact .inr ⟨_, rfl⟩
  · exact .inr ⟨_, rfl⟩

theorem leavesFewer_expectKeyword {word : Keyword} :
    LeavesFewer (expectKeyword word) tokens tokens.length := by
  apply leavesFewer_one
  unfold expectKeyword
  split
  · split
    · exact .inl ⟨_, _, _, rfl, rfl⟩
    · exact .inr ⟨_, rfl⟩
  · exact .inr ⟨_, rfl⟩

theorem leavesFewer_expectName : LeavesFewer expectName tokens tokens.length := by
  apply leavesFewer_one
  unfold expectName
  split
  · exact .inl ⟨_, _, _, rfl, rfl⟩
  · exact .inr ⟨_, rfl⟩

/-- After an optional symbol: either it was there and one token less is left, or nothing was
read. -/
theorem leavesFewer_eat {mark : Symbol} {f : Bool → Parser β}
    (yes : ∀ rest, rest.length < tokens.length → LeavesFewer (f true) rest n)
    (no : LeavesFewer (f false) tokens n) : LeavesFewer (eat mark >>= f) tokens n := by
  have h : (∃ next rest, tokens = next :: rest ∧ eat mark tokens = .done true rest) ∨
      eat mark tokens = .done false tokens := by
    unfold eat
    split
    · split
      · exact .inl ⟨_, _, rfl, rfl⟩
      · exact .inr rfl
    · exact .inr rfl
  rcases h with ⟨next, rest, rfl, run⟩ | run
  · exact (yes rest (Nat.lt_succ_self _)).after (by rw [bind_run, run]) (List.suffix_cons next rest)
  · exact no.after (by rw [bind_run, run]) List.suffix_rfl

/-- Looking at the next token reads nothing. -/
theorem leavesFewer_peek {f : Option PlacedToken → Parser β}
    (h : LeavesFewer (f tokens.head?) tokens n) : LeavesFewer (peek >>= f) tokens n := h

theorem leavesFewer_advance {f : Unit → Parser β} {next : PlacedToken} {rest : List PlacedToken}
    (h : LeavesFewer (f ()) rest n) : LeavesFewer (advance >>= f) (next :: rest) n :=
  h.after rfl (List.suffix_cons next rest)

/-- Looking whether a block ends reads nothing. -/
theorem leavesFewer_atBlockEnd {f : Bool → Parser β}
    (h : ∀ ends, LeavesFewer (f ends) tokens n) : LeavesFewer (atBlockEnd >>= f) tokens n := by
  have run : ∃ ends, atBlockEnd tokens = .done ends tokens := by
    unfold atBlockEnd
    split <;> exact ⟨_, rfl⟩
  obtain ⟨ends, run⟩ := run
  exact (h ends).after (by rw [bind_run, run]) List.suffix_rfl

/-- Looking whether a named field begins reads nothing. -/
theorem leavesFewer_atNamedField {f : Bool → Parser β}
    (yes : ∀ name location mark rest, tokens = ⟨.name name, location⟩ :: mark :: rest →
      LeavesFewer (f true) tokens n)
    (no : LeavesFewer (f false) tokens n) : LeavesFewer (atNamedField >>= f) tokens n := by
  have run : (∃ name location mark rest, tokens = ⟨.name name, location⟩ :: mark :: rest ∧
      atNamedField tokens = .done true tokens) ∨ atNamedField tokens = .done false tokens := by
    unfold atNamedField
    split
    · exact .inl ⟨_, _, _, _, rfl, rfl⟩
    · exact .inr rfl
  rcases run with ⟨name, location, mark, rest, here, run⟩ | run
  · exact (yes name location mark rest here).after (by rw [bind_run, run]) List.suffix_rfl
  · exact no.after (by rw [bind_run, run]) List.suffix_rfl

/-! ## What each notion leaves -/

/-- What the notions of the grammar leave when they are given a certain fuel.  A notion that begins
with another needs more fuel than it; all that is over goes to the next token. -/
structure Progress (fuel : Nat) : Prop where
  moreNames : ∀ tokens, 8 * tokens.length + 1 ≤ fuel →
    LeavesFewer (moreNames fuel) tokens (tokens.length + 1)
  block : ∀ tokens, 8 * tokens.length + 7 ≤ fuel →
    LeavesFewer (block fuel) tokens (tokens.length + 1)
  statement : ∀ tokens, 8 * tokens.length + 6 ≤ fuel →
    LeavesFewer (statement fuel) tokens tokens.length
  returned : ∀ tokens, 8 * tokens.length + 6 ≤ fuel →
    LeavesFewer (returned fuel) tokens (tokens.length + 1)
  conditionalArm : ∀ tokens, 8 * tokens.length + 5 ≤ fuel →
    LeavesFewer (conditionalArm fuel) tokens tokens.length
  moreArms : ∀ tokens, 8 * tokens.length + 1 ≤ fuel →
    LeavesFewer (moreArms fuel) tokens tokens.length
  assignmentOrCall : ∀ location tokens, 8 * tokens.length + 3 ≤ fuel →
    LeavesFewer (assignmentOrCall fuel location) tokens tokens.length
  moreTargets : ∀ tokens, 8 * tokens.length + 1 ≤ fuel →
    LeavesFewer (moreTargets fuel) tokens (tokens.length + 1)
  expressions : ∀ tokens, 8 * tokens.length + 5 ≤ fuel →
    LeavesFewer (expressions fuel) tokens tokens.length
  moreExpressions : ∀ tokens, 8 * tokens.length + 1 ≤ fuel →
    LeavesFewer (moreExpressions fuel) tokens (tokens.length + 1)
  expression : ∀ limit tokens, 8 * tokens.length + 4 ≤ fuel →
    LeavesFewer (expression fuel limit) tokens tokens.length
  connected : ∀ limit left tokens, 8 * tokens.length + 1 ≤ fuel →
    LeavesFewer (connected fuel limit left) tokens (tokens.length + 1)
  operand : ∀ tokens, 8 * tokens.length + 3 ≤ fuel →
    LeavesFewer (operand fuel) tokens tokens.length
  primary : ∀ tokens, 8 * tokens.length + 1 ≤ fuel →
    LeavesFewer (primary fuel) tokens tokens.length
  suffixed : ∀ tokens, 8 * tokens.length + 2 ≤ fuel →
    LeavesFewer (suffixed fuel) tokens tokens.length
  suffixes : ∀ base tokens, 8 * tokens.length + 3 ≤ fuel →
    LeavesFewer (suffixes fuel base) tokens (tokens.length + 1)
  callArguments : ∀ tokens, 8 * tokens.length + 2 ≤ fuel →
    LeavesFewer (callArguments fuel) tokens tokens.length
  table : ∀ tokens, 8 * tokens.length + 1 ≤ fuel →
    LeavesFewer (table fuel) tokens tokens.length
  fields : ∀ tokens, 8 * tokens.length + 6 ≤ fuel →
    LeavesFewer (fields fuel) tokens (tokens.length + 1)
  field : ∀ tokens, 8 * tokens.length + 5 ≤ fuel →
    LeavesFewer (field fuel) tokens tokens.length

namespace Progress

variable {fuel : Nat}

theorem moreNames_succ (ih : Progress fuel) (h : 8 * tokens.length + 1 ≤ fuel + 1) :
    LeavesFewer (Parser.moreNames (fuel + 1)) tokens (tokens.length + 1) := by
  unfold Parser.moreNames
  refine leavesFewer_eat (fun rest hr => ?_) (leavesFewer_pure (by omega))
  refine leavesFewer_bind _ leavesFewer_expectName fun name rest₁ h₁ => ?_
  refine leavesFewer_bind _ (ih.moreNames _ (by omega)) fun names rest₂ h₂ => ?_
  exact leavesFewer_pure (by omega)

theorem block_succ (ih : Progress fuel) (h : 8 * tokens.length + 7 ≤ fuel + 1) :
    LeavesFewer (Parser.block (fuel + 1)) tokens (tokens.length + 1) := by
  unfold Parser.block
  refine leavesFewer_atBlockEnd fun ends => ?_
  split
  · exact leavesFewer_pure (by omega)
  refine leavesFewer_eat (fun rest hr => ?_) ?_
  · exact LeavesFewer.mono (ih.block rest (by omega)) (by omega)
  rw [if_neg (by simp)]
  refine leavesFewer_peek ?_
  refine leavesFewer_bind _ (ih.statement _ (by omega)) fun statement rest hr => ?_
  split
  · exact leavesFewer_pure (by omega)
  · refine leavesFewer_bind _ (ih.block _ (by omega)) fun statements rest₁ h₁ => ?_
    exact leavesFewer_pure (by omega)

theorem returned_succ (ih : Progress fuel) (h : 8 * tokens.length + 6 ≤ fuel + 1) :
    LeavesFewer (Parser.returned (fuel + 1)) tokens (tokens.length + 1) := by
  unfold Parser.returned
  refine leavesFewer_atBlockEnd fun ends => ?_
  split
  · exact leavesFewer_pure (by omega)
  refine leavesFewer_peek ?_
  split
  · exact leavesFewer_pure (by omega)
  · exact LeavesFewer.mono (ih.expressions _ (by omega)) (by omega)

theorem conditionalArm_succ (ih : Progress fuel) (h : 8 * tokens.length + 5 ≤ fuel + 1) :
    LeavesFewer (Parser.conditionalArm (fuel + 1)) tokens tokens.length := by
  unfold Parser.conditionalArm
  refine leavesFewer_bind _ (ih.expression _ _ (by omega)) fun condition rest hr => ?_
  refine leavesFewer_bind _ leavesFewer_expectKeyword fun _ rest₁ h₁ => ?_
  refine leavesFewer_bind _ (ih.block _ (by omega)) fun body rest₂ h₂ => ?_
  exact leavesFewer_pure (by omega)

theorem moreArms_succ (ih : Progress fuel) (h : 8 * tokens.length + 1 ≤ fuel + 1) :
    LeavesFewer (Parser.moreArms (fuel + 1)) tokens tokens.length := by
  unfold Parser.moreArms
  refine leavesFewer_peek ?_
  cases tokens with
  | nil =>
    refine leavesFewer_bind _ leavesFewer_expectKeyword fun _ rest hr => ?_
    exact leavesFewer_pure (by omega)
  | cons next rest =>
    simp only [List.length_cons, List.head?_cons] at h ⊢
    split
    · refine leavesFewer_advance ?_
      refine leavesFewer_bind _ (ih.conditionalArm _ (by omega)) fun arm rest₁ h₁ => ?_
      refine leavesFewer_bind _ (ih.moreArms _ (by omega)) fun arms rest₂ h₂ => ?_
      exact leavesFewer_pure (by omega)
    · refine leavesFewer_advance ?_
      refine leavesFewer_bind _ (ih.block _ (by omega)) fun body rest₁ h₁ => ?_
      refine leavesFewer_bind _ leavesFewer_expectKeyword fun _ rest₂ h₂ => ?_
      exact leavesFewer_pure (by omega)
    · refine leavesFewer_bind _ leavesFewer_expectKeyword fun _ rest₁ h₁ => ?_
      exact leavesFewer_pure (by simpa using h₁)

theorem assignmentOrCall_succ (ih : Progress fuel) (location : Location)
    (h : 8 * tokens.length + 3 ≤ fuel + 1) :
    LeavesFewer (Parser.assignmentOrCall (fuel + 1) location) tokens tokens.length := by
  unfold Parser.assignmentOrCall
  refine leavesFewer_bind _ (ih.suffixed _ (by omega)) fun first rest hr => ?_
  refine leavesFewer_peek ?_
  have assigned : LeavesFewer (do
      let others ← Parser.moreTargets fuel
      let _ ← expectSymbol .assign
      let values ← Parser.expressions fuel
      return Statement.assignment (some location) (first :: others) values :
      Parser Statement) rest tokens.length := by
    refine leavesFewer_bind _ (ih.moreTargets _ (by omega)) fun others rest₁ h₁ => ?_
    refine leavesFewer_bind _ leavesFewer_expectSymbol fun _ rest₂ h₂ => ?_
    refine leavesFewer_bind _ (ih.expressions _ (by omega)) fun values rest₃ h₃ => ?_
    exact leavesFewer_pure (by omega)
  split
  · exact assigned
  · exact assigned
  · split
    · exact leavesFewer_pure (by omega)
    · exact leavesFewer_unexpected

theorem moreTargets_succ (ih : Progress fuel) (h : 8 * tokens.length + 1 ≤ fuel + 1) :
    LeavesFewer (Parser.moreTargets (fuel + 1)) tokens (tokens.length + 1) := by
  unfold Parser.moreTargets
  refine leavesFewer_eat (fun rest hr => ?_) (leavesFewer_pure (by omega))
  refine leavesFewer_bind _ (ih.suffixed _ (by omega)) fun target rest₁ h₁ => ?_
  refine leavesFewer_bind _ (ih.moreTargets _ (by omega)) fun targets rest₂ h₂ => ?_
  exact leavesFewer_pure (by omega)

theorem expressions_succ (ih : Progress fuel) (h : 8 * tokens.length + 5 ≤ fuel + 1) :
    LeavesFewer (Parser.expressions (fuel + 1)) tokens tokens.length := by
  unfold Parser.expressions
  refine leavesFewer_bind _ (ih.expression _ _ (by omega)) fun first rest hr => ?_
  refine leavesFewer_bind _ (ih.moreExpressions _ (by omega)) fun others rest₁ h₁ => ?_
  exact leavesFewer_pure (by omega)

theorem moreExpressions_succ (ih : Progress fuel) (h : 8 * tokens.length + 1 ≤ fuel + 1) :
    LeavesFewer (Parser.moreExpressions (fuel + 1)) tokens (tokens.length + 1) := by
  unfold Parser.moreExpressions
  refine leavesFewer_eat (fun rest hr => ?_) (leavesFewer_pure (by omega))
  refine leavesFewer_bind _ (ih.expression _ _ (by omega)) fun next rest₁ h₁ => ?_
  refine leavesFewer_bind _ (ih.moreExpressions _ (by omega)) fun others rest₂ h₂ => ?_
  exact leavesFewer_pure (by omega)

theorem expression_succ (ih : Progress fuel) (limit : Nat)
    (h : 8 * tokens.length + 4 ≤ fuel + 1) :
    LeavesFewer (Parser.expression (fuel + 1) limit) tokens tokens.length := by
  unfold Parser.expression
  refine leavesFewer_peek ?_
  cases tokens with
  | nil => exact leavesFewer_unexpected
  | cons next rest =>
    simp only [List.length_cons, List.head?_cons] at h ⊢
    split
    · refine leavesFewer_advance ?_
      refine leavesFewer_bind _ (ih.expression _ _ (by omega)) fun argument rest₁ h₁ => ?_
      exact LeavesFewer.mono (ih.connected _ _ _ (by omega)) (by omega)
    · refine leavesFewer_bind _ (ih.operand _ (by simp; omega)) fun first rest₁ h₁ => ?_
      simp only [List.length_cons] at h₁
      exact LeavesFewer.mono (ih.connected _ _ _ (by omega)) (by omega)

theorem connected_succ (ih : Progress fuel) (limit : Nat) (left : Expression)
    (h : 8 * tokens.length + 1 ≤ fuel + 1) :
    LeavesFewer (Parser.connected (fuel + 1) limit left) tokens (tokens.length + 1) := by
  unfold Parser.connected
  refine leavesFewer_peek ?_
  cases tokens with
  | nil => exact leavesFewer_pure (by simp)
  | cons next rest =>
    simp only [List.length_cons, List.head?_cons] at h ⊢
    split
    · exact leavesFewer_pure (by simp)
    · split
      · exact leavesFewer_pure (by simp)
      · refine leavesFewer_advance ?_
        refine leavesFewer_bind _ (ih.expression _ _ (by omega)) fun right rest₁ h₁ => ?_
        exact LeavesFewer.mono (ih.connected _ _ _ (by omega)) (by omega)

theorem primary_succ (ih : Progress fuel) (h : 8 * tokens.length + 1 ≤ fuel + 1) :
    LeavesFewer (Parser.primary (fuel + 1)) tokens tokens.length := by
  unfold Parser.primary
  refine leavesFewer_peek ?_
  cases tokens with
  | nil => exact leavesFewer_unexpected
  | cons next rest =>
    simp only [List.length_cons, List.head?_cons] at h ⊢
    split
    · refine leavesFewer_advance ?_
      exact leavesFewer_pure (by omega)
    · refine leavesFewer_advance ?_
      refine leavesFewer_bind _ (ih.expression _ _ (by omega)) fun inner rest₁ h₁ => ?_
      refine leavesFewer_bind _ leavesFewer_expectSymbol fun _ rest₂ h₂ => ?_
      exact leavesFewer_pure (by omega)
    · exact leavesFewer_unexpected

theorem suffixed_succ (ih : Progress fuel) (h : 8 * tokens.length + 2 ≤ fuel + 1) :
    LeavesFewer (Parser.suffixed (fuel + 1)) tokens tokens.length := by
  unfold Parser.suffixed
  refine leavesFewer_bind _ (ih.primary _ (by omega)) fun base rest hr => ?_
  exact LeavesFewer.mono (ih.suffixes _ _ (by omega)) (by omega)

theorem operand_succ (ih : Progress fuel) (h : 8 * tokens.length + 3 ≤ fuel + 1) :
    LeavesFewer (Parser.operand (fuel + 1)) tokens tokens.length := by
  unfold Parser.operand
  refine leavesFewer_peek ?_
  cases tokens with
  | nil => exact leavesFewer_unexpected
  | cons next rest =>
    have whole : LeavesFewer (Parser.table fuel) (next :: rest) (next :: rest).length :=
      ih.table _ (by omega)
    have chain : LeavesFewer (Parser.suffixed fuel) (next :: rest) (next :: rest).length :=
      ih.suffixed _ (by omega)
    simp only [List.head?_cons]
    split
    case h_1 absent => cases absent
    case h_8 => exact whole
    case h_9 => exact leavesFewer_fail
    case h_10 => exact leavesFewer_fail
    case h_11 => exact chain
    all_goals
      refine leavesFewer_advance ?_
      exact leavesFewer_pure (by simp)

theorem suffixes_succ (ih : Progress fuel) (base : Expression)
    (h : 8 * tokens.length + 3 ≤ fuel + 1) :
    LeavesFewer (Parser.suffixes (fuel + 1) base) tokens (tokens.length + 1) := by
  unfold Parser.suffixes
  refine leavesFewer_peek ?_
  cases tokens with
  | nil => exact leavesFewer_pure (by simp)
  | cons next rest =>
    have called (location : Location) : LeavesFewer (do
        let values ← Parser.callArguments fuel
        Parser.suffixes fuel (.call (some location) base values) :
        Parser Expression) (next :: rest) ((next :: rest).length + 1) := by
      refine leavesFewer_bind _ (ih.callArguments _ (by omega)) fun values rest₁ h₁ => ?_
      exact LeavesFewer.mono (ih.suffixes _ _ (by omega)) (by omega)
    simp only [List.head?_cons]
    simp only [List.length_cons] at h
    split
    · refine leavesFewer_advance ?_
      refine leavesFewer_bind _ leavesFewer_expectName fun name rest₁ h₁ => ?_
      exact LeavesFewer.mono (ih.suffixes _ _ (by omega)) (by simp; omega)
    · refine leavesFewer_advance ?_
      refine leavesFewer_bind _ (ih.expression _ _ (by omega)) fun index rest₁ h₁ => ?_
      refine leavesFewer_bind _ leavesFewer_expectSymbol fun _ rest₂ h₂ => ?_
      exact LeavesFewer.mono (ih.suffixes _ _ (by omega)) (by simp; omega)
    · refine leavesFewer_advance ?_
      refine leavesFewer_bind _ leavesFewer_expectName fun name rest₁ h₁ => ?_
      refine leavesFewer_bind _ (ih.callArguments _ (by omega)) fun values rest₂ h₂ => ?_
      exact LeavesFewer.mono (ih.suffixes _ _ (by omega)) (by simp; omega)
    · exact called _
    · exact called _
    · exact called _
    · exact leavesFewer_pure (by simp)

theorem callArguments_succ (ih : Progress fuel) (h : 8 * tokens.length + 2 ≤ fuel + 1) :
    LeavesFewer (Parser.callArguments (fuel + 1)) tokens tokens.length := by
  unfold Parser.callArguments
  refine leavesFewer_peek ?_
  have listed : LeavesFewer (do
      let _ ← expectSymbol .leftParen
      if ← eat .rightParen then return []
      else
        let values ← Parser.expressions fuel
        let _ ← expectSymbol .rightParen
        return values : Parser (List Expression)) tokens tokens.length := by
    refine leavesFewer_bind _ leavesFewer_expectSymbol fun _ rest hr => ?_
    refine leavesFewer_eat (fun rest₁ h₁ => leavesFewer_pure (by omega)) ?_
    refine leavesFewer_bind _ (ih.expressions _ (by omega)) fun values rest₁ h₁ => ?_
    refine leavesFewer_bind _ leavesFewer_expectSymbol fun _ rest₂ h₂ => ?_
    exact leavesFewer_pure (by omega)
  split
  · refine leavesFewer_bind _ (ih.table _ (by omega)) fun argument rest hr => ?_
    exact leavesFewer_pure (by omega)
  · cases tokens with
    | nil => simp at *
    | cons next rest =>
      refine leavesFewer_advance ?_
      exact leavesFewer_pure (by simp)
  · exact listed

theorem table_succ (ih : Progress fuel) (h : 8 * tokens.length + 1 ≤ fuel + 1) :
    LeavesFewer (Parser.table (fuel + 1)) tokens tokens.length := by
  unfold Parser.table
  refine leavesFewer_bind _ leavesFewer_expectSymbol fun location rest hr => ?_
  refine leavesFewer_bind _ (ih.fields _ (by omega)) fun fields rest₁ h₁ => ?_
  refine leavesFewer_bind _ leavesFewer_expectSymbol fun _ rest₂ h₂ => ?_
  exact leavesFewer_pure (by omega)

theorem fields_succ (ih : Progress fuel) (h : 8 * tokens.length + 6 ≤ fuel + 1) :
    LeavesFewer (Parser.fields (fuel + 1)) tokens (tokens.length + 1) := by
  unfold Parser.fields
  refine leavesFewer_peek ?_
  split
  · exact leavesFewer_pure (by omega)
  refine leavesFewer_bind _ (ih.field _ (by omega)) fun field rest hr => ?_
  refine leavesFewer_peek ?_
  have another : rest ≠ [] → LeavesFewer (do
      advance
      let others ← Parser.fields fuel
      return field :: others : Parser (List Field)) rest (tokens.length + 1) := by
    intro some
    cases rest with
    | nil => exact absurd rfl some
    | cons mark rest =>
      refine leavesFewer_advance ?_
      simp only [List.length_cons] at hr
      refine leavesFewer_bind _ (ih.fields _ (by omega)) fun others rest₁ h₁ => ?_
      exact leavesFewer_pure (by omega)
  split
  · exact another (by rintro rfl; simp at *)
  · exact another (by rintro rfl; simp at *)
  · exact leavesFewer_pure (by omega)

theorem field_succ (ih : Progress fuel) (h : 8 * tokens.length + 5 ≤ fuel + 1) :
    LeavesFewer (Parser.field (fuel + 1)) tokens tokens.length := by
  unfold Parser.field
  refine leavesFewer_eat (fun rest hr => ?_) ?_
  · rw [if_pos rfl]
    refine leavesFewer_bind _ (ih.expression _ _ (by omega)) fun key rest₁ h₁ => ?_
    refine leavesFewer_bind _ leavesFewer_expectSymbol fun _ rest₂ h₂ => ?_
    refine leavesFewer_bind _ leavesFewer_expectSymbol fun _ rest₃ h₃ => ?_
    refine leavesFewer_bind _ (ih.expression _ _ (by omega)) fun value rest₄ h₄ => ?_
    exact leavesFewer_pure (by omega)
  · rw [if_neg (by simp)]
    refine leavesFewer_atNamedField (fun name location mark rest here => ?_) ?_
    · rw [if_pos rfl]
      subst here
      simp only [List.length_cons] at h ⊢
      have value : LeavesFewer (do
          let value ← Parser.expression fuel 0
          return Field.named name value : Parser Field) rest (rest.length + 1 + 1) := by
        refine leavesFewer_bind _ (ih.expression _ _ (by omega)) fun value rest₁ h₁ => ?_
        exact leavesFewer_pure (by omega)
      exact value.after rfl ((List.suffix_cons mark rest).trans (List.suffix_cons _ _))
    · rw [if_neg (by simp)]
      refine leavesFewer_bind _ (ih.expression _ _ (by omega)) fun value rest hr => ?_
      exact leavesFewer_pure (by omega)

theorem statement_succ (ih : Progress fuel) (h : 8 * tokens.length + 6 ≤ fuel + 1) :
    LeavesFewer (Parser.statement (fuel + 1)) tokens tokens.length := by
  unfold Parser.statement
  refine leavesFewer_peek ?_
  cases tokens with
  | nil => exact leavesFewer_unexpected
  | cons next rest =>
    have other (location : Location) :
        LeavesFewer (Parser.assignmentOrCall fuel location) (next :: rest) (next :: rest).length :=
      ih.assignmentOrCall _ _ (by omega)
    simp only [List.head?_cons]
    simp only [List.length_cons] at h other ⊢
    split
    case h_1 absent => cases absent
    · refine leavesFewer_advance (leavesFewer_peek ?_)
      split
      · exact leavesFewer_fail
      refine leavesFewer_bind _ leavesFewer_expectName fun name rest₁ h₁ => ?_
      refine leavesFewer_bind _ (ih.moreNames _ (by omega)) fun names rest₂ h₂ => ?_
      refine leavesFewer_eat (fun rest₃ h₃ => ?_) (leavesFewer_pure (by omega))
      rw [if_pos rfl]
      refine leavesFewer_bind _ (ih.expressions _ (by omega)) fun values rest₄ h₄ => ?_
      exact leavesFewer_pure (by omega)
    · refine leavesFewer_advance ?_
      refine leavesFewer_bind _ (ih.returned _ (by omega)) fun values rest₁ h₁ => ?_
      exact leavesFewer_eat (fun rest₂ h₂ => leavesFewer_pure (by omega))
        (leavesFewer_pure (by omega))
    · refine leavesFewer_advance ?_
      refine leavesFewer_bind _ (ih.block _ (by omega)) fun body rest₁ h₁ => ?_
      refine leavesFewer_bind _ leavesFewer_expectKeyword fun _ rest₂ h₂ => ?_
      exact leavesFewer_pure (by omega)
    · refine leavesFewer_advance ?_
      refine leavesFewer_bind _ (ih.expression _ _ (by omega)) fun condition rest₁ h₁ => ?_
      refine leavesFewer_bind _ leavesFewer_expectKeyword fun _ rest₂ h₂ => ?_
      refine leavesFewer_bind _ (ih.block _ (by omega)) fun body rest₃ h₃ => ?_
      refine leavesFewer_bind _ leavesFewer_expectKeyword fun _ rest₄ h₄ => ?_
      exact leavesFewer_pure (by omega)
    · refine leavesFewer_advance ?_
      refine leavesFewer_bind _ (ih.conditionalArm _ (by omega)) fun first rest₁ h₁ => ?_
      refine leavesFewer_bind _ (ih.moreArms _ (by omega)) fun others rest₂ h₂ => ?_
      exact leavesFewer_pure (by omega)
    · refine leavesFewer_advance ?_
      exact leavesFewer_pure (by omega)
    · exact leavesFewer_fail
    · exact leavesFewer_fail
    · exact leavesFewer_fail
    · exact leavesFewer_fail
    · exact leavesFewer_fail
    · exact other _

/-- Every notion of the grammar makes progress with the fuel it is given. -/
theorem all : ∀ fuel, Progress fuel
  | 0 => by
    constructor
    all_goals
      intros
      omega
  | fuel + 1 =>
    have ih := all fuel
    { moreNames := fun _ h => moreNames_succ ih h
      block := fun _ h => block_succ ih h
      statement := fun _ h => statement_succ ih h
      returned := fun _ h => returned_succ ih h
      conditionalArm := fun _ h => conditionalArm_succ ih h
      moreArms := fun _ h => moreArms_succ ih h
      assignmentOrCall := fun location _ h => assignmentOrCall_succ ih location h
      moreTargets := fun _ h => moreTargets_succ ih h
      expressions := fun _ h => expressions_succ ih h
      moreExpressions := fun _ h => moreExpressions_succ ih h
      expression := fun limit _ h => expression_succ ih limit h
      connected := fun limit left _ h => connected_succ ih limit left h
      operand := fun _ h => operand_succ ih h
      primary := fun _ h => primary_succ ih h
      suffixed := fun _ h => suffixed_succ ih h
      suffixes := fun base _ h => suffixes_succ ih base h
      callArguments := fun _ h => callArguments_succ ih h
      table := fun _ h => table_succ ih h
      fields := fun _ h => fields_succ ih h
      field := fun _ h => field_succ ih h }

end Progress

/-- A script is read with fuel that is enough for a block. -/
theorem leavesFewer_chunk {fuel : Nat} (h : 8 * tokens.length + 7 ≤ fuel) :
    LeavesFewer (chunk fuel) tokens (tokens.length + 1) := by
  unfold chunk
  refine leavesFewer_bind _ ((Progress.all fuel).block tokens h) fun body rest hr => ?_
  refine leavesFewer_peek ?_
  split
  · exact leavesFewer_pure hr
  · exact leavesFewer_unexpected

/-- Reading a whole script with enough fuel does not meet its bound. -/
theorem chunk_ne_exhausted (tokens : List PlacedToken) :
    chunk (enoughFuel tokens) tokens ≠ .exhausted := by
  intro h
  have left : LeavesFewer (chunk (enoughFuel tokens)) tokens (tokens.length + 1) :=
    leavesFewer_chunk (by unfold enoughFuel; omega)
  simp [LeavesFewer, h] at left

end Parser
end Script
end ProductionRates
