import ProductionRates.Proofs.Script.Continuation

/-!
# What a reading was made of

When a reader of the grammar is done, the readers that it calls were done before it.  There is one
statement about this for each notion, which says everything that the notion can come of; what is
true of all that is read then follows without a look at the readers themselves.

* `Makes` — what a reader makes of some tokens or others;
* `expectSymbol_eq_done`, `eat_eq_done` — single tokens;
* `expressions_eq_done`, `fields_eq_done` — lists of expressions and of fields;
* `assignmentOrCall_eq_done`, `statement_eq_done` — a statement;
* `conditionalArm_eq_done`, `moreArms_eq_done`, `block_eq_done` — arms and blocks.
-/

namespace ProductionRates
namespace Script
namespace Parser

variable {α : Type} {fuel limit : Nat} {placed left rest : List PlacedToken}
  {location : Location} {read : Statement}

/-- The reader makes this of some tokens. -/
def Makes (p : Parser α) (value : α) : Prop := ∃ placed rest, p placed = .done value rest

/-! ## Single tokens -/

theorem unexpected_ne_done {expected : Expected} {value : α} :
    (unexpected expected : Parser α) placed ≠ .done value rest := by
  cases placed <;> exact nofun

theorem expectSymbol_eq_done {mark : Symbol} (h : expectSymbol mark placed = .done location rest) :
    placed = ⟨.symbol mark, location⟩ :: rest := by
  rw [expectSymbol.eq_def] at h
  split at h
  · split at h
    · rename_i heq
      cases h
      rw [heq]
    · cases h
  · unfold unexpected at h
    split at h <;> cases h

theorem eat_eq_done {mark : Symbol} {found : Bool} (h : eat mark placed = .done found rest) :
    (found = true ∧ ∃ location, placed = ⟨.symbol mark, location⟩ :: rest) ∨
      (found = false ∧ placed = rest) := by
  rw [eat.eq_def] at h
  split at h
  · split at h
    · rename_i heq
      cases h
      exact .inl ⟨rfl, _, by rw [heq]⟩
    · cases h
      exact .inr ⟨rfl, rfl⟩
  · cases h
    exact .inr ⟨rfl, rfl⟩

theorem atNamedField_eq_done {found : Bool} (h : atNamedField placed = .done found rest) :
    placed = rest ∧ (found = true → ∃ name others place place',
      placed = ⟨.name name, place⟩ :: ⟨.symbol .assign, place'⟩ :: others) := by
  rw [atNamedField.eq_def] at h
  split at h
  · cases h
    exact ⟨rfl, fun _ => ⟨_, _, _, _, rfl⟩⟩
  · cases h
    exact ⟨rfl, by simp⟩

theorem atBlockEnd_eq_done {ends : Bool} (h : atBlockEnd placed = .done ends rest) :
    placed = rest := by
  rw [atBlockEnd.eq_def] at h
  split at h <;> cases h <;> rfl

/-! ## Lists -/

/-- Expressions are one and those after it. -/
theorem expressions_eq_done {values : List Expression}
    (h : expressions fuel placed = .done values rest) :
    ∃ less first left others, fuel = less + 1 ∧ expression less 0 placed = .done first left ∧
      moreExpressions less left = .done others rest ∧ values = first :: others := by
  cases fuel with
  | zero => cases h
  | succ fuel =>
    rw [expressions] at h
    obtain ⟨first, left, hfirst, hafter⟩ := bind_eq_done_iff.1 h
    obtain ⟨others, last, hothers, hdone⟩ := bind_eq_done_iff.1 hafter
    cases hdone
    exact ⟨fuel, first, left, others, rfl, hfirst, hothers, rfl⟩

/-- After a field there is a separator with fields after it, or nothing more. -/
theorem separator_eq_done {value : Field} {values : List Field}
    (h : (do
      match ← peek with
      | some ⟨.symbol .comma, _⟩ | some ⟨.symbol .semicolon, _⟩ =>
        advance
        let others ← fields fuel
        return value :: others
      | _ => return [value] : Parser (List Field)) left = .done values rest) :
    (values = [value] ∧ left = rest) ∨ ∃ separator place tokens others,
      (separator = .comma ∨ separator = .semicolon) ∧
        left = ⟨.symbol separator, place⟩ :: tokens ∧
        fields fuel tokens = .done others rest ∧ values = value :: others := by
  obtain ⟨next, tokens, hpeek, hlast⟩ := bind_eq_done_iff.1 h
  cases hpeek
  have hnone (hdone : (pure [value] : Parser (List Field)) left = .done values rest) :
      values = [value] ∧ left = rest := by
    cases hdone
    exact ⟨rfl, rfl⟩
  cases left with
  | nil => exact .inl (hnone hlast)
  | cons next left =>
    obtain ⟨token, place⟩ := next
    have hmore {separator : Symbol} (hseparator : separator = .comma ∨ separator = .semicolon)
        (hafter : (fields fuel >>= fun others => pure (value :: others)) left =
          .done values rest) : ∃ separator' place' tokens others,
        (separator' = Symbol.comma ∨ separator' = .semicolon) ∧
          (⟨.symbol separator, place⟩ :: left : List PlacedToken) =
            ⟨.symbol separator', place'⟩ :: tokens ∧
          fields fuel tokens = .done others rest ∧ values = value :: others := by
      obtain ⟨others, tokens, hothers, hdone⟩ := bind_eq_done_iff.1 hafter
      cases hdone
      exact ⟨separator, place, left, others, hseparator, rfl, hothers, rfl⟩
    cases token with
    | symbol mark =>
      cases mark with
      | comma => exact .inr (hmore (.inl rfl) hlast)
      | semicolon => exact .inr (hmore (.inr rfl) hlast)
      | _ => exact .inl (hnone hlast)
    | _ => exact .inl (hnone hlast)

/-- Fields are none, or a field and what follows it. -/
theorem fields_eq_done {values : List Field} (h : fields (fuel + 1) placed = .done values rest) :
    (values = [] ∧ placed = rest) ∨ ∃ value left, field fuel placed = .done value left ∧
      ((values = [value] ∧ left = rest) ∨ ∃ separator place tokens others,
        (separator = .comma ∨ separator = .semicolon) ∧
          left = ⟨.symbol separator, place⟩ :: tokens ∧
          fields fuel tokens = .done others rest ∧ values = value :: others) := by
  rw [fields] at h
  obtain ⟨next, tokens, hpeek, hlast⟩ := bind_eq_done_iff.1 h
  cases hpeek
  by_cases hclosing : ∃ place left, placed = ⟨.symbol .rightBrace, place⟩ :: left
  · obtain ⟨place, left, rfl⟩ := hclosing
    cases hlast
    exact .inl ⟨rfl, rfl⟩
  · right
    cases placed with
    | nil =>
      obtain ⟨value, left, hvalue, hafter⟩ := bind_eq_done_iff.1 hlast
      exact ⟨value, left, hvalue, separator_eq_done hafter⟩
    | cons next placed =>
      obtain ⟨token, place⟩ := next
      cases token with
      | symbol mark =>
        cases mark with
        | rightBrace => exact absurd ⟨place, placed, rfl⟩ hclosing
        | _ =>
          obtain ⟨value, left, hvalue, hafter⟩ := bind_eq_done_iff.1 hlast
          exact ⟨value, left, hvalue, separator_eq_done hafter⟩
      | _ =>
        obtain ⟨value, left, hvalue, hafter⟩ := bind_eq_done_iff.1 hlast
        exact ⟨value, left, hvalue, separator_eq_done hafter⟩

/-! ## Statements -/

/-- Where no assignment goes on, there is a call. -/
theorem call_eq_done {first : Expression} (h : (match first with
      | .call _ _ _ => pure (Statement.call location first)
      | _ => unexpected .assignmentOrCall : Parser Statement) placed = .done read rest) :
    placed = rest ∧ read = .call location first ∧
      ∃ place base arguments, first = .call place base arguments := by
  cases first with
  | call place base arguments =>
    cases h
    exact ⟨rfl, rfl, place, base, arguments, rfl⟩
  | _ => exact absurd h unexpected_ne_done

/-- **An assignment or a call** is an expression and what goes with the token after it. -/
theorem assignmentOrCall_eq_done (h : assignmentOrCall fuel location placed = .done read rest) :
    ∃ less first left, fuel = less + 1 ∧ suffixed less placed = .done first left ∧
      ((∃ others place tokens values,
          moreTargets less left = .done others (⟨.symbol .assign, place⟩ :: tokens) ∧
            expressions less tokens = .done values rest ∧
            read = .assignment location (first :: others) values) ∨
        left = rest ∧ read = .call location first ∧
          ∃ place base arguments, first = .call place base arguments) := by
  cases fuel with
  | zero => cases h
  | succ fuel =>
    rw [assignmentOrCall] at h
    obtain ⟨first, left, hfirst, hafter⟩ := bind_eq_done_iff.1 h
    obtain ⟨next, tokens, hpeek, hafter⟩ := bind_eq_done_iff.1 hafter
    cases hpeek
    refine ⟨fuel, first, left, rfl, hfirst, ?_⟩
    have hassignment (hrun : (moreTargets fuel >>= fun others => expectSymbol .assign >>= fun _ =>
        expressions fuel >>= fun values =>
          pure (Statement.assignment location (first :: others) values)) left = .done read rest) :
        ∃ others place tokens values,
          moreTargets fuel left = .done others (⟨.symbol .assign, place⟩ :: tokens) ∧
            expressions fuel tokens = .done values rest ∧
            read = .assignment location (first :: others) values := by
      obtain ⟨others, tokens, hothers, hrun⟩ := bind_eq_done_iff.1 hrun
      obtain ⟨assign, last, hassign, hrun⟩ := bind_eq_done_iff.1 hrun
      obtain ⟨values, final, hvalues, hdone⟩ := bind_eq_done_iff.1 hrun
      cases hdone
      rw [expectSymbol_eq_done hassign] at hothers
      exact ⟨others, assign, last, values, hothers, hvalues, rfl⟩
    cases left with
    | nil => exact .inr (call_eq_done hafter)
    | cons next left =>
      obtain ⟨token, place⟩ := next
      cases token with
      | symbol mark =>
        cases mark with
        | assign => exact .inl (hassignment hafter)
        | comma => exact .inl (hassignment hafter)
        | _ => exact .inr (call_eq_done hafter)
      | _ => exact .inr (call_eq_done hafter)

/-- What a statement can come of, in terms of the readers with less fuel. -/
inductive StatementRead (fuel : Nat) (placed rest : List PlacedToken) : Statement → Prop where
  | localNames (location : Location) (name : String) (names : List String)
      (values : List Expression) :
      StatementRead fuel placed rest (.localNames location (name :: names) values)
  | returnValues (location : Location) (values : List Expression) (left : List PlacedToken)
      (h : placed = ⟨.keyword .returnWord, location⟩ :: left) :
      StatementRead fuel placed rest (.returnValues location values)
  | block (location : Location) {body : List Statement} (h : Makes (block fuel) body) :
      StatementRead fuel placed rest (.block location body)
  | whileLoop (location : Location) (condition : Expression) {body : List Statement}
      (h : Makes (block fuel) body) :
      StatementRead fuel placed rest (.whileLoop location condition body)
  | conditional (location : Location) {first : Clause} {others : List Clause}
      (h : Makes (conditionalArm fuel) first) (hothers : Makes (moreArms fuel) others) :
      StatementRead fuel placed rest (.conditional location (first :: others))
  | breakLoop (location : Location) : StatementRead fuel placed rest (.breakLoop location)
  | assignmentOrCall {read : Statement} (location : Location)
      (h : assignmentOrCall fuel location placed = .done read rest) :
      StatementRead fuel placed rest read

/-- What stands after the keyword of local names. -/
theorem localNames_eq_done (h : (do
      match ← peek with
      | some ⟨.keyword .functionWord, _⟩ => fail (.unsupported .localFunction location)
      | _ =>
        let name ← expectName
        let names ← moreNames fuel
        if ← eat .assign then
          let values ← expressions fuel
          return .localNames location (name :: names) values
        else return .localNames location (name :: names) [] : Parser Statement) left =
      .done read rest) : StatementRead fuel placed rest read := by
  obtain ⟨next, tokens, hpeek, h⟩ := bind_eq_done_iff.1 h
  split at h
  · cases h
  · obtain ⟨name, tokens, hname, h⟩ := bind_eq_done_iff.1 h
    obtain ⟨names, tokens, hnames, h⟩ := bind_eq_done_iff.1 h
    obtain ⟨given, tokens, hgiven, h⟩ := bind_eq_done_iff.1 h
    cases given with
    | true =>
      rw [if_pos rfl] at h
      obtain ⟨values, tokens, hvalues, hdone⟩ := bind_eq_done_iff.1 h
      cases hdone
      exact .localNames location name names values
    | false =>
      cases h
      exact .localNames location name names []

/-- **What a statement comes of.** -/
theorem statement_eq_done (h : statement (fuel + 1) placed = .done read rest) :
    StatementRead fuel placed rest read := by
  rw [statement] at h
  obtain ⟨next, tokens, hpeek, h⟩ := bind_eq_done_iff.1 h
  cases hpeek
  cases placed with
  | nil => cases h
  | cons next placed =>
    obtain ⟨token, location⟩ := next
    have hother (hrun : assignmentOrCall fuel location (⟨token, location⟩ :: placed) =
        .done read rest) : StatementRead fuel (⟨token, location⟩ :: placed) rest read :=
      .assignmentOrCall location hrun
    cases token with
    | keyword word =>
      cases word with
      | localWord =>
        obtain ⟨_, tokens, hadvance, h⟩ := bind_eq_done_iff.1 h
        cases hadvance
        exact localNames_eq_done h
      | returnWord =>
        obtain ⟨_, tokens, hadvance, h⟩ := bind_eq_done_iff.1 h
        obtain ⟨values, tokens, hvalues, h⟩ := bind_eq_done_iff.1 h
        obtain ⟨_, tokens, hsemicolon, hdone⟩ := bind_eq_done_iff.1 h
        cases hdone
        exact .returnValues location values placed rfl
      | doWord =>
        obtain ⟨_, tokens, hadvance, h⟩ := bind_eq_done_iff.1 h
        obtain ⟨body, tokens, hbody, h⟩ := bind_eq_done_iff.1 h
        obtain ⟨_, tokens, hend, hdone⟩ := bind_eq_done_iff.1 h
        cases hdone
        exact .block location ⟨_, _, hbody⟩
      | whileWord =>
        obtain ⟨_, tokens, hadvance, h⟩ := bind_eq_done_iff.1 h
        obtain ⟨condition, tokens, hcondition, h⟩ := bind_eq_done_iff.1 h
        obtain ⟨_, tokens, hdo, h⟩ := bind_eq_done_iff.1 h
        obtain ⟨body, tokens, hbody, h⟩ := bind_eq_done_iff.1 h
        obtain ⟨_, tokens, hend, hdone⟩ := bind_eq_done_iff.1 h
        cases hdone
        exact .whileLoop location condition ⟨_, _, hbody⟩
      | ifWord =>
        obtain ⟨_, tokens, hadvance, h⟩ := bind_eq_done_iff.1 h
        obtain ⟨first, tokens, hfirst, h⟩ := bind_eq_done_iff.1 h
        obtain ⟨others, tokens, hothers, hdone⟩ := bind_eq_done_iff.1 h
        cases hdone
        exact .conditional location ⟨_, _, hfirst⟩ ⟨_, _, hothers⟩
      | breakWord =>
        obtain ⟨_, tokens, hadvance, hdone⟩ := bind_eq_done_iff.1 h
        cases hdone
        exact .breakLoop location
      | functionWord | forWord | repeatWord | gotoWord => cases h
      | _ => exact hother h
    | symbol mark =>
      cases mark with
      | doubleColon => cases h
      | _ => exact hother h
    | _ => exact hother h

/-! ## Blocks -/

/-- An arm is a condition and a block. -/
theorem conditionalArm_eq_done {arm : Clause} (h : conditionalArm fuel placed = .done arm rest) :
    ∃ less condition body, fuel = less + 1 ∧ Makes (block less) body ∧
      arm = .arm (some condition) body := by
  cases fuel with
  | zero => cases h
  | succ fuel =>
    rw [conditionalArm] at h
    obtain ⟨condition, tokens, hcondition, h⟩ := bind_eq_done_iff.1 h
    obtain ⟨_, tokens, hthen, h⟩ := bind_eq_done_iff.1 h
    obtain ⟨body, tokens, hbody, hdone⟩ := bind_eq_done_iff.1 h
    cases hdone
    exact ⟨fuel, condition, body, rfl, ⟨_, _, hbody⟩, rfl⟩

/-- Further arms are an arm and those after it, a block alone, or none. -/
theorem moreArms_eq_done {arms : List Clause} (h : moreArms fuel placed = .done arms rest) :
    ∃ less, fuel = less + 1 ∧ ((∃ arm others, Makes (conditionalArm less) arm ∧
        Makes (moreArms less) others ∧ arms = arm :: others) ∨
      (∃ body, Makes (block less) body ∧ arms = [.arm none body]) ∨ arms = []) := by
  cases fuel with
  | zero => cases h
  | succ fuel =>
    refine ⟨fuel, rfl, ?_⟩
    rw [moreArms] at h
    obtain ⟨next, tokens, hpeek, h⟩ := bind_eq_done_iff.1 h
    cases hpeek
    have hnone (hrun : (expectKeyword .endWord >>= fun _ => pure ([] : List Clause)) placed =
        .done arms rest) : arms = [] := by
      obtain ⟨_, tokens, hend, hdone⟩ := bind_eq_done_iff.1 hrun
      cases hdone
      rfl
    cases placed with
    | nil => exact .inr (.inr (hnone h))
    | cons next placed =>
      obtain ⟨token, location⟩ := next
      cases token with
      | keyword word =>
        cases word with
        | elseifWord =>
          obtain ⟨_, tokens, hadvance, h⟩ := bind_eq_done_iff.1 h
          obtain ⟨arm, tokens, harm, h⟩ := bind_eq_done_iff.1 h
          obtain ⟨others, tokens, hothers, hdone⟩ := bind_eq_done_iff.1 h
          cases hdone
          exact .inl ⟨arm, others, ⟨_, _, harm⟩, ⟨_, _, hothers⟩, rfl⟩
        | elseWord =>
          obtain ⟨_, tokens, hadvance, h⟩ := bind_eq_done_iff.1 h
          obtain ⟨body, tokens, hbody, h⟩ := bind_eq_done_iff.1 h
          obtain ⟨_, tokens, hend, hdone⟩ := bind_eq_done_iff.1 h
          cases hdone
          exact .inr (.inl ⟨body, ⟨_, _, hbody⟩, rfl⟩)
        | _ => exact .inr (.inr (hnone h))
      | _ => exact .inr (.inr (hnone h))

/-- **A block** is empty, or the same block after a semicolon, or a statement and a block after
it, which is missing after a return. -/
theorem block_eq_done {statements : List Statement}
    (h : block (fuel + 1) placed = .done statements rest) :
    (statements = [] ∧ placed = rest) ∨
      (∃ place left, placed = ⟨.symbol .semicolon, place⟩ :: left ∧
        block fuel left = .done statements rest) ∨
      ∃ first left, statement fuel placed = .done first left ∧
        ((statements = [first] ∧ left = rest) ∨
          (∀ place left, placed ≠ ⟨.keyword .returnWord, place⟩ :: left) ∧
            ∃ others, block fuel left = .done others rest ∧ statements = first :: others) := by
  rw [block] at h
  obtain ⟨ends, tokens, hends, h⟩ := bind_eq_done_iff.1 h
  obtain rfl := atBlockEnd_eq_done hends
  cases ends with
  | true =>
    cases h
    exact .inl ⟨rfl, rfl⟩
  | false =>
    rw [if_neg (by decide)] at h
    obtain ⟨given, tokens, hgiven, h⟩ := bind_eq_done_iff.1 h
    rcases eat_eq_done hgiven with ⟨rfl, place, rfl⟩ | ⟨rfl, rfl⟩
    · exact .inr (.inl ⟨place, tokens, rfl, h⟩)
    · rw [if_neg (by decide)] at h
      obtain ⟨next, tokens, hpeek, h⟩ := bind_eq_done_iff.1 h
      cases hpeek
      obtain ⟨first, left, hfirst, h⟩ := bind_eq_done_iff.1 h
      refine .inr (.inr ⟨first, left, hfirst, ?_⟩)
      have hothers (hrun : (block fuel >>= fun others => pure (first :: others)) left =
          .done statements rest) :
          ∃ others, block fuel left = .done others rest ∧ statements = first :: others := by
        obtain ⟨others, tokens, hothers, hdone⟩ := bind_eq_done_iff.1 hrun
        cases hdone
        exact ⟨others, hothers, rfl⟩
      cases placed with
      | nil => exact .inr ⟨by simp, hothers h⟩
      | cons next placed =>
        obtain ⟨token, location⟩ := next
        cases token with
        | keyword word =>
          cases word with
          | returnWord =>
            cases h
            exact .inl ⟨rfl, rfl⟩
          | _ => exact .inr ⟨by simp, hothers h⟩
        | _ => exact .inr ⟨by simp, hothers h⟩

/-- A script is a block that is all of the tokens. -/
theorem block_of_chunk {statements : List Statement}
    (h : chunk fuel placed = .done statements rest) : block fuel placed = .done statements [] := by
  rw [chunk] at h
  obtain ⟨body, left, hbody, h⟩ := bind_eq_done_iff.1 h
  obtain ⟨next, tokens, hpeek, h⟩ := bind_eq_done_iff.1 h
  cases hpeek
  cases left with
  | nil =>
    cases h
    exact hbody
  | cons next left => cases h

end Parser
end Script
end ProductionRates
