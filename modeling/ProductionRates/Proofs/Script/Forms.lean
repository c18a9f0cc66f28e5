import ProductionRates.Proofs.Script.Inversion

/-!
# The forms of statements

The tree of a script has room for statements that no text has: an assignment without targets, a
return with statements after it, a conditional whose first arm has no condition.  Here is which
statements the grammar has a form for.

* `Statement.HasForm`, `BlockHasForm`, `ArmsHaveForm` — the forms;
* `Formed.all` — whatever the grammar reads has one of the forms.
-/

namespace ProductionRates
namespace Script

mutual

/-- The statement has one of the forms of the grammar. -/
inductive Statement.HasForm : Statement → Prop where
  | assignment (location : Option Location) {targets values : List Expression}
      (htargets : targets ≠ []) (hvalues : values ≠ []) :
      Statement.HasForm (.assignment location targets values)
  | localNames (location : Option Location) {names : List String} (hnames : names ≠ [])
      (values : List Expression) : Statement.HasForm (.localNames location names values)
  | call (location place : Option Location) (base : Expression) (arguments : List Expression) :
      Statement.HasForm (.call location (.call place base arguments))
  | returnValues (location : Option Location) (values : List Expression) :
      Statement.HasForm (.returnValues location values)
  | block (location : Option Location) {body : List Statement} (h : BlockHasForm body) :
      Statement.HasForm (.block location body)
  | whileLoop (location : Option Location) (condition : Expression) {body : List Statement}
      (h : BlockHasForm body) : Statement.HasForm (.whileLoop location condition body)
  | conditional (location : Option Location) (condition : Expression) {body : List Statement}
      {others : List Clause} (h : BlockHasForm body) (hothers : ArmsHaveForm others) :
      Statement.HasForm (.conditional location (.arm (some condition) body :: others))
  | breakLoop (location : Option Location) : Statement.HasForm (.breakLoop location)

/-- All statements of a block have a form, and a return is the last of them. -/
inductive BlockHasForm : List Statement → Prop where
  | none : BlockHasForm []
  | last {statement : Statement} (h : statement.HasForm) : BlockHasForm [statement]
  | more {statement : Statement} {others : List Statement} (h : statement.HasForm)
      (hreturn : ∀ location values, statement ≠ .returnValues location values)
      (hothers : BlockHasForm others) : BlockHasForm (statement :: others)

/-- The blocks of all arms have a form, and only the last arm may lack a condition. -/
inductive ArmsHaveForm : List Clause → Prop where
  | none : ArmsHaveForm []
  | otherwise {body : List Statement} (h : BlockHasForm body) : ArmsHaveForm [.arm none body]
  | more (condition : Expression) {body : List Statement} {others : List Clause}
      (h : BlockHasForm body) (hothers : ArmsHaveForm others) :
      ArmsHaveForm (.arm (some condition) body :: others)

end

/-! ## What is read has a form -/

open ProductionRates.Script.Parser

variable {fuel : Nat} {location : Location} {read : Statement} {placed rest : List PlacedToken}

theorem hasForm_of_assignmentOrCall (h : assignmentOrCall fuel location placed = .done read rest) :
    read.HasForm := by
  obtain ⟨less, first, left, -, -, ⟨others, place, tokens, values, -, hvalues, rfl⟩ |
    ⟨-, rfl, place, base, arguments, rfl⟩⟩ := assignmentOrCall_eq_done h
  · obtain ⟨_, first', left', others', -, -, -, rfl⟩ := expressions_eq_done hvalues
    exact .assignment _ (List.cons_ne_nil _ _) (List.cons_ne_nil _ _)
  · exact .call _ place base arguments

/-- Only the keyword of a return begins one. -/
theorem placed_of_returnValues {place : Option Location} {values : List Expression}
    (h : statement fuel placed = .done (.returnValues place values) rest) :
    ∃ location left, placed = ⟨.keyword .returnWord, location⟩ :: left := by
  cases fuel with
  | zero => cases h
  | succ fuel =>
    cases statement_eq_done h with
    | returnValues location values left hplaced => exact ⟨location, left, hplaced⟩
    | assignmentOrCall location hother =>
      obtain ⟨_, _, _, -, -, ⟨_, _, _, _, -, -, heq⟩ | ⟨-, heq, -⟩⟩ :=
        assignmentOrCall_eq_done hother
      · cases heq
      · cases heq

/-- What is read with some fuel has a form. -/
structure Formed (fuel : Nat) : Prop where
  statement : ∀ {read}, Makes (statement fuel) read → read.HasForm
  block : ∀ {statements}, Makes (block fuel) statements → BlockHasForm statements
  conditionalArm : ∀ {arm}, Makes (conditionalArm fuel) arm →
    ∃ condition body, BlockHasForm body ∧ arm = .arm (some condition) body
  moreArms : ∀ {arms}, Makes (moreArms fuel) arms → ArmsHaveForm arms

namespace Formed

theorem statement_succ (ih : Formed fuel) (h : Makes (Parser.statement (fuel + 1)) read) :
    read.HasForm := by
  obtain ⟨placed, rest, h⟩ := h
  cases statement_eq_done h with
  | localNames location name names values => exact .localNames _ (List.cons_ne_nil _ _) values
  | returnValues location values left hplaced => exact .returnValues _ values
  | block location hbody => exact .block _ (ih.block hbody)
  | whileLoop location condition hbody => exact .whileLoop _ condition (ih.block hbody)
  | conditional location hfirst hothers =>
    obtain ⟨condition, body, hbody, rfl⟩ := ih.conditionalArm hfirst
    exact .conditional _ condition hbody (ih.moreArms hothers)
  | breakLoop location => exact .breakLoop _
  | assignmentOrCall location hother => exact hasForm_of_assignmentOrCall hother

theorem block_succ (ih : Formed fuel) {statements : List Statement}
    (h : Makes (Parser.block (fuel + 1)) statements) : BlockHasForm statements := by
  obtain ⟨placed, rest, h⟩ := h
  rcases block_eq_done h with ⟨rfl, -⟩ | ⟨place, left, -, hothers⟩ |
    ⟨first, left, hfirst, ⟨rfl, -⟩ | ⟨hreturn, others, hothers, rfl⟩⟩
  · exact .none
  · exact ih.block ⟨_, _, hothers⟩
  · exact .last (ih.statement ⟨_, _, hfirst⟩)
  · refine .more (ih.statement ⟨_, _, hfirst⟩) ?_ (ih.block ⟨_, _, hothers⟩)
    -- a return has its keyword first, after which no further statement is read
    rintro place values rfl
    obtain ⟨location, left, hplaced⟩ := placed_of_returnValues hfirst
    exact hreturn location left hplaced

theorem conditionalArm_succ (ih : Formed fuel) {arm : Clause}
    (h : Makes (Parser.conditionalArm (fuel + 1)) arm) :
    ∃ condition body, BlockHasForm body ∧ arm = .arm (some condition) body := by
  obtain ⟨placed, rest, h⟩ := h
  obtain ⟨less, condition, body, heq, hbody, rfl⟩ := conditionalArm_eq_done h
  obtain rfl : fuel = less := Nat.succ.inj heq
  exact ⟨condition, body, ih.block hbody, rfl⟩

theorem moreArms_succ (ih : Formed fuel) {arms : List Clause}
    (h : Makes (Parser.moreArms (fuel + 1)) arms) : ArmsHaveForm arms := by
  obtain ⟨placed, rest, h⟩ := h
  obtain ⟨less, heq, ⟨arm, others, harm, hothers, rfl⟩ | ⟨body, hbody, rfl⟩ | rfl⟩ :=
    moreArms_eq_done h
  · obtain rfl : fuel = less := Nat.succ.inj heq
    obtain ⟨condition, body, hbody, rfl⟩ := ih.conditionalArm harm
    exact .more condition hbody (ih.moreArms hothers)
  · obtain rfl : fuel = less := Nat.succ.inj heq
    exact .otherwise (ih.block hbody)
  · exact .none

/-- **Whatever the grammar reads has one of the forms.** -/
theorem all : ∀ fuel, Formed fuel := by
  intro fuel
  induction fuel with
  | zero => constructor <;> rintro _ ⟨_, _, h⟩ <;> cases h
  | succ fuel ih =>
    exact
      { statement := statement_succ ih
        block := block_succ ih
        conditionalArm := conditionalArm_succ ih
        moreArms := moreArms_succ ih }

end Formed

theorem Chunk.hasForm_of_ofTokens {tokens : List PlacedToken} {chunk : Chunk}
    (h : Chunk.ofTokens tokens = .ok chunk) : BlockHasForm chunk := by
  obtain ⟨fuel, hrun⟩ := Chunk.ofTokens_eq_ok_iff.1 h
  exact (Formed.all fuel).block ⟨tokens, [], block_of_chunk hrun⟩

end Script
end ProductionRates
