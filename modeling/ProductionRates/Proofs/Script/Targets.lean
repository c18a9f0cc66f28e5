import ProductionRates.Proofs.Script.DataGrammar

/-!
# What values are assigned to

The tree of a script keeps no parentheses, so a name in parentheses is assigned to like the name
alone.  Here is what this comes to: the exact grammar of the scripts that have a value, and where in
the tokens their targets stand.  Only one thing is not as with names alone.  An assignment that
begins with a parenthesis must not come right after a value that ends with one, which would be
called with what is in the parentheses.

* `Severed`, `severed_statement` — where the reading of an assignment stops;
* `Wraps`, `Wrapped.all` — names that were read, in their parentheses;
* `StandsAsTarget` — a target in the tokens of a script;
* `targets_of_script` — the scripts that have a value, and all their targets.
-/

namespace ProductionRates
namespace Script

open ProductionRates.Script.Parser

variable {tokens others : List Token} {placed left rest : List PlacedToken} {fuel limit : Nat}
  {e : Expression} {place : Option Location} {name : String}

/-! ## Where assignments stop -/

/-- After the suffixes of an expression comes no further one. -/
theorem suffixes_stops {base : Expression} (h : suffixes fuel base placed = .done e rest) :
    Before StopsSuffixes rest := by
  induction fuel generalizing base placed with
  | zero => cases h
  | succ fuel ih =>
    have hcall {place : Option Location} {base : Expression} {tokens : List PlacedToken}
        (hrun : (callArguments fuel >>= fun values => suffixes fuel (.call place base values))
          tokens = .done e rest) : Before StopsSuffixes rest := by
      obtain ⟨values, left, -, hrun⟩ := bind_eq_done_iff.1 hrun
      exact ih hrun
    rw [suffixes] at h
    obtain ⟨next, tokens, hpeek, h⟩ := bind_eq_done_iff.1 h
    cases hpeek
    cases placed with
    | nil =>
      cases h
      exact before_nil
    | cons next placed =>
      obtain ⟨token, location⟩ := next
      cases token with
      | symbol mark =>
        cases mark with
        | dot =>
          obtain ⟨_, tokens, -, h⟩ := bind_eq_done_iff.1 h
          obtain ⟨name, tokens, -, h⟩ := bind_eq_done_iff.1 h
          exact ih h
        | leftBracket =>
          obtain ⟨_, tokens, -, h⟩ := bind_eq_done_iff.1 h
          obtain ⟨index, tokens, -, h⟩ := bind_eq_done_iff.1 h
          obtain ⟨_, tokens, -, h⟩ := bind_eq_done_iff.1 h
          exact ih h
        | colon =>
          obtain ⟨_, tokens, -, h⟩ := bind_eq_done_iff.1 h
          obtain ⟨name, tokens, -, h⟩ := bind_eq_done_iff.1 h
          exact hcall h
        | leftParen | leftBrace => exact hcall h
        | _ =>
          cases h
          exact before_cons.2 rfl
      | quoted raw => exact hcall h
      | _ =>
        cases h
        exact before_cons.2 rfl

/-- No suffix is left, or what was read does not end with a parenthesis. -/
def Severed (placed rest : List PlacedToken) : Prop :=
  Before StopsSuffixes rest ∨ ∃ used last, placed = used ++ last :: rest ∧
    last.token ≠ .symbol .rightParen

theorem Severed.append (h : Severed left rest) (used : List PlacedToken) :
    Severed (used ++ left) rest := by
  refine h.imp_right ?_
  rintro ⟨others, last, rfl, hlast⟩
  exact ⟨used ++ others, last, (List.append_assoc ..).symm, hlast⟩

/-- After the parenthesis that ends what was read stands no other. -/
theorem Severed.apart {used : List PlacedToken} (h : Severed (used ++ left) left)
    (hend : EndsInParen (used.map PlacedToken.token)) : Before StopsSuffixes left := by
  refine h.resolve_right ?_
  rintro ⟨others, last, heq, hlast⟩
  have hused : used = others ++ [last] := by
    refine List.append_cancel_right (heq.trans ?_)
    rw [List.append_assoc, List.singleton_append]
  rw [hused, EndsInParen, List.getLast?_map, List.getLast?_append] at hend
  exact hlast (by simpa using hend)

theorem severed_suffixed (h : suffixed fuel placed = .done e rest) : Severed placed rest := by
  cases fuel with
  | zero => cases h
  | succ fuel =>
    rw [suffixed] at h
    obtain ⟨base, left, -, h⟩ := bind_eq_done_iff.1 h
    exact .inl (suffixes_stops h)

theorem severed_one {next : PlacedToken} (h : next.token ≠ .symbol .rightParen) :
    Severed (next :: rest) rest := .inr ⟨[], next, rfl, h⟩

theorem severed_table {kind : Kind} (h : table fuel placed = .done e rest)
    (hliteral : IsLiteral e kind) : Severed placed rest := by
  cases fuel with
  | zero => cases h
  | succ fuel =>
    rw [Parser.table] at h
    obtain ⟨location, left, hopening, hafter⟩ := bind_eq_done_iff.1 h
    obtain ⟨fields, tokens, hfields, hlast⟩ := bind_eq_done_iff.1 hafter
    obtain ⟨closing, others, hclosing, hdone⟩ := bind_eq_done_iff.1 hlast
    cases hdone
    rw [expectSymbol_eq_done hclosing] at hfields
    rw [expectSymbol_eq_done hopening]
    cases hliteral with
    | table _ hfields' =>
      obtain ⟨used, rfl, -⟩ := (Spelled.all fuel).fields hfields hfields'
      exact ((severed_one (by simp)).append used).append [_]

theorem severed_operand {kind : Kind} (h : operand fuel placed = .done e rest)
    (hliteral : IsLiteral e kind) : Severed placed rest := by
  cases fuel with
  | zero => cases h
  | succ fuel =>
    rw [Parser.operand] at h
    obtain ⟨next, tokens, hpeek, h⟩ := bind_eq_done_iff.1 h
    cases hpeek
    cases placed with
    | nil => cases h
    | cons next placed =>
      obtain ⟨token, location⟩ := next
      cases token with
      | keyword word =>
        cases word with
        | nilWord | trueWord | falseWord =>
          cases h
          exact severed_one (by simp)
        | functionWord => cases h
        | _ => exact severed_suffixed h
      | number value | quoted raw =>
        cases h
        exact severed_one (by simp)
      | symbol mark =>
        cases mark with
        | ellipsis =>
          cases h
          exact severed_one (by simp)
        | leftBrace => exact severed_table h hliteral
        | _ => exact severed_suffixed h
      | longBracket => cases h
      | name name => exact severed_suffixed h

theorem severed_expression {kind : Kind} (h : expression fuel limit placed = .done e rest)
    (hliteral : IsLiteral e kind) : Severed placed rest := by
  induction fuel generalizing limit placed e kind with
  | zero => cases h
  | succ fuel ih =>
    cases placed with
    | nil => cases h
    | cons next placed =>
      obtain ⟨token, location⟩ := next
      cases hunary : UnaryOperator.ofToken? token with
      | none =>
        rw [expression_of_operand hunary] at h
        obtain ⟨first, left, hfirst, h⟩ := bind_eq_done_iff.1 h
        obtain ⟨rfl, rfl⟩ := connected_eq_done h (.inl ⟨kind, hliteral⟩)
        exact severed_operand hfirst hliteral
      | some operator =>
        rw [Parser.expression] at h
        obtain ⟨next, tokens, hpeek, h⟩ := bind_eq_done_iff.1 h
        cases hpeek
        simp only [List.head?_cons, hunary] at h
        obtain ⟨_, tokens, hadvance, h⟩ := bind_eq_done_iff.1 h
        cases hadvance
        obtain ⟨argument, left, hargument, h⟩ := bind_eq_done_iff.1 h
        obtain ⟨rfl, rfl⟩ := connected_eq_done h (.inl ⟨kind, hliteral⟩)
        have hsevered : Severed placed left := by
          cases hliteral with
          | negative _ h => exact ih hargument h
          | length _ h => exact ih hargument h
        exact hsevered.append [_]

/-- Further literals leave nothing that goes on from the last of them. -/
theorem severed_moreExpressions {values : List Expression}
    (h : moreExpressions fuel placed = .done values rest)
    (hvalues : ∀ value ∈ values, ∃ kind, IsLiteral value kind) :
    placed = rest ∨ Severed placed rest := by
  induction fuel generalizing placed values with
  | zero => cases h
  | succ fuel ih =>
    rw [moreExpressions] at h
    obtain ⟨given, left, hgiven, hafter⟩ := bind_eq_done_iff.1 h
    rcases eat_eq_done hgiven with ⟨rfl, location, rfl⟩ | ⟨rfl, rfl⟩
    · rw [if_pos rfl] at hafter
      obtain ⟨value, tokens, hvalue, hmore⟩ := bind_eq_done_iff.1 hafter
      obtain ⟨others, last, hothers, hdone⟩ := bind_eq_done_iff.1 hmore
      cases hdone
      obtain ⟨⟨kind, hfirst⟩, hrest⟩ := List.forall_mem_cons.1 hvalues
      have hsevered := severed_expression hvalue hfirst
      obtain ⟨used, rfl, -⟩ := used_literal hvalue ⟨kind, hfirst⟩
      right
      rcases ih hothers hrest with rfl | hlast
      · exact hsevered.append [_]
      · exact (hlast.append used).append [_]
    · cases hafter
      exact .inl rfl

theorem severed_expressions {values : List Expression}
    (h : expressions fuel placed = .done values rest)
    (hvalues : ∀ value ∈ values, ∃ kind, IsLiteral value kind) : Severed placed rest := by
  cases fuel with
  | zero => cases h
  | succ fuel =>
    rw [expressions] at h
    obtain ⟨value, left, hvalue, h⟩ := bind_eq_done_iff.1 h
    obtain ⟨others, last, hothers, hdone⟩ := bind_eq_done_iff.1 h
    cases hdone
    obtain ⟨⟨kind, hfirst⟩, hrest⟩ := List.forall_mem_cons.1 hvalues
    have hsevered := severed_expression hvalue hfirst
    obtain ⟨used, rfl, -⟩ := used_literal hvalue ⟨kind, hfirst⟩
    rcases severed_moreExpressions hothers hrest with rfl | hlast
    · exact hsevered
    · exact hlast.append used

/-- **Right after an assignment that ends with a parenthesis stands no other parenthesis.** -/
theorem severed_statement {read : Statement} (h : statement fuel placed = .done read rest)
    (hdata : read.IsData) : Severed placed rest := by
  cases fuel with
  | zero => cases h
  | succ fuel =>
    cases statement_eq_done h with
    | assignmentOrCall _ hother =>
      obtain ⟨less, first, left, rfl, hfirst, ⟨others, assign, tokens, values, hothers, hvalues,
        rfl⟩ | ⟨-, rfl, -⟩⟩ := assignmentOrCall_eq_done hother
      · cases hdata with
        | assignment _ htargets hliterals =>
          obtain ⟨hname, hnames⟩ := List.forall_mem_cons.1 htargets
          obtain ⟨used, rfl, -⟩ := used_target hfirst hname
          obtain ⟨-, -, more, rfl, -⟩ := used_further readsFurther_moreTargets used_target hothers
            hnames
          exact (((severed_expressions hvalues hliterals).append [_]).append more).append used
      · cases hdata
    | _ => cases hdata

/-- **What is read as data is spelled as a script.** -/
theorem used_script {statements : List Statement} (h : block fuel placed = .done statements rest)
    (hdata : ∀ statement ∈ statements, statement.IsData) : Used SpellsScript placed rest := by
  induction fuel generalizing placed statements with
  | zero => cases h
  | succ fuel ih =>
    rcases block_eq_done h with ⟨rfl, rfl⟩ | ⟨place, left, rfl, hothers⟩ |
      ⟨first, left, hfirst, ⟨rfl, rfl⟩ | ⟨-, others, hothers, rfl⟩⟩
    · exact .nil .none
    · exact (ih hothers hdata).cons fun _ => .semicolon
    · have hstatement := hdata first (List.mem_singleton_self first)
      refine (used_statement hfirst hstatement).imp fun tokens h => ?_
      rw [← List.append_nil tokens]
      exact .assignment h .none (by simp)
    · obtain ⟨hstatement, hstatements⟩ := List.forall_mem_cons.1 hdata
      have hsevered := severed_statement hfirst hstatement
      obtain ⟨used, rfl, hused⟩ := used_statement hfirst hstatement
      obtain ⟨more, rfl, hmore⟩ := ih hothers hstatements
      refine ⟨used ++ more, (List.append_assoc ..).symm, ?_⟩
      rw [List.map_append]
      refine .assignment hused hmore fun hend hopening => ?_
      have hstops := hsevered.apart hend
      cases more with
      | nil => cases hopening
      | cons next more =>
        have hnext : next.token = .symbol .leftParen := Option.some.inj hopening
        have hsuffix := before_cons.1 hstops
        rw [hnext] at hsuffix
        cases hsuffix

/-! ## Names in parentheses -/

/-- The tokens are the name in any number of parentheses. -/
inductive Wraps (next : PlacedToken) : List PlacedToken → Prop where
  | alone : Wraps next [next]
  | parens (opening closing : Location) {tokens : List PlacedToken} (h : Wraps next tokens) :
      Wraps next (⟨.symbol .leftParen, opening⟩ :: (tokens ++ [⟨.symbol .rightParen, closing⟩]))

/-- What was read between some tokens and the rest of them is a name in parentheses. -/
def ReadsName (place : Option Location) (name : String) (placed rest : List PlacedToken) : Prop :=
  ∃ (location : Location) (phrase : List PlacedToken), place = some location ∧
    placed = phrase ++ rest ∧ Wraps ⟨.name name, location⟩ phrase

/-- Names that were read with some fuel stand in the tokens, in parentheses. -/
structure Wrapped (fuel : Nat) : Prop where
  expression : ∀ {limit place name placed rest},
    expression fuel limit placed = .done (.identifier place name) rest →
      ReadsName place name placed rest
  operand : ∀ {place name placed rest},
    operand fuel placed = .done (.identifier place name) rest → ReadsName place name placed rest
  primary : ∀ {place name placed rest},
    primary fuel placed = .done (.identifier place name) rest → ReadsName place name placed rest
  suffixed : ∀ {place name placed rest},
    suffixed fuel placed = .done (.identifier place name) rest → ReadsName place name placed rest

namespace Wrapped

theorem expression_succ (ih : Wrapped fuel)
    (h : Parser.expression (fuel + 1) limit placed = .done (.identifier place name) rest) :
    ReadsName place name placed rest := by
  have hsimple : (Expression.identifier place name).IsSimple := .inr ⟨place, name, rfl⟩
  cases placed with
  | nil => cases h
  | cons next placed =>
    obtain ⟨token, location⟩ := next
    cases hunary : UnaryOperator.ofToken? token with
    | none =>
      rw [expression_of_operand hunary] at h
      obtain ⟨first, left, hfirst, h⟩ := bind_eq_done_iff.1 h
      obtain ⟨rfl, rfl⟩ := connected_eq_done h hsimple
      exact ih.operand hfirst
    | some operator =>
      rw [Parser.expression] at h
      obtain ⟨next, tokens, hpeek, h⟩ := bind_eq_done_iff.1 h
      cases hpeek
      simp only [List.head?_cons, hunary] at h
      obtain ⟨_, tokens, -, h⟩ := bind_eq_done_iff.1 h
      obtain ⟨argument, left, -, h⟩ := bind_eq_done_iff.1 h
      obtain ⟨heq, -⟩ := connected_eq_done h hsimple
      cases heq

theorem table_ne_identifier : table fuel placed ≠ .done (.identifier place name) rest := by
  intro h
  cases fuel with
  | zero => cases h
  | succ fuel =>
    rw [table] at h
    obtain ⟨location, left, -, h⟩ := bind_eq_done_iff.1 h
    obtain ⟨fields, tokens, -, h⟩ := bind_eq_done_iff.1 h
    obtain ⟨closing, others, -, hdone⟩ := bind_eq_done_iff.1 h
    cases hdone

theorem operand_succ (ih : Wrapped fuel)
    (h : Parser.operand (fuel + 1) placed = .done (.identifier place name) rest) :
    ReadsName place name placed rest := by
  rw [Parser.operand] at h
  obtain ⟨next, tokens, hpeek, h⟩ := bind_eq_done_iff.1 h
  cases hpeek
  cases placed with
  | nil => cases h
  | cons next placed =>
    obtain ⟨token, location⟩ := next
    cases token with
    | keyword word => cases word <;> first | cases h | exact ih.suffixed h
    | symbol mark =>
      cases mark with
      | leftBrace => exact absurd h table_ne_identifier
      | _ => first | cases h | exact ih.suffixed h
    | name _ => exact ih.suffixed h
    | _ => cases h

theorem primary_succ (ih : Wrapped fuel)
    (h : Parser.primary (fuel + 1) placed = .done (.identifier place name) rest) :
    ReadsName place name placed rest := by
  rw [Parser.primary] at h
  obtain ⟨next, tokens, hpeek, h⟩ := bind_eq_done_iff.1 h
  cases hpeek
  cases placed with
  | nil => cases h
  | cons next placed =>
    obtain ⟨token, location⟩ := next
    cases token with
    | name name =>
      cases h
      exact ⟨location, _, rfl, rfl, .alone⟩
    | symbol mark =>
      cases mark with
      | leftParen =>
        obtain ⟨_, tokens, hadvance, h⟩ := bind_eq_done_iff.1 h
        cases hadvance
        obtain ⟨inner, left, hinner, h⟩ := bind_eq_done_iff.1 h
        obtain ⟨closing, tokens, hclosing, h⟩ := bind_eq_done_iff.1 h
        cases h
        obtain rfl := expectSymbol_eq_done hclosing
        obtain ⟨found, phrase, rfl, rfl, hwraps⟩ := ih.expression hinner
        exact ⟨found, _, rfl, by simp, .parens location closing hwraps⟩
      | _ => cases h
    | _ => cases h

theorem suffixed_succ (ih : Wrapped fuel)
    (h : Parser.suffixed (fuel + 1) placed = .done (.identifier place name) rest) :
    ReadsName place name placed rest := by
  rw [Parser.suffixed] at h
  obtain ⟨base, left, hbase, h⟩ := bind_eq_done_iff.1 h
  obtain ⟨rfl, rfl⟩ := suffixes_eq_done h (.inr ⟨place, name, rfl⟩)
  exact ih.primary hbase

/-- **Names that are read stand in the tokens, in parentheses.** -/
theorem all : ∀ fuel, Wrapped fuel := by
  intro fuel
  induction fuel with
  | zero => constructor <;> intros <;> contradiction
  | succ fuel ih =>
    exact
      { expression := expression_succ ih
        operand := operand_succ ih
        primary := primary_succ ih
        suffixed := suffixed_succ ih }

end Wrapped

/-! ## Targets in the tokens -/

/-- The target is a name that stands in the tokens, in parentheses or not: right after the start, a
semicolon, an assignment or a comma, and right before a comma or an equals sign. -/
def StandsAsTarget (tokens : List PlacedToken) (target : Expression) : Prop :=
  ∃ (location : Location) (name : String) (before phrase after : List PlacedToken),
    target = .identifier location name ∧ tokens = before ++ (phrase ++ after) ∧
      Wraps ⟨.name name, location⟩ phrase ∧
      (SpellsData SpellsName (before.map PlacedToken.token) ∨
        ∃ comma ∈ before.getLast?, comma.token = .symbol .comma) ∧
      ∃ next ∈ after.head?, next.token = .symbol .comma ∨ next.token = .symbol .assign

theorem SpellsData.append {target : List Token → Prop} (h : SpellsData target tokens)
    (hothers : SpellsData target others) : SpellsData target (tokens ++ others) := by
  induction h with
  | none => exact hothers
  | semicolon _ ih => exact .semicolon ih
  | assignment h _ ih =>
    rw [List.append_assoc]
    exact .assignment h ih

/-- Further targets stand in the tokens, and before each a comma. -/
theorem stands_moreTargets {targets : List Expression} {equals : Location}
    (h : moreTargets fuel placed = .done targets (⟨.symbol .assign, equals⟩ :: rest))
    (hnames : ∀ target ∈ targets, ∃ place name, target = .identifier place name)
    (before : List PlacedToken) :
    (∃ next ∈ placed.head?, next.token = .symbol .comma ∨ next.token = .symbol .assign) ∧
      ∀ target ∈ targets, StandsAsTarget (before ++ placed) target := by
  induction fuel generalizing before placed targets with
  | zero => cases h
  | succ fuel ih =>
    rw [moreTargets] at h
    obtain ⟨given, left, hgiven, hafter⟩ := bind_eq_done_iff.1 h
    rcases eat_eq_done hgiven with ⟨rfl, location, rfl⟩ | ⟨rfl, rfl⟩
    · rw [if_pos rfl] at hafter
      obtain ⟨target, tokens, htarget, hmore⟩ := bind_eq_done_iff.1 hafter
      obtain ⟨others, last, hothers, hdone⟩ := bind_eq_done_iff.1 hmore
      cases hdone
      obtain ⟨⟨place, name, rfl⟩, hrest⟩ := List.forall_mem_cons.1 hnames
      obtain ⟨found, phrase, rfl, rfl, hwraps⟩ := (Wrapped.all fuel).suffixed htarget
      obtain ⟨hnext, hstand⟩ := ih hothers hrest (before ++ ⟨.symbol .comma, location⟩ :: phrase)
      refine ⟨⟨_, rfl, .inl rfl⟩, List.forall_mem_cons.2 ⟨?_, fun target htarget => ?_⟩⟩
      · exact ⟨found, name, before ++ [⟨.symbol .comma, location⟩], phrase, tokens, rfl, by simp,
          hwraps, .inr ⟨_, List.getLast?_concat, rfl⟩, hnext⟩
      · simpa using hstand target htarget
    · cases hafter
      exact ⟨⟨_, rfl, .inr rfl⟩, by simp⟩

theorem stands_statement {read : Statement} {before : List PlacedToken}
    (hbefore : SpellsData SpellsName (before.map PlacedToken.token))
    (h : statement fuel placed = .done read rest) (hdata : read.IsData) :
    ∃ location targets values, read = .assignment location targets values ∧
      ∀ target ∈ targets, StandsAsTarget (before ++ placed) target := by
  cases fuel with
  | zero => cases h
  | succ fuel =>
    cases statement_eq_done h with
    | assignmentOrCall _ hother =>
      obtain ⟨less, first, left, rfl, hfirst, ⟨others, assign, tokens, values, hothers, hvalues,
        rfl⟩ | ⟨-, rfl, -⟩⟩ := assignmentOrCall_eq_done hother
      · cases hdata with
        | assignment _ htargets hliterals =>
          obtain ⟨⟨place, name, rfl⟩, hnames⟩ := List.forall_mem_cons.1 htargets
          obtain ⟨found, phrase, rfl, rfl, hwraps⟩ := (Wrapped.all less).suffixed hfirst
          obtain ⟨hnext, hstand⟩ := stands_moreTargets hothers hnames (before ++ phrase)
          refine ⟨_, _, _, rfl, List.forall_mem_cons.2 ⟨?_, fun target htarget => ?_⟩⟩
          · exact ⟨found, name, before, phrase, left, rfl, rfl, hwraps, .inl hbefore, hnext⟩
          · simpa using hstand target htarget
      · cases hdata
    | _ => cases hdata

/-- **Every statement that is read as data is an assignment, and its targets stand in the tokens.** -/
theorem stands_block {statements : List Statement} {before : List PlacedToken}
    (hbefore : SpellsData SpellsName (before.map PlacedToken.token))
    (h : block fuel placed = .done statements rest)
    (hdata : ∀ statement ∈ statements, statement.IsData) :
    ∀ statement ∈ statements, ∃ location targets values,
      statement = .assignment location targets values ∧
        ∀ target ∈ targets, StandsAsTarget (before ++ placed) target := by
  induction fuel generalizing before placed statements with
  | zero => cases h
  | succ fuel ih =>
    rcases block_eq_done h with ⟨rfl, rfl⟩ | ⟨place, left, rfl, hothers⟩ |
      ⟨first, left, hfirst, ⟨rfl, rfl⟩ | ⟨-, others, hothers, rfl⟩⟩
    · simp
    · have hmore : SpellsData SpellsName
          ((before ++ [PlacedToken.mk (.symbol .semicolon) place]).map PlacedToken.token) := by
        rw [List.map_append]
        exact hbefore.append (.semicolon .none)
      simpa using ih hmore hothers hdata
    · exact List.forall_mem_singleton.2
        (stands_statement hbefore hfirst (hdata first (List.mem_singleton_self first)))
    · obtain ⟨hstatement, hstatements⟩ := List.forall_mem_cons.1 hdata
      refine List.forall_mem_cons.2 ⟨stands_statement hbefore hfirst hstatement, ?_⟩
      obtain ⟨used, rfl, hused⟩ := used_statement hfirst hstatement
      have hmore : SpellsData SpellsName ((before ++ used).map PlacedToken.token) := by
        rw [List.map_append, ← List.append_nil (used.map _)]
        exact hbefore.append (.assignment hused .none)
      simpa using ih hmore hothers hstatements

/-- **The scripts that have a value are assignments of literals to names in parentheses**, with no
opening parenthesis right after a value that ends with a closing one.  All targets of such a script
stand in its tokens as names in any number of parentheses, right after the start, a semicolon, an
assignment or a comma, and right before a comma or an equals sign. -/
theorem targets_of_script {source : String} {tokens : List PlacedToken}
    (h : Token.scan source = .ok tokens) (name : String) :
    ((∃ chunk, Chunk.parse source = .ok chunk ∧ ∃ value, chunk.evaluate name = .ok value) ↔
        SpellsScript (tokens.map PlacedToken.token)) ∧
      ∀ chunk, Chunk.parse source = .ok chunk → (∃ value, chunk.evaluate name = .ok value) →
        ∀ statement ∈ chunk, ∃ location targets values,
          statement = .assignment location targets values ∧
            ∀ target ∈ targets, StandsAsTarget tokens target := by
  have hparse : Chunk.parse source = Chunk.ofTokens tokens := by
    rw [Chunk.parse, h]
    rfl
  rw [hparse]
  refine ⟨⟨?_, fun hspells => ?_⟩, fun chunk hchunk hvalue => ?_⟩
  · rintro ⟨chunk, hchunk, hvalue⟩
    obtain ⟨fuel, hrun⟩ := Chunk.ofTokens_eq_ok_iff.1 hchunk
    obtain ⟨used, heq, hspells⟩ :=
      used_script (block_of_chunk hrun) ((chunk.exists_evaluate_iff name).1 hvalue)
    rw [heq, List.append_nil]
    exact hspells
  · obtain ⟨chunk, hchunk, hdata⟩ := (hspells.takes (Token.noNaN_of_scanFrom h)).ofTokens rfl
    exact ⟨chunk, hchunk, (chunk.exists_evaluate_iff name).2 hdata⟩
  · obtain ⟨fuel, hrun⟩ := Chunk.ofTokens_eq_ok_iff.1 hchunk
    have hstart : SpellsData SpellsName (([] : List PlacedToken).map PlacedToken.token) := .none
    exact stands_block hstart (block_of_chunk hrun) ((chunk.exists_evaluate_iff name).1 hvalue)

/-- A number is assigned to a name in parentheses. -/
theorem targets_of_script_parenthesised :
    ∃ tokens, Token.scan "(a) = 1" = .ok tokens ∧
      SpellsScript (tokens.map PlacedToken.token) ∧
      ∃ chunk, Chunk.parse "(a) = 1" = .ok chunk ∧ (∃ value, chunk.evaluate "a" = .ok value) ∧
        ∀ statement ∈ chunk, ∃ location targets values,
          statement = .assignment location targets values ∧
            ∀ target ∈ targets, StandsAsTarget tokens target := by
  obtain ⟨tokens, hscan, number, htokens⟩ :
      ∃ tokens, Token.scan "(a) = 1" = .ok tokens ∧
        ∃ number, tokens.map PlacedToken.token = [.symbol .leftParen, .name "a",
          .symbol .rightParen, .symbol .assign, .number number] := ⟨_, rfl, _, rfl⟩
  have hassignment : SpellsAssignment SpellsName _ :=
    @SpellsAssignment.intro SpellsName [parenthesised [.name "a"]] [[.number number]] (by simp)
      (List.forall_mem_singleton.2 (.parens (.name "a"))) (by simp)
      (List.forall_mem_singleton.2 (.number (.number number)))
  have hspells : SpellsScript (tokens.map PlacedToken.token) := by
    rw [htokens]
    exact .assignment hassignment .none (by simp)
  obtain ⟨hvalue, htargets⟩ := targets_of_script hscan "a"
  obtain ⟨chunk, hchunk, hevaluate⟩ := hvalue.2 hspells
  exact ⟨tokens, hscan, hspells, chunk, hchunk, hevaluate, htargets chunk hchunk hevaluate⟩

end Script
end ProductionRates
