import ProductionRates.Proofs.Script.Continuation
import ProductionRates.Proofs.Script.Literals
import ProductionRates.Proofs.Script.TokenStarts

/-!
# Where nodes and errors stand

The grammar gives every node of a tree the location of one of the tokens that it was read from, and
an error that of the token that does not fit.  This is shown for each notion of the grammar as a
rule on what it keeps: from tokens that satisfy a property, such as to begin where they are said
to, come nodes and errors at places of such tokens.

* `Expression.Placed`, `Statement.Placed` — every node has a location with a property;
* `Parser.Keeps` — what a reader makes of tokens with a property, and rules for readers in a row;
* `Parser.Keeping.all` — every notion of the grammar keeps places, by induction on the fuel;
* `refusal?_position` — what is refused in a tree is refused at a place of one of its nodes;
* `parse_places` — all locations of a script are those of its tokens.
-/

namespace ProductionRates
namespace Script

/-! ## Nodes -/

mutual

/-- Every node of the expression has a location, and that has a property. -/
inductive Expression.Placed (stands : Location → Prop) : Expression → Prop where
  | nil {l : Location} (hl : stands l) : Expression.Placed stands (.nil l)
  | boolean {l : Location} (hl : stands l) (value : Bool) :
      Expression.Placed stands (.boolean l value)
  | number {l : Location} (hl : stands l) (value : Float) :
      Expression.Placed stands (.number l value)
  | string {l : Location} (hl : stands l) (raw : String) : Expression.Placed stands (.string l raw)
  | vararg {l : Location} (hl : stands l) : Expression.Placed stands (.vararg l)
  | identifier {l : Location} (hl : stands l) (name : String) :
      Expression.Placed stands (.identifier l name)
  | table {l : Location} (hl : stands l) {fields : List Field}
      (hfields : ∀ field ∈ fields, Field.Placed stands field) :
      Expression.Placed stands (.table l fields)
  | unary {l : Location} (hl : stands l) (operator : UnaryOperator) {argument : Expression}
      (hargument : Expression.Placed stands argument) :
      Expression.Placed stands (.unary l operator argument)
  | binary {l : Location} (hl : stands l) (operator : BinaryOperator) {left right : Expression}
      (hleft : Expression.Placed stands left) (hright : Expression.Placed stands right) :
      Expression.Placed stands (.binary l operator left right)
  | logical {l : Location} (hl : stands l) (operator : LogicalOperator) {left right : Expression}
      (hleft : Expression.Placed stands left) (hright : Expression.Placed stands right) :
      Expression.Placed stands (.logical l operator left right)
  | member {l : Location} (hl : stands l) {base : Expression}
      (hbase : Expression.Placed stands base) (name : String) :
      Expression.Placed stands (.member l base name)
  | index {l : Location} (hl : stands l) {base index : Expression}
      (hbase : Expression.Placed stands base) (hindex : Expression.Placed stands index) :
      Expression.Placed stands (.index l base index)
  | call {l : Location} (hl : stands l) {base : Expression} (hbase : Expression.Placed stands base)
      {arguments : List Expression}
      (harguments : ∀ argument ∈ arguments, Expression.Placed stands argument) :
      Expression.Placed stands (.call l base arguments)

/-- Every node of the field has a location with a property. -/
inductive Field.Placed (stands : Location → Prop) : Field → Prop where
  | positional {value : Expression} (hvalue : Expression.Placed stands value) :
      Field.Placed stands (.positional value)
  | named (name : String) {value : Expression} (hvalue : Expression.Placed stands value) :
      Field.Placed stands (.named name value)
  | keyed {key value : Expression} (hkey : Expression.Placed stands key)
      (hvalue : Expression.Placed stands value) : Field.Placed stands (.keyed key value)

end

mutual

/-- Every node of the statement has a location, and that has a property. -/
inductive Statement.Placed (stands : Location → Prop) : Statement → Prop where
  | assignment {l : Location} (hl : stands l) {targets values : List Expression}
      (htargets : ∀ target ∈ targets, target.Placed stands)
      (hvalues : ∀ value ∈ values, value.Placed stands) :
      Statement.Placed stands (.assignment l targets values)
  | localNames {l : Location} (hl : stands l) (names : List String) {values : List Expression}
      (hvalues : ∀ value ∈ values, value.Placed stands) :
      Statement.Placed stands (.localNames l names values)
  | call {l : Location} (hl : stands l) {call : Expression} (hcall : call.Placed stands) :
      Statement.Placed stands (.call l call)
  | returnValues {l : Location} (hl : stands l) {values : List Expression}
      (hvalues : ∀ value ∈ values, value.Placed stands) :
      Statement.Placed stands (.returnValues l values)
  | block {l : Location} (hl : stands l) {body : List Statement}
      (hbody : ∀ statement ∈ body, Statement.Placed stands statement) :
      Statement.Placed stands (.block l body)
  | whileLoop {l : Location} (hl : stands l) {condition : Expression}
      (hcondition : condition.Placed stands) {body : List Statement}
      (hbody : ∀ statement ∈ body, Statement.Placed stands statement) :
      Statement.Placed stands (.whileLoop l condition body)
  | conditional {l : Location} (hl : stands l) {clauses : List Clause}
      (hclauses : ∀ clause ∈ clauses, Clause.Placed stands clause) :
      Statement.Placed stands (.conditional l clauses)
  | breakLoop {l : Location} (hl : stands l) : Statement.Placed stands (.breakLoop l)

/-- Every node of the arm has a location with a property. -/
inductive Clause.Placed (stands : Location → Prop) : Clause → Prop where
  | arm {condition : Option Expression} (hcondition : ∀ e ∈ condition, e.Placed stands)
      {body : List Statement} (hbody : ∀ statement ∈ body, Statement.Placed stands statement) :
      Clause.Placed stands (.arm condition body)

end

/-! ## Readers -/

/-- The location is that of a token with a property. -/
def StandsAt (holds : PlacedToken → Prop) (location : Location) : Prop :=
  ∃ token, holds ⟨token, location⟩

/-- The error is that of the grammar at a token with a property: the one that does not fit, or the
first of what is refused. -/
def ParseError.Stands (holds : PlacedToken → Prop) : ParseError → Prop
  | .unrecognised _ _ => False
  | .unexpectedToken found _ location => holds ⟨found, location⟩
  | .unexpectedEnd _ => True
  | .unsupported _ location => StandsAt holds location

namespace Parser

variable {α β : Type} {holds : PlacedToken → Prop} {made : α → Prop} {result : β → Prop}

/-- What was made has a property, and the tokens that are left have theirs; or the error is at such
a token. -/
def Kept (holds : PlacedToken → Prop) (made : α → Prop) : Outcome α → Prop
  | .done value rest => made value ∧ ∀ next ∈ rest, holds next
  | .failed error => error.Stands holds
  | .exhausted => True

/-- Of tokens with a property the reader makes what has another one, and leaves tokens with the
property, or it comes to an error at one of them. -/
def Keeps (holds : PlacedToken → Prop) (made : α → Prop) (p : Parser α) : Prop :=
  ∀ tokens : List PlacedToken, (∀ next ∈ tokens, holds next) → Kept holds made (p tokens)

theorem keeps_pure {value : α} (h : made value) : Keeps holds made (pure value) :=
  fun _ htokens => ⟨h, htokens⟩

theorem keeps_bind {p : Parser α} {f : α → Parser β} (hp : Keeps holds made p)
    (hf : ∀ value, made value → Keeps holds result (f value)) : Keeps holds result (p >>= f) := by
  intro tokens htokens
  have hfirst := hp tokens htokens
  rw [bind_run]
  cases hrun : p tokens with
  | done value rest =>
    rw [hrun] at hfirst
    exact hf value hfirst.1 rest hfirst.2
  | failed error =>
    rw [hrun] at hfirst
    exact hfirst
  | exhausted => trivial

theorem keeps_fail {error : ParseError} (h : error.Stands holds) :
    Keeps holds made (fail error : Parser α) :=
  fun _ _ => h

theorem keeps_exhausted : Keeps holds made (exhausted : Parser α) := fun _ _ => trivial

theorem keeps_unexpected {expected : Expected} :
    Keeps holds made (unexpected expected : Parser α) := by
  intro tokens htokens
  cases tokens with
  | nil => trivial
  | cons next rest => exact htokens next (List.mem_cons_self ..)

theorem keeps_peek : Keeps holds (fun next => ∀ token ∈ next, holds token) peek :=
  fun _ htokens => ⟨fun token htoken => htokens token (List.mem_of_head? htoken), htokens⟩

theorem keeps_advance : Keeps holds (fun _ => True) advance :=
  fun _ htokens => ⟨trivial, fun next hnext => htokens next (List.mem_of_mem_tail hnext)⟩

theorem keeps_eat {mark : Symbol} : Keeps holds (fun _ => True) (eat mark) := by
  intro tokens htokens
  rw [eat.eq_def]
  split
  · split
    · exact ⟨trivial, (List.forall_mem_cons.1 htokens).2⟩
    · exact ⟨trivial, htokens⟩
  · exact ⟨trivial, htokens⟩

theorem keeps_atBlockEnd : Keeps holds (fun _ => True) atBlockEnd := by
  intro tokens htokens
  rw [atBlockEnd.eq_def]
  split <;> exact ⟨trivial, htokens⟩

theorem keeps_atNamedField : Keeps holds (fun _ => True) atNamedField := by
  intro tokens htokens
  rw [atNamedField.eq_def]
  split <;> exact ⟨trivial, htokens⟩

theorem keeps_expectSymbol {mark : Symbol} :
    Keeps holds (StandsAt holds) (expectSymbol mark) := by
  intro tokens htokens
  rw [expectSymbol.eq_def]
  split
  · split
    · obtain ⟨hfirst, hrest⟩ := List.forall_mem_cons.1 htokens
      exact ⟨⟨_, hfirst⟩, hrest⟩
    · exact keeps_unexpected _ htokens
  · exact keeps_unexpected _ htokens

theorem keeps_expectKeyword {word : Keyword} :
    Keeps holds (fun _ => True) (expectKeyword word) := by
  intro tokens htokens
  rw [expectKeyword.eq_def]
  split
  · split
    · exact ⟨trivial, (List.forall_mem_cons.1 htokens).2⟩
    · exact keeps_unexpected _ htokens
  · exact keeps_unexpected _ htokens

theorem keeps_expectName : Keeps holds (fun _ => True) expectName := by
  intro tokens htokens
  rw [expectName.eq_def]
  split
  · exact ⟨trivial, (List.forall_mem_cons.1 htokens).2⟩
  · exact keeps_unexpected _ htokens

/-! ## The notions of the grammar -/

/-- What the notions of the grammar keep when they are given a certain fuel. -/
structure Keeping (holds : PlacedToken → Prop) (fuel : Nat) : Prop where
  moreNames : Keeps holds (fun _ => True) (moreNames fuel)
  block : Keeps holds (∀ statement ∈ ·, statement.Placed (StandsAt holds)) (block fuel)
  statement : Keeps holds (·.Placed (StandsAt holds)) (statement fuel)
  returned : Keeps holds (∀ value ∈ ·, value.Placed (StandsAt holds)) (returned fuel)
  conditionalArm : Keeps holds (·.Placed (StandsAt holds)) (conditionalArm fuel)
  moreArms : Keeps holds (∀ arm ∈ ·, arm.Placed (StandsAt holds)) (moreArms fuel)
  assignmentOrCall : ∀ location, StandsAt holds location →
    Keeps holds (·.Placed (StandsAt holds)) (assignmentOrCall fuel location)
  moreTargets : Keeps holds (∀ target ∈ ·, target.Placed (StandsAt holds)) (moreTargets fuel)
  expressions : Keeps holds (∀ value ∈ ·, value.Placed (StandsAt holds)) (expressions fuel)
  moreExpressions :
    Keeps holds (∀ value ∈ ·, value.Placed (StandsAt holds)) (moreExpressions fuel)
  expression : ∀ limit, Keeps holds (·.Placed (StandsAt holds)) (expression fuel limit)
  connected : ∀ limit left, left.Placed (StandsAt holds) →
    Keeps holds (·.Placed (StandsAt holds)) (connected fuel limit left)
  operand : Keeps holds (·.Placed (StandsAt holds)) (operand fuel)
  primary : Keeps holds (·.Placed (StandsAt holds)) (primary fuel)
  suffixed : Keeps holds (·.Placed (StandsAt holds)) (suffixed fuel)
  suffixes : ∀ base, base.Placed (StandsAt holds) →
    Keeps holds (·.Placed (StandsAt holds)) (suffixes fuel base)
  callArguments : Keeps holds (∀ value ∈ ·, value.Placed (StandsAt holds)) (callArguments fuel)
  table : Keeps holds (·.Placed (StandsAt holds)) (table fuel)
  fields : Keeps holds (∀ field ∈ ·, field.Placed (StandsAt holds)) (fields fuel)
  field : Keeps holds (·.Placed (StandsAt holds)) (field fuel)

namespace Keeping

variable {fuel : Nat}

theorem moreNames_succ (ih : Keeping holds fuel) :
    Keeps holds (fun _ => True) (Parser.moreNames (fuel + 1)) := by
  rw [Parser.moreNames]
  refine keeps_bind keeps_eat fun found _ => ?_
  split
  · refine keeps_bind keeps_expectName fun name _ => ?_
    exact keeps_bind ih.moreNames fun names _ => keeps_pure trivial
  · exact keeps_pure trivial

theorem block_succ (ih : Keeping holds fuel) :
    Keeps holds (∀ statement ∈ ·, statement.Placed (StandsAt holds)) (Parser.block (fuel + 1)) := by
  rw [Parser.block]
  refine keeps_bind keeps_atBlockEnd fun ends _ => ?_
  split
  · exact keeps_pure (List.forall_mem_nil _)
  · refine keeps_bind keeps_eat fun found _ => ?_
    split
    · exact ih.block
    · refine keeps_bind keeps_peek fun first _ => ?_
      refine keeps_bind ih.statement fun statement hstatement => ?_
      split
      · exact keeps_pure (List.forall_mem_singleton.2 hstatement)
      · refine keeps_bind ih.block fun statements hstatements => ?_
        exact keeps_pure (List.forall_mem_cons.2 ⟨hstatement, hstatements⟩)

theorem statement_succ (ih : Keeping holds fuel) :
    Keeps holds (·.Placed (StandsAt holds)) (Parser.statement (fuel + 1)) := by
  rw [Parser.statement]
  refine keeps_bind keeps_peek fun next hnext => ?_
  split
  · exact keeps_unexpected
  · refine keeps_bind keeps_advance fun _ _ => keeps_bind keeps_peek fun second _ => ?_
    have hl := hnext _ rfl
    split
    · exact keeps_fail ⟨_, hl⟩
    · refine keeps_bind keeps_expectName fun name _ => ?_
      refine keeps_bind ih.moreNames fun names _ => ?_
      refine keeps_bind keeps_eat fun found _ => ?_
      split
      · refine keeps_bind ih.expressions fun values hvalues => ?_
        exact keeps_pure (.localNames ⟨_, hl⟩ _ hvalues)
      · exact keeps_pure (.localNames ⟨_, hl⟩ _ (List.forall_mem_nil _))
  · refine keeps_bind keeps_advance fun _ _ => ?_
    refine keeps_bind ih.returned fun values hvalues => ?_
    refine keeps_bind keeps_eat fun _ _ => ?_
    exact keeps_pure (.returnValues ⟨_, hnext _ rfl⟩ hvalues)
  · refine keeps_bind keeps_advance fun _ _ => ?_
    refine keeps_bind ih.block fun body hbody => ?_
    refine keeps_bind keeps_expectKeyword fun _ _ => ?_
    exact keeps_pure (.block ⟨_, hnext _ rfl⟩ hbody)
  · refine keeps_bind keeps_advance fun _ _ => ?_
    refine keeps_bind (ih.expression 0) fun condition hcondition => ?_
    refine keeps_bind keeps_expectKeyword fun _ _ => ?_
    refine keeps_bind ih.block fun body hbody => ?_
    refine keeps_bind keeps_expectKeyword fun _ _ => ?_
    exact keeps_pure (.whileLoop ⟨_, hnext _ rfl⟩ hcondition hbody)
  · refine keeps_bind keeps_advance fun _ _ => ?_
    refine keeps_bind ih.conditionalArm fun first hfirst => ?_
    refine keeps_bind ih.moreArms fun others hothers => ?_
    exact keeps_pure (.conditional ⟨_, hnext _ rfl⟩ (List.forall_mem_cons.2 ⟨hfirst, hothers⟩))
  · refine keeps_bind keeps_advance fun _ _ => ?_
    exact keeps_pure (.breakLoop ⟨_, hnext _ rfl⟩)
  · exact keeps_fail ⟨_, hnext _ rfl⟩
  · exact keeps_fail ⟨_, hnext _ rfl⟩
  · exact keeps_fail ⟨_, hnext _ rfl⟩
  · exact keeps_fail ⟨_, hnext _ rfl⟩
  · exact keeps_fail ⟨_, hnext _ rfl⟩
  · exact ih.assignmentOrCall _ ⟨_, hnext _ rfl⟩

theorem returned_succ (ih : Keeping holds fuel) :
    Keeps holds (∀ value ∈ ·, value.Placed (StandsAt holds)) (Parser.returned (fuel + 1)) := by
  rw [Parser.returned]
  refine keeps_bind keeps_atBlockEnd fun ends _ => ?_
  split
  · exact keeps_pure (List.forall_mem_nil _)
  · refine keeps_bind keeps_peek fun next _ => ?_
    split
    · exact keeps_pure (List.forall_mem_nil _)
    · exact ih.expressions

theorem conditionalArm_succ (ih : Keeping holds fuel) :
    Keeps holds (·.Placed (StandsAt holds)) (Parser.conditionalArm (fuel + 1)) := by
  rw [Parser.conditionalArm]
  refine keeps_bind (ih.expression 0) fun condition hcondition => ?_
  refine keeps_bind keeps_expectKeyword fun _ _ => ?_
  refine keeps_bind ih.block fun body hbody => ?_
  exact keeps_pure (.arm (fun e he => Option.mem_some.1 he ▸ hcondition) hbody)

theorem moreArms_succ (ih : Keeping holds fuel) :
    Keeps holds (∀ arm ∈ ·, arm.Placed (StandsAt holds)) (Parser.moreArms (fuel + 1)) := by
  rw [Parser.moreArms]
  refine keeps_bind keeps_peek fun next _ => ?_
  split
  · refine keeps_bind keeps_advance fun _ _ => ?_
    refine keeps_bind ih.conditionalArm fun arm harm => ?_
    refine keeps_bind ih.moreArms fun arms harms => ?_
    exact keeps_pure (List.forall_mem_cons.2 ⟨harm, harms⟩)
  · refine keeps_bind keeps_advance fun _ _ => ?_
    refine keeps_bind ih.block fun body hbody => ?_
    refine keeps_bind keeps_expectKeyword fun _ _ => ?_
    exact keeps_pure (List.forall_mem_singleton.2 (.arm (by simp) hbody))
  · refine keeps_bind keeps_expectKeyword fun _ _ => ?_
    exact keeps_pure (List.forall_mem_nil _)

theorem assignmentOrCall_succ (ih : Keeping holds fuel) (location : Location)
    (hl : StandsAt holds location) :
    Keeps holds (·.Placed (StandsAt holds)) (Parser.assignmentOrCall (fuel + 1) location) := by
  rw [Parser.assignmentOrCall]
  refine keeps_bind ih.suffixed fun first hfirst => ?_
  refine keeps_bind keeps_peek fun next _ => ?_
  have hassigned : Keeps holds (·.Placed (StandsAt holds)) (do
      let others ← Parser.moreTargets fuel
      let _ ← expectSymbol .assign
      let values ← Parser.expressions fuel
      return .assignment location (first :: others) values : Parser Statement) := by
    refine keeps_bind ih.moreTargets fun others hothers => ?_
    refine keeps_bind keeps_expectSymbol fun _ _ => ?_
    refine keeps_bind ih.expressions fun values hvalues => ?_
    exact keeps_pure (.assignment hl (List.forall_mem_cons.2 ⟨hfirst, hothers⟩) hvalues)
  split
  · exact hassigned
  · exact hassigned
  · split
    · exact keeps_pure (.call hl hfirst)
    · exact keeps_unexpected

theorem moreTargets_succ (ih : Keeping holds fuel) :
    Keeps holds (∀ target ∈ ·, target.Placed (StandsAt holds))
      (Parser.moreTargets (fuel + 1)) := by
  rw [Parser.moreTargets]
  refine keeps_bind keeps_eat fun found _ => ?_
  split
  · refine keeps_bind ih.suffixed fun target htarget => ?_
    refine keeps_bind ih.moreTargets fun targets htargets => ?_
    exact keeps_pure (List.forall_mem_cons.2 ⟨htarget, htargets⟩)
  · exact keeps_pure (List.forall_mem_nil _)

theorem expressions_succ (ih : Keeping holds fuel) :
    Keeps holds (∀ value ∈ ·, value.Placed (StandsAt holds)) (Parser.expressions (fuel + 1)) := by
  rw [Parser.expressions]
  refine keeps_bind (ih.expression 0) fun first hfirst => ?_
  refine keeps_bind ih.moreExpressions fun others hothers => ?_
  exact keeps_pure (List.forall_mem_cons.2 ⟨hfirst, hothers⟩)

theorem moreExpressions_succ (ih : Keeping holds fuel) :
    Keeps holds (∀ value ∈ ·, value.Placed (StandsAt holds))
      (Parser.moreExpressions (fuel + 1)) := by
  rw [Parser.moreExpressions]
  refine keeps_bind keeps_eat fun found _ => ?_
  split
  · refine keeps_bind (ih.expression 0) fun next hnext => ?_
    refine keeps_bind ih.moreExpressions fun others hothers => ?_
    exact keeps_pure (List.forall_mem_cons.2 ⟨hnext, hothers⟩)
  · exact keeps_pure (List.forall_mem_nil _)

theorem expression_succ (ih : Keeping holds fuel) (limit : Nat) :
    Keeps holds (·.Placed (StandsAt holds)) (Parser.expression (fuel + 1) limit) := by
  rw [Parser.expression]
  refine keeps_bind keeps_peek fun next hnext => ?_
  split
  · exact keeps_unexpected
  · split
    · refine keeps_bind keeps_advance fun _ _ => ?_
      refine keeps_bind (ih.expression _) fun argument hargument => ?_
      exact ih.connected _ _ (.unary ⟨_, hnext _ rfl⟩ _ hargument)
    · refine keeps_bind ih.operand fun first hfirst => ?_
      exact ih.connected _ _ hfirst

/-- An operation stands where its connective does. -/
theorem placed_node {connective : Connective} {location : Location} {left right : Expression}
    (hl : StandsAt holds location) (hleft : left.Placed (StandsAt holds))
    (hright : right.Placed (StandsAt holds)) :
    (connective.node location left right).Placed (StandsAt holds) := by
  cases connective with
  | binary operator => exact .binary hl operator hleft hright
  | logical operator => exact .logical hl operator hleft hright

theorem connected_succ (ih : Keeping holds fuel) (limit : Nat) (left : Expression)
    (hleft : left.Placed (StandsAt holds)) :
    Keeps holds (·.Placed (StandsAt holds)) (Parser.connected (fuel + 1) limit left) := by
  rw [Parser.connected]
  refine keeps_bind keeps_peek fun next hnext => ?_
  split
  · exact keeps_pure hleft
  · split
    · exact keeps_pure hleft
    · split
      · exact keeps_pure hleft
      · refine keeps_bind keeps_advance fun _ _ => ?_
        refine keeps_bind (ih.expression _) fun right hright => ?_
        exact ih.connected _ _ (placed_node ⟨_, hnext _ rfl⟩ hleft hright)

theorem operand_succ (ih : Keeping holds fuel) :
    Keeps holds (·.Placed (StandsAt holds)) (Parser.operand (fuel + 1)) := by
  rw [Parser.operand]
  refine keeps_bind keeps_peek fun next hnext => ?_
  split
  · exact keeps_unexpected
  · exact keeps_bind keeps_advance fun _ _ => keeps_pure (.nil ⟨_, hnext _ rfl⟩)
  · exact keeps_bind keeps_advance fun _ _ => keeps_pure (.boolean ⟨_, hnext _ rfl⟩ _)
  · exact keeps_bind keeps_advance fun _ _ => keeps_pure (.boolean ⟨_, hnext _ rfl⟩ _)
  · exact keeps_bind keeps_advance fun _ _ => keeps_pure (.number ⟨_, hnext _ rfl⟩ _)
  · exact keeps_bind keeps_advance fun _ _ => keeps_pure (.string ⟨_, hnext _ rfl⟩ _)
  · exact keeps_bind keeps_advance fun _ _ => keeps_pure (.vararg ⟨_, hnext _ rfl⟩)
  · exact ih.table
  · exact keeps_fail ⟨_, hnext _ rfl⟩
  · exact keeps_fail ⟨_, hnext _ rfl⟩
  · exact ih.suffixed

theorem primary_succ (ih : Keeping holds fuel) :
    Keeps holds (·.Placed (StandsAt holds)) (Parser.primary (fuel + 1)) := by
  rw [Parser.primary]
  refine keeps_bind keeps_peek fun next hnext => ?_
  split
  · exact keeps_bind keeps_advance fun _ _ => keeps_pure (.identifier ⟨_, hnext _ rfl⟩ _)
  · refine keeps_bind keeps_advance fun _ _ => ?_
    refine keeps_bind (ih.expression 0) fun inner hinner => ?_
    exact keeps_bind keeps_expectSymbol fun _ _ => keeps_pure hinner
  · exact keeps_unexpected

theorem suffixed_succ (ih : Keeping holds fuel) :
    Keeps holds (·.Placed (StandsAt holds)) (Parser.suffixed (fuel + 1)) := by
  rw [Parser.suffixed]
  exact keeps_bind ih.primary fun base hbase => ih.suffixes base hbase

theorem suffixes_succ (ih : Keeping holds fuel) (base : Expression)
    (hbase : base.Placed (StandsAt holds)) :
    Keeps holds (·.Placed (StandsAt holds)) (Parser.suffixes (fuel + 1) base) := by
  rw [Parser.suffixes]
  refine keeps_bind keeps_peek fun next hnext => ?_
  have hcalled {location : Location} (hl : StandsAt holds location) :
      Keeps holds (·.Placed (StandsAt holds)) (do
        let values ← Parser.callArguments fuel
        Parser.suffixes fuel (.call location base values) : Parser Expression) :=
    keeps_bind ih.callArguments fun values hvalues => ih.suffixes _ (.call hl hbase hvalues)
  split
  · refine keeps_bind keeps_advance fun _ _ => ?_
    refine keeps_bind keeps_expectName fun name _ => ?_
    exact ih.suffixes _ (.member ⟨_, hnext _ rfl⟩ hbase name)
  · refine keeps_bind keeps_advance fun _ _ => ?_
    refine keeps_bind (ih.expression 0) fun index hindex => ?_
    refine keeps_bind keeps_expectSymbol fun _ _ => ?_
    exact ih.suffixes _ (.index ⟨_, hnext _ rfl⟩ hbase hindex)
  · have hl := hnext _ rfl
    refine keeps_bind keeps_advance fun _ _ => ?_
    refine keeps_bind keeps_expectName fun name _ => ?_
    refine keeps_bind ih.callArguments fun values hvalues => ?_
    exact ih.suffixes _ (.call ⟨_, hl⟩ (.member ⟨_, hl⟩ hbase name) hvalues)
  · exact hcalled ⟨_, hnext _ rfl⟩
  · exact hcalled ⟨_, hnext _ rfl⟩
  · exact hcalled ⟨_, hnext _ rfl⟩
  · exact keeps_pure hbase

theorem callArguments_succ (ih : Keeping holds fuel) :
    Keeps holds (∀ value ∈ ·, value.Placed (StandsAt holds))
      (Parser.callArguments (fuel + 1)) := by
  rw [Parser.callArguments]
  refine keeps_bind keeps_peek fun next hnext => ?_
  split
  · exact keeps_bind ih.table fun argument hargument =>
      keeps_pure (List.forall_mem_singleton.2 hargument)
  · exact keeps_bind keeps_advance fun _ _ =>
      keeps_pure (List.forall_mem_singleton.2 (.string ⟨_, hnext _ rfl⟩ _))
  · refine keeps_bind keeps_expectSymbol fun _ _ => ?_
    refine keeps_bind keeps_eat fun found _ => ?_
    split
    · exact keeps_pure (List.forall_mem_nil _)
    · refine keeps_bind ih.expressions fun values hvalues => ?_
      exact keeps_bind keeps_expectSymbol fun _ _ => keeps_pure hvalues

theorem table_succ (ih : Keeping holds fuel) :
    Keeps holds (·.Placed (StandsAt holds)) (Parser.table (fuel + 1)) := by
  rw [Parser.table]
  refine keeps_bind keeps_expectSymbol fun location hl => ?_
  refine keeps_bind ih.fields fun fields hfields => ?_
  exact keeps_bind keeps_expectSymbol fun _ _ => keeps_pure (.table hl hfields)

theorem fields_succ (ih : Keeping holds fuel) :
    Keeps holds (∀ field ∈ ·, field.Placed (StandsAt holds)) (Parser.fields (fuel + 1)) := by
  rw [Parser.fields]
  refine keeps_bind keeps_peek fun next _ => ?_
  split
  · exact keeps_pure (List.forall_mem_nil _)
  · refine keeps_bind ih.field fun field hfield => ?_
    refine keeps_bind keeps_peek fun separator _ => ?_
    have hmore : Keeps holds (∀ field ∈ ·, field.Placed (StandsAt holds)) (do
        advance
        let others ← Parser.fields fuel
        return field :: others : Parser (List Field)) := by
      refine keeps_bind keeps_advance fun _ _ => ?_
      refine keeps_bind ih.fields fun others hothers => ?_
      exact keeps_pure (List.forall_mem_cons.2 ⟨hfield, hothers⟩)
    split
    · exact hmore
    · exact hmore
    · exact keeps_pure (List.forall_mem_singleton.2 hfield)

theorem field_succ (ih : Keeping holds fuel) :
    Keeps holds (·.Placed (StandsAt holds)) (Parser.field (fuel + 1)) := by
  rw [Parser.field]
  refine keeps_bind keeps_eat fun found _ => ?_
  split
  · refine keeps_bind (ih.expression 0) fun key hkey => ?_
    refine keeps_bind keeps_expectSymbol fun _ _ => keeps_bind keeps_expectSymbol fun _ _ => ?_
    exact keeps_bind (ih.expression 0) fun value hvalue => keeps_pure (.keyed hkey hvalue)
  · refine keeps_bind keeps_atNamedField fun isNamed _ => ?_
    split
    · refine keeps_bind keeps_expectName fun name _ => keeps_bind keeps_advance fun _ _ => ?_
      exact keeps_bind (ih.expression 0) fun value hvalue => keeps_pure (.named name hvalue)
    · exact keeps_bind (ih.expression 0) fun value hvalue => keeps_pure (.positional hvalue)

/-- Every notion of the grammar keeps places, with any fuel. -/
theorem all : ∀ fuel, Keeping holds fuel
  | 0 => by
    constructor
    all_goals
      intros
      exact keeps_exhausted
  | fuel + 1 =>
    have ih := all fuel
    { moreNames := moreNames_succ ih
      block := block_succ ih
      statement := statement_succ ih
      returned := returned_succ ih
      conditionalArm := conditionalArm_succ ih
      moreArms := moreArms_succ ih
      assignmentOrCall := assignmentOrCall_succ ih
      moreTargets := moreTargets_succ ih
      expressions := expressions_succ ih
      moreExpressions := moreExpressions_succ ih
      expression := expression_succ ih
      connected := connected_succ ih
      operand := operand_succ ih
      primary := primary_succ ih
      suffixed := suffixed_succ ih
      suffixes := suffixes_succ ih
      callArguments := callArguments_succ ih
      table := table_succ ih
      fields := fields_succ ih
      field := field_succ ih }

end Keeping

theorem keeps_chunk (fuel : Nat) :
    Keeps holds (∀ statement ∈ ·, statement.Placed (StandsAt holds)) (chunk fuel) := by
  rw [chunk]
  refine keeps_bind (Keeping.all fuel).block fun body hbody => ?_
  refine keeps_bind keeps_peek fun next _ => ?_
  split
  · exact keeps_pure hbody
  · exact keeps_unexpected

end Parser

/-- What is made of tokens, or the error, is at places of the tokens. -/
theorem Chunk.ofTokens_places {holds : PlacedToken → Prop} {tokens : List PlacedToken}
    (htokens : ∀ next ∈ tokens, holds next) :
    match ofTokens tokens with
    | .ok chunk => ∀ statement ∈ chunk, statement.Placed (StandsAt holds)
    | .error error => error.Stands holds := by
  cases h : ofTokens tokens with
  | ok chunk =>
    obtain ⟨fuel, hrun⟩ := ofTokens_eq_ok_iff.1 h
    have hkept := Parser.keeps_chunk fuel tokens htokens
    rw [hrun] at hkept
    exact hkept.1
  | error error =>
    obtain ⟨fuel, hrun⟩ := ofTokens_eq_error_iff.1 h
    have hkept := Parser.keeps_chunk fuel tokens htokens
    rw [hrun] at hkept
    exact hkept

/-! ## Evaluation -/

/-- Where what is refused at a node stands. -/
def Site.location : Site → Option Location
  | .statement node => node.location
  | .target location node => node.location.or location
  | .expression node => node.location
  | .operand location _ _ => location
  | .key location node => node.location.or location

/-- A node is refused where it stands. -/
theorem Site.refusal?_position {source : String} {site : Site} {error : EvaluationError}
    (h : site.refusal? source = some error) : error.position = ⟨source, site.location⟩ := by
  cases site with
  | statement node => cases node <;> cases h <;> rfl
  | target location node => cases node <;> cases h <;> rfl
  | expression node =>
    cases node with
    | unary location operator argument =>
      rw [refusal?] at h
      split at h
      · cases h
      · cases h
        rfl
    | _ => cases h <;> rfl
  | operand location operator argument =>
    obtain ⟨refusal, -, rfl⟩ := Option.map_eq_some_iff.1 h
    rfl
  | key location node =>
    obtain ⟨refusal, -, rfl⟩ := Option.map_eq_some_iff.1 h
    rfl

section Sites

variable {stands : Location → Prop}

theorem Expression.Placed.location {e : Expression} (h : e.Placed stands) :
    ∃ l ∈ e.location, stands l := by
  cases h <;> exact ⟨_, rfl, ‹stands _›⟩

theorem Statement.Placed.location {statement : Statement} (h : statement.Placed stands) :
    ∃ l ∈ statement.location, stands l := by
  cases h <;> exact ⟨_, rfl, ‹stands _›⟩

/-- An expression with a location stands there, wherever it is a part of. -/
theorem Expression.Placed.location_or {e : Expression} (h : e.Placed stands)
    (location : Option Location) : ∃ l ∈ e.location.or location, stands l := by
  obtain ⟨l, hl, hstands⟩ := h.location
  exact ⟨l, by rw [Option.mem_def.1 hl, Option.some_or]; rfl, hstands⟩

mutual

/-- Everything that may be refused in an expression stands where a node of it does. -/
theorem Expression.Placed.sites :
    ∀ {e : Expression}, e.Placed stands → ∀ site ∈ e.sites, ∃ l ∈ site.location, stands l
  | .unary location operator argument, h => by
    intro site hsite
    rw [Expression.sites, List.mem_cons, List.mem_append, List.mem_singleton] at hsite
    cases h with
    | unary hl _ hargument =>
      rcases hsite with rfl | hsite | rfl
      · exact ⟨_, rfl, hl⟩
      · exact hargument.sites site hsite
      · exact ⟨_, rfl, hl⟩
  | .table location fields, h => by
    intro site hsite
    rw [Expression.sites, List.mem_cons] at hsite
    cases h with
    | table hl hfields =>
      rcases hsite with rfl | hsite
      · exact ⟨_, rfl, hl⟩
      · exact placed_fieldsSites _ hfields site hsite
  | .nil _, h => List.forall_mem_singleton.2 h.location
  | .boolean _ _, h => List.forall_mem_singleton.2 h.location
  | .number _ _, h => List.forall_mem_singleton.2 h.location
  | .string _ _, h => List.forall_mem_singleton.2 h.location
  | .vararg _, h => List.forall_mem_singleton.2 h.location
  | .identifier _ _, h => List.forall_mem_singleton.2 h.location
  | .binary _ _ _ _, h => List.forall_mem_singleton.2 h.location
  | .logical _ _ _ _, h => List.forall_mem_singleton.2 h.location
  | .member _ _ _, h => List.forall_mem_singleton.2 h.location
  | .index _ _ _, h => List.forall_mem_singleton.2 h.location
  | .call _ _ _, h => List.forall_mem_singleton.2 h.location

theorem placed_fieldsSites (location : Option Location) :
    ∀ {fields : List Field}, (∀ field ∈ fields, field.Placed stands) →
      ∀ site ∈ fieldsSites location fields, ∃ l ∈ site.location, stands l
  | [], _ => List.forall_mem_nil _
  | field :: fields, h => by
    intro site hsite
    rw [fieldsSites, List.mem_append] at hsite
    obtain ⟨hfield, hfields⟩ := List.forall_mem_cons.1 h
    exact hsite.elim (hfield.sites location site) (placed_fieldsSites location hfields site)

theorem Field.Placed.sites (location : Option Location) :
    ∀ {field : Field}, field.Placed stands →
      ∀ site ∈ field.sites location, ∃ l ∈ site.location, stands l
  | .positional value, .positional hvalue => hvalue.sites
  | .named name value, .named _ hvalue => hvalue.sites
  | .keyed key value, .keyed hkey hvalue => by
    intro site hsite
    rw [Field.sites, List.mem_append, List.mem_cons] at hsite
    rcases hsite with hsite | rfl | hsite
    · exact hkey.sites site hsite
    · exact hkey.location_or location
    · exact hvalue.sites site hsite

end

theorem Statement.Placed.sites {statement : Statement} (h : statement.Placed stands) :
    ∀ site ∈ statement.sites, ∃ l ∈ site.location, stands l := by
  refine List.forall_mem_cons.2 ⟨h.location, ?_⟩
  cases h with
  | assignment hl htargets hvalues =>
    intro site hsite
    rcases List.mem_append.1 hsite with hsite | hsite
    · obtain ⟨target, htarget, rfl⟩ := List.mem_map.1 hsite
      exact (htargets target htarget).location_or _
    · obtain ⟨value, hvalue, hsite⟩ := List.mem_flatMap.1 hsite
      exact (hvalues value hvalue).sites site hsite
  | _ => exact List.forall_mem_nil _

/-- A script whose nodes have locations comes to errors at those. -/
theorem Chunk.position_of_evaluate {source : String} {chunk : Chunk} {error : EvaluationError}
    (hchunk : ∀ statement ∈ chunk, statement.Placed stands)
    (h : chunk.evaluate source = .error error) :
    ∃ l, stands l ∧ error.position = ⟨source, some l⟩ := by
  rw [← errorOf?_eq_some_iff, errorOf?_evaluate, firstRefusal?] at h
  obtain ⟨site, hsite, hrefusal⟩ := List.exists_of_findSome?_eq_some h
  obtain ⟨statement, hstatement, hsite⟩ := List.mem_flatMap.1 hsite
  obtain ⟨l, hl, hstands⟩ := (hchunk statement hstatement).sites site hsite
  rw [Site.refusal?_position hrefusal, Option.mem_def.1 hl]
  exact ⟨l, hstands, rfl⟩

end Sites

/-! ## Scripts -/

/-- A token of the text begins at the location. -/
def IsTokenStart (text : String) (location : Location) : Prop :=
  ∃ token, IsTokenAt text token location

/-- The error stands where in the text the token begins that it is about, or what is no token. -/
def ParseError.IsPlaced (text : String) : ParseError → Prop
  | .unrecognised lexeme location => IsUnrecognisedAt text lexeme location
  | .unexpectedToken found _ location => IsTokenAt text found location
  | .unexpectedEnd _ => True
  | .unsupported _ location => IsTokenStart text location

/-- **All locations of a script are those of its tokens**: where errors of reading it stand, where
every node of its tree does, and where errors of evaluating the tree do.  Every node has one, and so
has every error of evaluation. -/
theorem parse_places (text : String) :
    (∀ error, Chunk.parse text = .error error → error.IsPlaced text) ∧
      ∀ chunk, Chunk.parse text = .ok chunk →
        (∀ statement ∈ chunk, statement.Placed (IsTokenStart text)) ∧
          ∀ name error, chunk.evaluate name = .error error →
            ∃ location, IsTokenStart text location ∧ error.position = ⟨name, some location⟩ := by
  have hscan := Token.scan_places text
  rw [Chunk.parse]
  cases hrun : Token.scan text with
  | error error =>
    rw [hrun] at hscan
    refine ⟨fun cause h => ?_, fun chunk h => by cases h⟩
    cases h
    cases error with
    | unrecognised lexeme location => exact hscan
    | _ => exact hscan.elim
  | ok tokens =>
    rw [hrun] at hscan
    have hplaces := Chunk.ofTokens_places hscan
    refine ⟨fun error (h : Chunk.ofTokens tokens = .error error) => ?_,
      fun chunk (h : Chunk.ofTokens tokens = .ok chunk) => ?_⟩
    · rw [h] at hplaces
      cases error with
      | unrecognised lexeme location => exact hplaces.elim
      | unexpectedEnd expected => trivial
      | _ => exact hplaces
    · rw [h] at hplaces
      exact ⟨hplaces, fun name error => Chunk.position_of_evaluate hplaces⟩

/-- The negative of a truth value is refused at its operator, on the second line; a keyword in place
of a value is refused where it stands. -/
theorem parse_places_negatedTrue :
    ∃ chunk error, Chunk.parse "x = nil\ny = -true" = .ok chunk ∧
      chunk.evaluate "data" = .error error ∧ error.position = ⟨"data", some ⟨2, 5⟩⟩ ∧
      (∀ statement ∈ chunk, statement.Placed (IsTokenStart "x = nil\ny = -true")) ∧
      IsTokenStart "x = nil\ny = -true" ⟨2, 5⟩ ∧
      ∃ refused, Chunk.parse "x = for" = .error refused ∧ refused.IsPlaced "x = for" := by
  obtain ⟨tokens, hscan, htokens⟩ :
      ∃ tokens, Token.scan "x = nil\ny = -true" = .ok tokens ∧ tokens =
        [⟨.name "x", ⟨1, 1⟩⟩, ⟨.symbol .assign, ⟨1, 3⟩⟩, ⟨.keyword .nilWord, ⟨1, 5⟩⟩,
          ⟨.name "y", ⟨2, 1⟩⟩, ⟨.symbol .assign, ⟨2, 3⟩⟩, ⟨.symbol .minus, ⟨2, 5⟩⟩,
          ⟨.keyword .trueWord, ⟨2, 6⟩⟩] := ⟨_, rfl, rfl⟩
  let chunk : Chunk :=
    [.assignment (some ⟨1, 1⟩) [.identifier (some ⟨1, 1⟩) "x"] [.nil (some ⟨1, 5⟩)],
      .assignment (some ⟨2, 1⟩) [.identifier (some ⟨2, 1⟩) "y"]
        [.unary (some ⟨2, 5⟩) .negate (.boolean (some ⟨2, 6⟩) true)]]
  have hparse : Chunk.parse "x = nil\ny = -true" = .ok chunk := by
    have hread : Chunk.ofTokens tokens = .ok chunk :=
      Chunk.ofTokens_eq_ok_iff.2 ⟨9, by rw [htokens]; rfl⟩
    rw [Chunk.parse, hscan]
    exact hread
  have hevaluate : chunk.evaluate "data" =
      .error ⟨.operand .negate "number" "boolean", ⟨"data", some ⟨2, 5⟩⟩⟩ := rfl
  obtain ⟨tokens, hscan, htokens⟩ :
      ∃ tokens, Token.scan "x = for" = .ok tokens ∧ tokens =
        [⟨.name "x", ⟨1, 1⟩⟩, ⟨.symbol .assign, ⟨1, 3⟩⟩, ⟨.keyword .forWord, ⟨1, 5⟩⟩] :=
    ⟨_, rfl, rfl⟩
  have hrefused : Chunk.parse "x = for" =
      .error (.unexpectedToken (.keyword .forWord) .expression ⟨1, 5⟩) := by
    have hread : Chunk.ofTokens tokens =
        .error (.unexpectedToken (.keyword .forWord) .expression ⟨1, 5⟩) :=
      Chunk.ofTokens_eq_error_iff.2 ⟨9, by rw [htokens]; rfl⟩
    rw [Chunk.parse, hscan]
    exact hread
  obtain ⟨hplaced, herrors⟩ := (parse_places _).2 chunk hparse
  obtain ⟨location, hstart, hposition⟩ := herrors "data" _ hevaluate
  cases hposition
  exact ⟨chunk, _, hparse, hevaluate, rfl, hplaced, hstart, _, hrefused,
    (parse_places _).1 _ hrefused⟩

end Script
end ProductionRates
