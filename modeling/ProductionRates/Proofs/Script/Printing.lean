import ProductionRates.Proofs.Script.Forms
import ProductionRates.Proofs.Script.Phrases
import ProductionRates.Proofs.Sequence

/-!
# Writing a tree and reading it back

The tokens of a tree are written with no regard for how tightly operators bind: whatever is operated
on, called, indexed or assigned to stands in parentheses, unless it is a plain name.  Read again,
these tokens give the tree that was written, up to the places of its nodes.

* `Expression.tokens`, `Statement.tokens`, `Statement.tokensOfBlock` — the tokens of a tree;
* `Expression.unplaced`, `Statement.unplaced` — a tree without the places of its nodes;
* `Expression.readsBack`, `Statement.HasForm.readsBack` — the parts of a tree are read as they were
  written;
* `script_reads_back` — so is a whole script.
-/

namespace ProductionRates
namespace Script

/-! ## The tokens of a tree -/

/-- Tokens of an expression in parentheses, unless the expression is a name. -/
def Expression.enclose (e : Expression) (tokens : List Token) : List Token :=
  match e with
  | .identifier _ _ => tokens
  | _ => parenthesised tokens

mutual

/-- The tokens of an expression. -/
def Expression.tokens : Expression → List Token
  | .nil _ => [.keyword .nilWord]
  | .boolean _ value => [.keyword (if value then .trueWord else .falseWord)]
  | .number _ value => [.number value]
  | .string _ raw => [.quoted raw]
  | .vararg _ => [.symbol .ellipsis]
  | .identifier _ name => [.name name]
  | .table _ fields =>
    .symbol .leftBrace :: (separated (Field.tokensOfAll fields) ++ [.symbol .rightBrace])
  | .unary _ operator argument => operator.token :: argument.enclose argument.tokens
  | .binary _ operator left right =>
    left.enclose left.tokens ++
      (Connective.binary operator).token :: right.enclose right.tokens
  | .logical _ operator left right =>
    left.enclose left.tokens ++
      (Connective.logical operator).token :: right.enclose right.tokens
  | .member _ base name => base.enclose base.tokens ++ [.symbol .dot, .name name]
  | .index _ base index =>
    base.enclose base.tokens ++ .symbol .leftBracket :: (index.tokens ++ [.symbol .rightBracket])
  | .call _ base arguments =>
    base.enclose base.tokens ++
      .symbol .leftParen :: (separated (Expression.tokensOfAll arguments) ++ [.symbol .rightParen])

/-- The tokens of expressions, one by one. -/
def Expression.tokensOfAll : List Expression → List (List Token)
  | [] => []
  | e :: others => e.tokens :: Expression.tokensOfAll others

/-- The tokens of a field. -/
def Field.tokens : Field → List Token
  | .positional value => value.tokens
  | .named name value => .name name :: .symbol .assign :: value.tokens
  | .keyed key value =>
    .symbol .leftBracket :: (key.tokens ++ .symbol .rightBracket :: .symbol .assign :: value.tokens)

/-- The tokens of fields, one by one. -/
def Field.tokensOfAll : List Field → List (List Token)
  | [] => []
  | field :: others => field.tokens :: Field.tokensOfAll others

end

/-- The tokens of an expression that is operated on, called, indexed or assigned to. -/
def Expression.enclosed (e : Expression) : List Token := e.enclose e.tokens

theorem Expression.tokensOfAll_eq_map (es : List Expression) :
    Expression.tokensOfAll es = es.map Expression.tokens := by
  induction es with
  | nil => rfl
  | cons e es ih => rw [Expression.tokensOfAll, ih, List.map_cons]

mutual

/-- The tokens of a statement. -/
def Statement.tokens : Statement → List Token
  | .assignment _ targets values =>
    separated (targets.map Expression.enclosed) ++
      .symbol .assign :: separated (values.map Expression.tokens)
  | .localNames _ names [] => .keyword .localWord :: separated (names.map ([.name ·]))
  | .localNames _ names (value :: values) =>
    .keyword .localWord :: (separated (names.map ([.name ·])) ++
      .symbol .assign :: separated ((value :: values).map Expression.tokens))
  | .call _ call => call.tokens
  | .returnValues _ values => .keyword .returnWord :: separated (values.map Expression.tokens)
  | .block _ body =>
    .keyword .doWord :: (Statement.tokensOfBlock body ++ [.keyword .endWord])
  | .whileLoop _ condition body =>
    .keyword .whileWord :: (condition.tokens ++
      .keyword .doWord :: (Statement.tokensOfBlock body ++ [.keyword .endWord]))
  | .conditional _ clauses => Clause.tokensOfArms .ifWord clauses
  | .breakLoop _ => [.keyword .breakWord]

/-- The tokens of a block, with a semicolon between any two statements. -/
def Statement.tokensOfBlock : List Statement → List Token
  | [] => []
  | [statement] => statement.tokens
  | statement :: next :: others =>
    statement.tokens ++ .symbol .semicolon :: Statement.tokensOfBlock (next :: others)

/-- The tokens of an arm, which begins with the given keyword if it has a condition. -/
def Clause.tokens (opening : Keyword) : Clause → List Token
  | .arm (some condition) body =>
    .keyword opening ::
      (condition.tokens ++ .keyword .thenWord :: Statement.tokensOfBlock body)
  | .arm none body => .keyword .elseWord :: Statement.tokensOfBlock body

/-- The tokens of arms, of which the first begins with the given keyword, and of their end. -/
def Clause.tokensOfArms (opening : Keyword) : List Clause → List Token
  | [] => [.keyword .endWord]
  | arm :: others => arm.tokens opening ++ Clause.tokensOfArms .elseifWord others

end

/-! ## Trees without places -/

mutual

/-- An expression without the places of its nodes. -/
def Expression.unplaced : Expression → Expression
  | .nil _ => .nil none
  | .boolean _ value => .boolean none value
  | .number _ value => .number none value
  | .string _ raw => .string none raw
  | .vararg _ => .vararg none
  | .identifier _ name => .identifier none name
  | .table _ fields => .table none (Field.unplacedAll fields)
  | .unary _ operator argument => .unary none operator argument.unplaced
  | .binary _ operator left right => .binary none operator left.unplaced right.unplaced
  | .logical _ operator left right => .logical none operator left.unplaced right.unplaced
  | .member _ base name => .member none base.unplaced name
  | .index _ base index => .index none base.unplaced index.unplaced
  | .call _ base arguments => .call none base.unplaced (Expression.unplacedAll arguments)

/-- Expressions without the places of their nodes. -/
def Expression.unplacedAll : List Expression → List Expression
  | [] => []
  | e :: others => e.unplaced :: Expression.unplacedAll others

/-- A field without the places of its nodes. -/
def Field.unplaced : Field → Field
  | .positional value => .positional value.unplaced
  | .named name value => .named name value.unplaced
  | .keyed key value => .keyed key.unplaced value.unplaced

/-- Fields without the places of their nodes. -/
def Field.unplacedAll : List Field → List Field
  | [] => []
  | field :: others => field.unplaced :: Field.unplacedAll others

end

mutual

/-- A statement without the places of its nodes. -/
def Statement.unplaced : Statement → Statement
  | .assignment _ targets values =>
    .assignment none (Expression.unplacedAll targets) (Expression.unplacedAll values)
  | .localNames _ names values => .localNames none names (Expression.unplacedAll values)
  | .call _ call => .call none call.unplaced
  | .returnValues _ values => .returnValues none (Expression.unplacedAll values)
  | .block _ body => .block none (Statement.unplacedAll body)
  | .whileLoop _ condition body =>
    .whileLoop none condition.unplaced (Statement.unplacedAll body)
  | .conditional _ clauses => .conditional none (Clause.unplacedAll clauses)
  | .breakLoop _ => .breakLoop none

/-- Statements without the places of their nodes. -/
def Statement.unplacedAll : List Statement → List Statement
  | [] => []
  | statement :: others => statement.unplaced :: Statement.unplacedAll others

/-- An arm without the places of its nodes. -/
def Clause.unplaced : Clause → Clause
  | .arm condition body => .arm (condition.map Expression.unplaced) (Statement.unplacedAll body)

/-- Arms without the places of their nodes. -/
def Clause.unplacedAll : List Clause → List Clause
  | [] => []
  | arm :: others => arm.unplaced :: Clause.unplacedAll others

end

theorem Connective.unplaced_node (connective : Connective) (place : Option Location)
    (left right : Expression) : (connective.node place left right).unplaced =
      connective.node none left.unplaced right.unplaced := by
  cases connective <;> rfl

/-! ## Expressions are read back -/

open ProductionRates.Script.Parser

variable {e base key left right : Expression} {es arguments : List Expression}
  {fields : List Field} {place : Option Location}

/-- The tokens of the expression are read as it was written. -/
def Expression.ReadsBack (e : Expression) : Prop :=
  Takes (fun fuel => expression fuel 0) e.tokens StopsExpression (·.unplaced = e.unplaced)

/-- The tokens of the field are read as it was written. -/
def Field.ReadsBack (f : Field) : Prop := Takes field f.tokens StopsField (·.unplaced = f.unplaced)

/-- Expressions that are written one by one, each to be read as it was. -/
def Parts.written (write : Expression → List Token) (es : List Expression) : Parts :=
  es.map fun e => (write e, (·.unplaced = e.unplaced))

theorem Parts.tokens_written (write : Expression → List Token) (es : List Expression) :
    (Parts.written write es).tokens = separated (es.map write) := by
  simp [Parts.tokens, Parts.written, Function.comp_def]

theorem Parts.unplacedAll_of_found {write : Expression → List Token} {values : List Expression}
    (h : (Parts.written write es).Found values) :
    Expression.unplacedAll values = Expression.unplacedAll es := by
  induction es generalizing values with
  | nil =>
    cases h
    rfl
  | cons e es ih =>
    obtain _ | @⟨_, value, _, values, hvalue, hvalues⟩ := h
    show value.unplaced :: Expression.unplacedAll values = e.unplaced :: Expression.unplacedAll es
    rw [show value.unplaced = e.unplaced from hvalue, ih hvalues]

/-- Expressions with commas between them are read back. -/
theorem takes_written (hne : es ≠ []) (h : ∀ e ∈ es, e.ReadsBack) :
    Takes expressions (separated (es.map Expression.tokens)) StopsList
      fun values => Expression.unplacedAll values = Expression.unplacedAll es := by
  rw [← Parts.tokens_written]
  refine (takes_expressions (by simpa [Parts.written] using hne) fun part hpart => ?_).imp
    fun _ => Parts.unplacedAll_of_found
  obtain ⟨e, he, rfl⟩ := List.mem_map.1 hpart
  exact h e he

namespace Expression.ReadsBack

/-- An expression of one token. -/
theorem token {token : Token} (place : Option Location) (make : Option Location → Expression)
    (htokens : (make place).tokens = [token])
    (hmake : ∀ place', (make place').unplaced = (make place).unplaced)
    (hread : ∀ fuel (location : Location) rest, Parser.operand (fuel + 1)
      (⟨token, location⟩ :: rest) = .done (make location) rest) : (make place).ReadsBack := by
  rw [Expression.ReadsBack, htokens]
  exact takes_token (fun location => hmake location) hread

theorem enclosed (h : e.ReadsBack) :
    Takes primary e.enclosed AnyToken (·.unplaced = e.unplaced) := by
  cases e with
  | identifier _ name => exact takes_name fun _ => rfl
  | _ => exact Takes.parenthesised h

/-- An operand in parentheses, or a name. -/
theorem operand (h : e.ReadsBack) :
    Takes Parser.operand e.enclosed StopsSuffixes (·.unplaced = e.unplaced) :=
  h.enclosed.suffixed.operand

theorem call (place : Option Location) (hbase : base.ReadsBack)
    (h : ∀ e ∈ arguments, e.ReadsBack) :
    Takes suffixed (Expression.call place base arguments).tokens StopsSuffixes
      (·.unplaced = (Expression.call place base arguments).unplaced) := by
  show Takes suffixed (base.enclosed ++ .symbol .leftParen ::
    (separated (Expression.tokensOfAll arguments) ++ [.symbol .rightParen])) _ _
  rw [Expression.tokensOfAll_eq_map]
  refine hbase.enclosed.suffixedBy fun found hfound => ?_
  have hcall : Takes callArguments
      (.symbol .leftParen :: (separated (arguments.map Expression.tokens) ++ [.symbol .rightParen]))
      AnyToken fun values => Expression.unplacedAll values = Expression.unplacedAll arguments := by
    by_cases hne : arguments = []
    · subst hne
      exact takes_noArguments rfl
    · exact (takes_written hne h).arguments
  refine hcall.call fun location values hvalues => ?_
  show Expression.call none found.unplaced (Expression.unplacedAll values) =
    .call none base.unplaced (Expression.unplacedAll arguments)
  rw [hfound, hvalues]

theorem member {name : String} (h : base.ReadsBack) :
    (Expression.member place base name).ReadsBack := by
  refine (h.enclosed.suffixedBy fun found hfound =>
    takes_member fun location => ?_).operand.expression
  show Expression.member none found.unplaced name = .member none base.unplaced name
  rw [hfound]

theorem index (hbase : base.ReadsBack) (h : key.ReadsBack) :
    (Expression.index place base key).ReadsBack := by
  refine (hbase.enclosed.suffixedBy fun found hfound =>
    Takes.index h fun location value hvalue => ?_).operand.expression
  show Expression.index none found.unplaced value.unplaced = .index none base.unplaced key.unplaced
  rw [hfound, hvalue]

theorem unary {operator : UnaryOperator} (h : e.ReadsBack) :
    (Expression.unary place operator e).ReadsBack := by
  refine Takes.unary operator h.operand.expression (fun _ h => h.2)
    fun location value hvalue => ?_
  show Expression.unary none operator value.unplaced = .unary none operator e.unplaced
  rw [hvalue]

/-- An operator between two operands. -/
theorem node (connective : Connective) (hleft : left.ReadsBack) (hright : right.ReadsBack) :
    Takes (fun fuel => Parser.expression fuel 0)
      (left.enclosed ++ connective.token :: right.enclosed) StopsExpression
      (·.unplaced = connective.node none left.unplaced right.unplaced) := by
  refine hleft.operand.connected connective hright.operand.expression
    fun location value value' hvalue hvalue' => ?_
  rw [Connective.unplaced_node, hvalue, hvalue']

/-- Fields with commas between them are read back. -/
theorem takesFields_written (h : ∀ f ∈ fields, f.ReadsBack) :
    TakesFields (separated (Field.tokensOfAll fields)) fun values =>
      Field.unplacedAll values = Field.unplacedAll fields := by
  induction fields with
  | nil => exact takesFields_nil rfl
  | cons f fields ih =>
    obtain ⟨hfield, hfields⟩ := List.forall_mem_cons.1 h
    cases fields with
    | nil =>
      show TakesFields (separated [f.tokens]) _
      rw [separated_cons, List.flatMap_nil, List.append_nil]
      refine Takes.lastField hfield fun value hvalue => ?_
      show [value.unplaced] = [f.unplaced]
      rw [hvalue]
    | cons next fields =>
      refine Takes.fields (.inl rfl) hfield (ih hfields) fun value values hvalue hvalues => ?_
      show value.unplaced :: Field.unplacedAll values =
        f.unplaced :: Field.unplacedAll (next :: fields)
      rw [hvalue, hvalues]

theorem table (h : ∀ f ∈ fields, f.ReadsBack) : (Expression.table place fields).ReadsBack := by
  have htable : Takes Parser.table
      (.symbol .leftBrace :: (separated (Field.tokensOfAll fields) ++ [.symbol .rightBrace]))
      AnyToken (·.unplaced = (Expression.table place fields).unplaced) := by
    refine (takesFields_written h).table fun location values hvalues => ?_
    show Expression.table none (Field.unplacedAll values) = .table none (Field.unplacedAll fields)
    rw [hvalues]
  have hoperand : Takes Parser.operand _ StopsSuffixes _ :=
    htable.operandTable.mono fun token _ => .intro token
  exact hoperand.expression

end Expression.ReadsBack

namespace Field.ReadsBack

theorem positional (h : e.ReadsBack) : (Field.positional e).ReadsBack :=
  Takes.positional h fun _ hvalue => congrArg Field.positional hvalue

theorem named (name : String) (h : e.ReadsBack) : (Field.named name e).ReadsBack :=
  Takes.named h fun _ hvalue => congrArg (Field.named name) hvalue

theorem keyed (hkey : key.ReadsBack) (h : e.ReadsBack) : (Field.keyed key e).ReadsBack :=
  Takes.keyed hkey h fun _ _ hfound hvalue => congrArg₂ Field.keyed hfound hvalue

end Field.ReadsBack

mutual

/-- **Every expression is read back.** -/
theorem Expression.readsBack : ∀ e : Expression, e.ReadsBack
  | .nil place => .token place .nil rfl (fun _ => rfl) fun _ _ _ => rfl
  | .boolean place true => .token place (.boolean · true) rfl (fun _ => rfl) fun _ _ _ => rfl
  | .boolean place false => .token place (.boolean · false) rfl (fun _ => rfl) fun _ _ _ => rfl
  | .number place value => .token place (.number · value) rfl (fun _ => rfl) fun _ _ _ => rfl
  | .string place raw => .token place (.string · raw) rfl (fun _ => rfl) fun _ _ _ => rfl
  | .vararg place => .token place .vararg rfl (fun _ => rfl) fun _ _ _ => rfl
  | .identifier _ _ => (takes_name fun _ => rfl).suffixed.operand.expression
  | .table _ fields => .table (Field.readsBack_all fields)
  | .unary _ _ argument => argument.readsBack.unary
  | .binary _ operator left right => .node (.binary operator) left.readsBack right.readsBack
  | .logical _ operator left right => .node (.logical operator) left.readsBack right.readsBack
  | .member _ base _ => base.readsBack.member
  | .index _ base index => base.readsBack.index index.readsBack
  | .call place base arguments =>
    (base.readsBack.call place (Expression.readsBack_all arguments)).operand.expression

theorem Expression.readsBack_all : ∀ es : List Expression, ∀ e ∈ es, e.ReadsBack
  | [] => nofun
  | e :: es => List.forall_mem_cons.2 ⟨e.readsBack, Expression.readsBack_all es⟩

theorem Field.readsBack : ∀ f : Field, f.ReadsBack
  | .positional value => .positional value.readsBack
  | .named name value => .named name value.readsBack
  | .keyed key value => .keyed key.readsBack value.readsBack

theorem Field.readsBack_all : ∀ fields : List Field, ∀ f ∈ fields, f.ReadsBack
  | [] => nofun
  | f :: fields => List.forall_mem_cons.2 ⟨f.readsBack, Field.readsBack_all fields⟩

end

/-! ## Statements are read back -/

variable {s : Statement} {body statements : List Statement} {arms : List Clause}

/-- The tokens that may follow a statement. -/
def Statement.Stops : Statement → Token → Prop
  | .returnValues _ _ => ClosesBlock
  | _ => StopsStatement

theorem Statement.stops_of_ne (h : ∀ location values, s ≠ .returnValues location values) :
    s.Stops = StopsStatement := by
  cases s with
  | returnValues location values => exact absurd rfl (h location values)
  | _ => rfl

/-- What has the nodes of a statement that is no return is none either. -/
theorem Statement.ne_of_unplaced {first : Statement} (h : first.unplaced = s.unplaced)
    (hreturn : ∀ location values, s ≠ .returnValues location values)
    (location : Option Location) (values : List Expression) :
    first ≠ .returnValues location values := by
  rintro rfl
  cases s with
  | returnValues location values => exact hreturn location values rfl
  | _ => cases h

/-- The tokens of the statement are read as it was written. -/
def Statement.ReadsBack (s : Statement) : Prop :=
  Takes statement s.tokens s.Stops (·.unplaced = s.unplaced)

/-- The tokens of the block are read as it was written. -/
def BlockReadsBack (statements : List Statement) : Prop :=
  Takes block (Statement.tokensOfBlock statements) ClosesBlock
    fun found => Statement.unplacedAll found = Statement.unplacedAll statements

/-- The tokens of the arms after the first are read as they were written. -/
def ArmsReadBack (arms : List Clause) : Prop :=
  Takes moreArms (Clause.tokensOfArms .elseifWord arms) AnyToken
    fun found => Clause.unplacedAll found = Clause.unplacedAll arms

theorem takes_values (hne : es ≠ []) :
    Takes expressions (separated (es.map Expression.tokens)) StopsList
      fun values => Expression.unplacedAll values = Expression.unplacedAll es :=
  takes_written hne (Expression.readsBack_all es)

theorem separated_names (name : String) (names : List String) :
    separated ((name :: names).map ([Token.name ·])) =
      .name name :: names.flatMap fun name => [.symbol .comma, .name name] := by
  rw [List.map_cons, separated_cons, List.flatMap_map]
  rfl

/-- A block ends before any arm after the first. -/
theorem leads_tokensOfArms (arms : List Clause) :
    Leads ClosesBlock (Clause.tokensOfArms .elseifWord arms) AnyToken := by
  cases arms with
  | nil => exact .cons rfl
  | cons arm arms =>
    obtain ⟨condition, body⟩ := arm
    cases condition with
    | none => exact .cons rfl
    | some condition => exact .cons rfl

/-- An arm with a condition is read back. -/
theorem takes_writtenArm (condition : Expression) (h : BlockReadsBack body) :
    Takes conditionalArm
      (condition.tokens ++ .keyword .thenWord :: Statement.tokensOfBlock body) ClosesBlock
      (·.unplaced = (Clause.arm (some condition) body).unplaced) := by
  refine condition.readsBack.arm h fun found found' hfound hfound' => ?_
  exact congrArg₂ (fun condition body => Clause.arm (some condition) body) hfound hfound'

namespace Statement.ReadsBack

theorem assignment {targets values : List Expression} (htargets : targets ≠ [])
    (hvalues : values ≠ []) : (Statement.assignment place targets values).ReadsBack := by
  have hread : Takes statement ((Parts.written Expression.enclosed targets).tokens ++
      .symbol .assign :: separated (values.map Expression.tokens)) StopsList
      (·.unplaced = (Statement.assignment place targets values).unplaced) := by
    refine takes_assignment ?_ ?_ (takes_values hvalues) ?_
    · simpa [Parts.written] using htargets
    · intro part hpart
      obtain ⟨e, he, rfl⟩ := List.mem_map.1 hpart
      exact e.readsBack.enclosed.suffixed
    · intro location found found' hfound hfound'
      exact congrArg₂ (Statement.assignment none) (Parts.unplacedAll_of_found hfound) hfound'
  rw [Parts.tokens_written] at hread
  exact hread.mono fun _ hstops => hstops.1

theorem localNames {names : List String} (hnames : names ≠ []) (values : List Expression) :
    (Statement.localNames place names values).ReadsBack := by
  cases names with
  | nil => exact absurd rfl hnames
  | cons name names =>
    cases values with
    | nil =>
      show Takes statement
        (.keyword .localWord :: separated ((name :: names).map ([Token.name ·]))) _ _
      rw [separated_names]
      exact takes_localNames fun location => rfl
    | cons value values =>
      show Takes statement (.keyword .localWord ::
        (separated ((name :: names).map ([Token.name ·])) ++
          .symbol .assign :: separated ((value :: values).map Expression.tokens))) _ _
      rw [separated_names]
      have hvalues := takes_values (List.cons_ne_nil value values)
      refine (hvalues.localNames fun location found hfound => ?_).mono fun _ hstops => hstops.1
      exact congrArg (Statement.localNames none (name :: names)) hfound

theorem call {location : Option Location} (base : Expression) (arguments : List Expression) :
    (Statement.call location (.call place base arguments)).ReadsBack := by
  refine (base.readsBack.call place (Expression.readsBack_all arguments)).callStatement ?_ ?_
  · intro value hvalue
    cases value with
    | call location base arguments => exact ⟨location, base, arguments, rfl⟩
    | _ => cases hvalue
  · intro location value hvalue
    exact congrArg (Statement.call none) hvalue

theorem returnValues (values : List Expression) :
    (Statement.returnValues place values).ReadsBack := by
  cases values with
  | nil => exact takes_return fun location => rfl
  | cons value values =>
    have hvalues := takes_values (List.cons_ne_nil value values)
    exact hvalues.returnValues fun _ _ hfound => congrArg (Statement.returnValues none) hfound

theorem block (h : BlockReadsBack body) : (Statement.block place body).ReadsBack := by
  refine (Takes.doBlock h fun location found hfound => ?_).mono fun token _ => .intro token
  exact congrArg (Statement.block none) hfound

theorem whileLoop (condition : Expression) (h : BlockReadsBack body) :
    (Statement.whileLoop place condition body).ReadsBack := by
  refine (condition.readsBack.whileLoop h fun location found found' hfound hfound' => ?_).mono
    fun token _ => .intro token
  exact congrArg₂ (Statement.whileLoop none) hfound hfound'

theorem conditional (condition : Expression) (h : BlockReadsBack body) (harms : ArmsReadBack arms) :
    (Statement.conditional place (.arm (some condition) body :: arms)).ReadsBack := by
  refine ((takes_writtenArm condition h).conditional harms (leads_tokensOfArms arms)
    fun location arm others harm hothers => ?_).mono fun token _ => .intro token
  exact congrArg (Statement.conditional none) (congrArg₂ List.cons harm hothers)

theorem breakLoop : (Statement.breakLoop place).ReadsBack :=
  (takes_break fun _ => rfl).mono fun token _ => .intro token

theorem more (h : s.ReadsBack) (hreturn : ∀ location values, s ≠ .returnValues location values)
    {others : List Token} (hothers : Takes Parser.block others ClosesBlock
      fun found => Statement.unplacedAll found = Statement.unplacedAll statements)
    (hleads : Leads StopsStatement others ClosesBlock) :
    Takes Parser.block (s.tokens ++ others) ClosesBlock
      fun found => Statement.unplacedAll found = Statement.unplacedAll (s :: statements) := by
  rw [Statement.ReadsBack, stops_of_ne hreturn] at h
  refine h.block (fun first hfirst => ne_of_unplaced hfirst hreturn) hothers hleads ?_
  intro first found hfirst hfound
  exact congrArg₂ List.cons hfirst hfound

/-- A statement that is all of its block. -/
theorem last (h : s.ReadsBack) : BlockReadsBack [s] := by
  by_cases hreturn : ∃ location values, s = .returnValues location values
  -- a return stops at the end of its block only, and other statements before a semicolon too
  · obtain ⟨location, values, rfl⟩ := hreturn
    exact Takes.lastStatement h fun found hfound => congrArg ([·]) hfound
  · have hread := h.more (fun location values heq => hreturn ⟨location, values, heq⟩)
      (takes_block (rfl : Statement.unplacedAll [] = Statement.unplacedAll []))
      ClosesBlock.stopsStatement
    rwa [List.append_nil] at hread

/-- A statement with a semicolon and other statements after it. -/
theorem cons (h : s.ReadsBack) (hreturn : ∀ location values, s ≠ .returnValues location values)
    (hothers : BlockReadsBack statements) : BlockReadsBack (s :: statements) := by
  cases statements with
  | nil => exact h.last
  | cons next statements =>
    exact h.more hreturn hothers.semicolon (.cons ⟨⟨⟨rfl, rfl⟩, by simp⟩, by simp⟩)

end Statement.ReadsBack

theorem ArmsReadBack.otherwise (h : BlockReadsBack body) : ArmsReadBack [.arm none body] := by
  refine Takes.elseArm h fun found hfound => ?_
  exact congrArg (fun body => [Clause.arm none body]) hfound

theorem ArmsReadBack.more (condition : Expression) (h : BlockReadsBack body)
    (harms : ArmsReadBack arms) : ArmsReadBack (.arm (some condition) body :: arms) := by
  refine (takes_writtenArm condition h).elseifArm harms (leads_tokensOfArms arms) ?_
  intro arm others harm hothers
  exact congrArg₂ List.cons harm hothers

mutual

/-- **Every statement that has a form is read back.** -/
theorem Statement.HasForm.readsBack : ∀ {s : Statement}, s.HasForm → s.ReadsBack
  | _, .assignment _ htargets hvalues => .assignment htargets hvalues
  | _, .localNames _ hnames values => .localNames hnames values
  | _, .call _ _ base arguments => .call base arguments
  | _, .returnValues _ values => .returnValues values
  | _, .block _ h => .block h.readsBack
  | _, .whileLoop _ condition h => .whileLoop condition h.readsBack
  | _, .conditional _ condition h hothers => .conditional condition h.readsBack hothers.readsBack
  | _, .breakLoop _ => .breakLoop

theorem BlockHasForm.readsBack : ∀ {statements : List Statement}, BlockHasForm statements →
    BlockReadsBack statements
  | _, .none => takes_block rfl
  | _, .last h => h.readsBack.last
  | _, .more h hreturn hothers => h.readsBack.cons hreturn hothers.readsBack

theorem ArmsHaveForm.readsBack : ∀ {arms : List Clause}, ArmsHaveForm arms → ArmsReadBack arms
  | _, .none => takes_noArms rfl
  | _, .otherwise h => .otherwise h.readsBack
  | _, .more condition h hothers => .more condition h.readsBack hothers.readsBack

end

/-- **Scripts of the grammar's forms are read as they were written, and no others are read**: the
tokens of such a script give the same tree up to the places of its nodes, and the tree of any text
is of these forms. -/
theorem script_reads_back :
    (∀ (chunk : Chunk) (placed : List PlacedToken), BlockHasForm chunk →
        placed.map PlacedToken.token = Statement.tokensOfBlock chunk →
        ∃ found, Chunk.ofTokens placed = .ok found ∧
          Statement.unplacedAll found = Statement.unplacedAll chunk) ∧
      ∀ (source : String) (chunk : Chunk), Chunk.parse source = .ok chunk → BlockHasForm chunk := by
  constructor
  · intro chunk placed hform hplaced
    exact hform.readsBack.ofTokens hplaced
  · intro source chunk hparse
    obtain ⟨tokens, -, hchunk⟩ := exists_of_bind_eq_ok hparse
    exact Chunk.hasForm_of_ofTokens hchunk

/-- A conditional with a call under a condition and a return otherwise is read as it was written. -/
theorem script_reads_back_conditional :
    ∃ (chunk found : Chunk) (placed : List PlacedToken), BlockHasForm chunk ∧
      placed.map PlacedToken.token = Statement.tokensOfBlock chunk ∧
      Chunk.parse "if #(a.b) then f() else return end" = .ok found ∧
      Statement.unplacedAll found = Statement.unplacedAll chunk ∧ BlockHasForm found := by
  obtain ⟨placed, hscan, htokens⟩ :
      ∃ placed, Token.scan "if #(a.b) then f() else return end" = .ok placed ∧
        placed.map PlacedToken.token = [.keyword .ifWord, .symbol .hash, .symbol .leftParen,
          .name "a", .symbol .dot, .name "b", .symbol .rightParen, .keyword .thenWord, .name "f",
          .symbol .leftParen, .symbol .rightParen, .keyword .elseWord, .keyword .returnWord,
          .keyword .endWord] :=
    ⟨_, rfl, rfl⟩
  let condition : Expression := .unary none .length (.member none (.identifier none "a") "b")
  let call : Statement := .call none (.call none (.identifier none "f") [])
  let chunk : Chunk :=
    [.conditional none [.arm (some condition) [call], .arm none [.returnValues none []]]]
  have hform : BlockHasForm chunk :=
    .last (.conditional none condition (.last (.call none none _ _))
      (.otherwise (.last (.returnValues none []))))
  obtain ⟨found, hfound, hunplaced⟩ := script_reads_back.1 chunk placed hform htokens
  have hparse : Chunk.parse "if #(a.b) then f() else return end" = .ok found := by
    rw [Chunk.parse, hscan]
    exact hfound
  have hformed := script_reads_back.2 _ found hparse
  exact ⟨chunk, found, placed, hform, htokens, hparse, hunplaced, hformed⟩

end Script
end ProductionRates
