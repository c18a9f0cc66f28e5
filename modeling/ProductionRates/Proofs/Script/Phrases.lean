import Mathlib.Data.List.Forall2
import ProductionRates.Proofs.Script.Continuation

/-!
# Tokens that are read as a whole

`Takes` says that a reader takes exactly these tokens wherever they stand, as long as what follows
is of a kind, and what it makes of them.  Each notion of the grammar has rules for it, one for each
way in which the notion is written.

* `StopsExpression`, `StopsList`, `StopsField`, `StopsStatement` — tokens at which readings stop;
* `Token.beginsPrimary`, `Token.beginsExpression` — the tokens that readings begin with;
* `UnaryOperator.token`, `Connective.token` — the tokens of operators;
* `Parser.Yields` — what a reader comes to with fuel enough;
* `Parser.Takes`, `Parser.Takes.bind` — readings of whole phrases, one after the other;
* `Parser.Takes.parenthesised`, …, `Parser.TakesFields.table` — the rules for expressions;
* `Parser.takes_assignment`, …, `Parser.Takes.block` — the rules for statements and blocks;
* `Parser.Takes.ofTokens` — a block that is all of the tokens is a script.
-/

namespace ProductionRates
namespace Script

/-! ## What follows -/

/-- Tokens that do not go on with an expression. -/
def StopsExpression (token : Token) : Prop :=
  StopsSuffixes token ∧ Connective.ofToken? token = none

/-- Tokens that do not go on with a list of expressions. -/
def StopsList (token : Token) : Prop := StopsExpression token ∧ token ≠ .symbol .comma

/-- Tokens that do not go on with a field. -/
def StopsField (token : Token) : Prop := StopsExpression token ∧ token ≠ .symbol .assign

/-- Tokens that do not go on with a statement. -/
def StopsStatement (token : Token) : Prop := StopsList token ∧ token ≠ .symbol .assign

/-- Tokens that do not go on with the fields of a table. -/
def StopsFields (token : Token) : Prop :=
  StopsField token ∧ token ≠ .symbol .comma ∧ token ≠ .symbol .semicolon

theorem ClosesBlock.stopsStatement (token : Token) (h : ClosesBlock token) :
    StopsStatement token :=
  ⟨⟨⟨h.closes.1.1, h.closes.2.1⟩, h.closes.1.2⟩, h.closes.2.2.2⟩

theorem ClosesBlock.not_semicolon (token : Token) (h : ClosesBlock token) :
    token ≠ .symbol .semicolon := by
  rintro rfl
  cases h

/-- Before what comes after some tokens, and before these tokens, stands what may follow. -/
def Leads (follows : Token → Prop) (tokens : List Token) (after : Token → Prop) : Prop :=
  match tokens with
  | [] => ∀ token, after token → follows token
  | token :: _ => follows token

theorem Leads.cons {follows after : Token → Prop} {token : Token} {tokens : List Token}
    (h : follows token) : Leads follows (token :: tokens) after := h

theorem Leads.before {follows after : Token → Prop} {placed more : List PlacedToken}
    (h : Leads follows (placed.map PlacedToken.token) after) (hmore : Before after more) :
    Before follows (placed ++ more) := by
  cases placed with
  | nil => exact hmore.mono h
  | cons next placed => exact before_cons.2 h

/-! ## What readings begin with -/

/-- Tokens that begin a primary expression. -/
def Token.beginsPrimary : Token → Bool
  | .name _ | .symbol .leftParen => true
  | _ => false

/-- Tokens that begin an operand. -/
def Token.beginsOperand : Token → Bool
  | .keyword .nilWord | .keyword .trueWord | .keyword .falseWord | .number _ | .quoted _
  | .symbol .ellipsis | .symbol .leftBrace => true
  | token => token.beginsPrimary

/-- Tokens that begin an expression. -/
def Token.beginsExpression (token : Token) : Bool :=
  (UnaryOperator.ofToken? token).isSome || token.beginsOperand

/-- Tokens that begin a field. -/
def Token.beginsField : Token → Bool
  | .symbol .leftBracket => true
  | token => token.beginsExpression

/-- Tokens that begin a statement. -/
def Token.beginsStatement : Token → Bool
  | .keyword .localWord | .keyword .returnWord | .keyword .doWord | .keyword .whileWord
  | .keyword .ifWord | .keyword .breakWord => true
  | token => token.beginsPrimary

theorem ofToken?_of_beginsOperand {token : Token} (h : token.beginsOperand = true) :
    UnaryOperator.ofToken? token = none := by
  cases token with
  | keyword word => cases word <;> first | rfl | cases h
  | symbol mark => cases mark <;> first | rfl | cases h
  | _ => rfl

/-- The first token is one of those that begin something. -/
def Begins (begins : Token → Bool) (tokens : List PlacedToken) : Prop :=
  ∃ next rest, tokens = next :: rest ∧ begins next.token = true

@[simp] theorem begins_cons {begins : Token → Bool} {next : PlacedToken}
    {rest : List PlacedToken} : Begins begins (next :: rest) ↔ begins next.token = true := by
  simp [Begins]

/-! ## Operators -/

/-- The token of an operator before its operand. -/
def UnaryOperator.token : UnaryOperator → Token
  | .negate => .symbol .minus
  | .length => .symbol .hash
  | .not => .keyword .notWord
  | .bitNot => .symbol .tilde

/-- The token of an operator between two operands. -/
def Connective.token : Connective → Token
  | .logical .or => .keyword .orWord
  | .logical .and => .keyword .andWord
  | .binary .lt => .symbol .less
  | .binary .gt => .symbol .greater
  | .binary .le => .symbol .lessEqual
  | .binary .ge => .symbol .greaterEqual
  | .binary .ne => .symbol .notEqual
  | .binary .eq => .symbol .equal
  | .binary .bitOr => .symbol .pipe
  | .binary .bitXor => .symbol .tilde
  | .binary .bitAnd => .symbol .ampersand
  | .binary .shiftLeft => .symbol .shiftLeft
  | .binary .shiftRight => .symbol .shiftRight
  | .binary .concat => .symbol .doubleDot
  | .binary .add => .symbol .plus
  | .binary .sub => .symbol .minus
  | .binary .mul => .symbol .star
  | .binary .div => .symbol .slash
  | .binary .floorDiv => .symbol .doubleSlash
  | .binary .mod => .symbol .percent
  | .binary .pow => .symbol .caret

theorem UnaryOperator.ofToken?_eq_some_iff {token : Token} {operator : UnaryOperator} :
    ofToken? token = some operator ↔ token = operator.token := by
  constructor
  · intro h
    cases token with
    | keyword word =>
      cases word <;> cases h
      rfl
    | symbol mark => cases mark <;> cases h <;> rfl
    | _ => cases h
  · rintro rfl
    cases operator <;> rfl

theorem Connective.ofToken?_token (connective : Connective) :
    ofToken? connective.token = some connective := by
  cases connective with
  | binary operator => cases operator <;> rfl
  | logical operator => cases operator <;> rfl

theorem Connective.beginsSuffix_token (connective : Connective) :
    connective.token.beginsSuffix = false := by
  cases connective with
  | binary operator => cases operator <;> rfl
  | logical operator => cases operator <;> rfl

/-! ## Phrases and lists of them -/

/-- Tokens in parentheses. -/
def parenthesised (tokens : List Token) : List Token :=
  .symbol .leftParen :: (tokens ++ [.symbol .rightParen])

/-- Phrases and what is found of each. -/
abbrev Parts := List (List Token × (Expression → Prop))

/-- The tokens of phrases with commas between them. -/
def Parts.tokens (parts : Parts) : List Token := separated (parts.map Prod.fst)

/-- The tokens of phrases with a comma before each. -/
def Parts.further (parts : Parts) : List Token :=
  parts.flatMap fun part => .symbol .comma :: part.1

/-- Expressions are what is found of the phrases, one by one. -/
def Parts.Found (parts : Parts) (values : List Expression) : Prop :=
  List.Forall₂ (fun part value => part.2 value) parts values

theorem separated_cons (part : List Token) (parts : List (List Token)) :
    separated (part :: parts) = part ++ parts.flatMap (.symbol .comma :: ·) := by
  induction parts generalizing part with
  | nil => simp [separated]
  | cons next parts ih =>
    have hcons : separated (part :: next :: parts) =
        part ++ [.symbol .comma] ++ separated (next :: parts) := List.intercalate_cons_cons
    rw [hcons, ih]
    simp

theorem Parts.tokens_cons (part : List Token × (Expression → Prop)) (parts : Parts) :
    Parts.tokens (part :: parts) = part.1 ++ parts.further := by
  rw [Parts.tokens, List.map_cons, separated_cons, Parts.further, List.flatMap_map]

/-- Phrases of which the same is found. -/
def Parts.all (found : Expression → Prop) (phrases : List (List Token)) : Parts :=
  phrases.map (·, found)

@[simp] theorem Parts.tokens_all (found : Expression → Prop) (phrases : List (List Token)) :
    (Parts.all found phrases).tokens = separated phrases := by
  simp [Parts.tokens, Parts.all, Function.comp_def]

theorem Parts.forall_of_found {found : Expression → Prop} {phrases : List (List Token)}
    {values : List Expression} (h : (Parts.all found phrases).Found values) :
    ∀ value ∈ values, found value := by
  induction phrases generalizing values with
  | nil =>
    cases h
    simp
  | cons phrase phrases ih =>
    obtain _ | ⟨hvalue, hvalues⟩ := h
    exact List.forall_mem_cons.2 ⟨hvalue, ih hvalues⟩

namespace Parser

variable {α β : Type} {fuel limit : Nat} {follows mid : Token → Prop} {p : Nat → Parser α}
  {f : Nat → α → Parser β} {token : Token} {tokens others : List Token} {value : α}
  {found : α → Prop} {last : β → Prop} {placed rest : List PlacedToken} {e : Expression}

theorem primary_begins (h : primary fuel placed = .done e rest) :
    Begins Token.beginsPrimary placed := by
  cases fuel with
  | zero => cases h
  | succ fuel =>
    cases placed with
    | nil => cases h
    | cons next placed =>
      obtain ⟨token, location⟩ := next
      cases token with
      | name name => exact begins_cons.2 rfl
      | symbol mark => cases mark <;> first | exact begins_cons.2 rfl | cases h
      | _ => cases h

theorem suffixed_begins (h : suffixed fuel placed = .done e rest) :
    Begins Token.beginsPrimary placed := by
  cases fuel with
  | zero => cases h
  | succ fuel =>
    rw [suffixed] at h
    obtain ⟨base, left, hbase, -⟩ := bind_eq_done_iff.1 h
    exact primary_begins hbase

theorem operand_begins (h : operand fuel placed = .done e rest) :
    Begins Token.beginsOperand placed := by
  cases fuel with
  | zero => cases h
  | succ fuel =>
    cases placed with
    | nil => cases h
    | cons next placed =>
      obtain ⟨token, location⟩ := next
      have hsuffixed (hrun : suffixed fuel (⟨token, location⟩ :: placed) = .done e rest) :
          token.beginsPrimary = true := begins_cons.1 (suffixed_begins hrun)
      refine begins_cons.2 ?_
      cases token with
      | name name => rfl
      | number x => rfl
      | quoted raw => rfl
      | longBracket => cases h
      | keyword word => cases word <;> first | rfl | cases h | exact hsuffixed h
      | symbol mark => cases mark <;> first | rfl | exact hsuffixed h

theorem expression_begins (h : expression fuel limit placed = .done e rest) :
    Begins Token.beginsExpression placed := by
  cases fuel with
  | zero => cases h
  | succ fuel =>
    cases placed with
    | nil => cases h
    | cons next placed =>
      obtain ⟨token, location⟩ := next
      rw [begins_cons, Token.beginsExpression]
      cases hunary : UnaryOperator.ofToken? token with
      | some operator => rfl
      | none =>
        rw [expression_of_operand hunary] at h
        obtain ⟨first, left, hoperand, -⟩ := bind_eq_done_iff.1 h
        exact begins_cons.1 (operand_begins hoperand)

/-! ## Readings with fuel enough -/

/-- With fuel enough, the reader comes to a value and leaves the rest. -/
def Yields (p : Nat → Parser α) (tokens : List PlacedToken) (value : α)
    (rest : List PlacedToken) : Prop :=
  ∃ bound, ∀ fuel, bound ≤ fuel → p fuel tokens = .done value rest

/-- One more unit of fuel does not matter. -/
theorem yields_succ_iff :
    Yields (fun fuel => p (fuel + 1)) placed value rest ↔ Yields p placed value rest := by
  constructor
  · rintro ⟨bound, hrun⟩
    refine ⟨bound + 1, fun fuel hfuel => ?_⟩
    obtain ⟨fuel, rfl⟩ : ∃ less, fuel = less + 1 := ⟨fuel - 1, by omega⟩
    exact hrun fuel (by omega)
  · rintro ⟨bound, hrun⟩
    exact ⟨bound, fun fuel hfuel => hrun (fuel + 1) (by omega)⟩

theorem yields_of_succ (h : ∀ fuel, p (fuel + 1) placed = .done value rest) :
    Yields p placed value rest :=
  yields_succ_iff.1 ⟨0, fun fuel _ => h fuel⟩

theorem Yields.bind {left : List PlacedToken} {result : β} (h : Yields p placed value left)
    (hf : Yields (fun fuel => f fuel value) left result rest) :
    Yields (fun fuel => p fuel >>= f fuel) placed result rest := by
  obtain ⟨bound, hrun⟩ := h
  obtain ⟨more, hmore⟩ := hf
  refine ⟨max bound more, fun fuel hfuel => ?_⟩
  exact (bind_done (hrun fuel (by omega))).trans (hmore fuel (by omega))

/-! ## Phrases -/

/-- The tokens are read as something found to be so, wherever they stand before tokens of a kind, if
there is fuel enough. -/
def Takes (p : Nat → Parser α) (tokens : List Token) (follows : Token → Prop) (found : α → Prop) :
    Prop :=
  ∀ placed : List PlacedToken, placed.map PlacedToken.token = tokens →
    ∀ more, Before follows more → ∃ value, found value ∧
      ∃ bound, ∀ fuel, bound ≤ fuel → p fuel (placed ++ more) = .done value more

theorem Takes.mono (h : Takes p tokens mid found) (himp : ∀ token, follows token → mid token) :
    Takes p tokens follows found :=
  fun placed hplaced more hmore => h placed hplaced more (hmore.mono himp)

theorem Takes.imp {weaker : α → Prop} (h : Takes p tokens follows found)
    (himp : ∀ value, found value → weaker value) : Takes p tokens follows weaker := by
  intro placed hplaced more hmore
  obtain ⟨value, hvalue, hrun⟩ := h placed hplaced more hmore
  exact ⟨value, himp value hvalue, hrun⟩

/-- One more unit of fuel does not matter. -/
theorem takes_succ_iff : Takes (fun fuel => p (fuel + 1)) tokens follows found ↔
    Takes p tokens follows found := by
  constructor
  · intro h placed hplaced more hmore
    obtain ⟨value, hvalue, hrun⟩ := h placed hplaced more hmore
    exact ⟨value, hvalue, yields_succ_iff.1 hrun⟩
  · intro h placed hplaced more hmore
    obtain ⟨value, hvalue, hrun⟩ := h placed hplaced more hmore
    exact ⟨value, hvalue, yields_succ_iff.2 hrun⟩

/-- Nothing is read before the tokens at which a reader stops. -/
theorem takes_nil (hvalue : found value)
    (h : ∀ fuel rest, Before follows rest → p (fuel + 1) rest = .done value rest) :
    Takes p [] follows found := by
  intro placed hplaced more hmore
  obtain rfl := List.map_eq_nil_iff.1 hplaced
  exact ⟨value, hvalue, yields_of_succ fun fuel => h fuel more hmore⟩

/-- One token is read whatever follows. -/
theorem takes_one {value : Location → α} (hvalue : ∀ location, found (value location))
    (h : ∀ fuel location rest, p (fuel + 1) (⟨token, location⟩ :: rest) =
      .done (value location) rest) : Takes p [token] follows found := by
  intro placed hplaced more _
  obtain ⟨⟨token, location⟩, rfl, rfl⟩ := List.map_eq_singleton_iff.1 hplaced
  exact ⟨value location, hvalue location, yields_of_succ fun fuel => h fuel location more⟩

theorem takes_pure (hvalue : found value) : Takes (fun _ => pure value) [] follows found :=
  takes_nil hvalue fun _ _ _ => rfl

/-- **One phrase after the other.** -/
theorem Takes.bind (hp : Takes p tokens mid found) (hleads : Leads mid others follows)
    (hf : ∀ value, found value → Takes (fun fuel => f fuel value) others follows last) :
    Takes (fun fuel => p fuel >>= f fuel) (tokens ++ others) follows last := by
  intro placed hplaced more hmore
  obtain ⟨before, after, rfl, hbefore, rfl⟩ := List.map_eq_append_iff.1 hplaced
  obtain ⟨value, hvalue, hrun⟩ := hp before hbefore _ (hleads.before hmore)
  obtain ⟨result, hresult, hrest⟩ := hf value hvalue after rfl more hmore
  rw [List.append_assoc]
  exact ⟨result, hresult, Yields.bind hrun hrest⟩

/-- A phrase after one token. -/
theorem Takes.cons (hp : Takes p [token] AnyToken found)
    (hf : ∀ value, found value → Takes (fun fuel => f fuel value) others follows last) :
    Takes (fun fuel => p fuel >>= f fuel) (token :: others) follows last := by
  refine hp.bind ?_ hf
  cases others with
  | nil => exact fun token _ => .intro token
  | cons token others => exact .intro token

/-- A phrase with nothing after it. -/
theorem Takes.stop (hp : Takes p tokens mid found) (himp : ∀ token, follows token → mid token)
    (hf : ∀ value, found value → Takes (fun fuel => f fuel value) [] follows last) :
    Takes (fun fuel => p fuel >>= f fuel) tokens follows last := by
  rw [← List.append_nil tokens]
  exact hp.bind himp hf

/-- What is answered after a phrase. -/
theorem Takes.answer {result : α → β} (hp : Takes p tokens follows found)
    (hresult : ∀ value, found value → last (result value)) :
    Takes (fun fuel => p fuel >>= fun value => pure (result value)) tokens follows last :=
  hp.stop (fun _ h => h) fun value hvalue => takes_pure (hresult value hvalue)

/-- Looking at a phrase before it is read. -/
theorem Takes.look {γ : Type} {q : Parser γ} {f : Nat → γ → Parser β} (answer : γ)
    (hlook : ∀ placed : List PlacedToken, placed.map PlacedToken.token = tokens →
      ∀ more, Before follows more → q (placed ++ more) = .done answer (placed ++ more))
    (h : Takes (fun fuel => f fuel answer) tokens follows last) :
    Takes (fun fuel => q >>= f fuel) tokens follows last := by
  intro placed hplaced more hmore
  obtain ⟨value, hvalue, bound, hrun⟩ := h placed hplaced more hmore
  refine ⟨value, hvalue, bound, fun fuel hfuel => ?_⟩
  dsimp only
  rw [bind_done (hlook placed hplaced more hmore)]
  exact hrun fuel hfuel

/-- Looking at the first token of a phrase. -/
theorem Takes.peek {f : Nat → Option PlacedToken → Parser β}
    (h : ∀ location, Takes (fun fuel => f fuel (some ⟨token, location⟩)) (token :: tokens)
      follows last) :
    Takes (fun fuel => Parser.peek >>= f fuel) (token :: tokens) follows last := by
  intro placed hplaced more hmore
  obtain ⟨⟨token, location⟩, inner, rfl, rfl, hinner⟩ := List.map_eq_cons_iff.1 hplaced
  exact h location _ hplaced more hmore

theorem takes_advance : Takes (fun _ => advance) [token] follows fun _ => True :=
  takes_one (fun _ => trivial) fun _ _ _ => rfl

theorem takes_expectSymbol (mark : Symbol) :
    Takes (fun _ => expectSymbol mark) [.symbol mark] follows fun _ => True :=
  takes_one (fun _ => trivial) fun _ _ _ => expectSymbol_self mark

theorem takes_expectKeyword (word : Keyword) :
    Takes (fun _ => expectKeyword word) [.keyword word] follows fun _ => True :=
  takes_one (fun _ => trivial) fun _ _ _ => if_pos rfl

theorem takes_expectName (name : String) :
    Takes (fun _ => expectName) [.name name] follows (· = name) :=
  takes_one (fun _ => rfl) fun _ _ _ => rfl

theorem takes_eat (mark : Symbol) :
    Takes (fun _ => eat mark) [.symbol mark] follows (· = true) :=
  takes_one (fun _ => rfl) fun _ _ _ => eat_self mark

/-- A symbol that is not there is not eaten. -/
theorem takes_eat_nil {mark : Symbol} (h : ∀ token, follows token → token ≠ .symbol mark) :
    Takes (fun _ => eat mark) [] follows (· = false) := by
  refine takes_nil rfl fun _ rest hrest => ?_
  cases rest with
  | nil => rfl
  | cons next rest => exact eat_of_ne (h _ (before_cons.1 hrest))

/-- A symbol that is not the first of a phrase is not eaten before it. -/
theorem Takes.eat_of_ne {mark : Symbol} {f : Nat → Bool → Parser β}
    (hne : token ≠ .symbol mark)
    (h : Takes (fun fuel => f fuel false) (token :: tokens) follows last) :
    Takes (fun fuel => eat mark >>= f fuel) (token :: tokens) follows last := by
  refine Takes.look false (fun placed hplaced more _ => ?_) h
  obtain ⟨⟨token, location⟩, inner, rfl, rfl, -⟩ := List.map_eq_cons_iff.1 hplaced
  exact Parser.eat_of_ne hne

/-- Tokens can be placed somewhere. -/
theorem exists_placed (tokens : List Token) :
    ∃ placed : List PlacedToken, placed.map PlacedToken.token = tokens :=
  ⟨tokens.map fun token => ⟨token, .start⟩, by simp [Function.comp_def]⟩

/-- The tokens of a phrase begin as its readings do. -/
theorem Takes.begins {begins : Token → Bool} (h : Takes p tokens follows found)
    (hbegins : ∀ {fuel placed value rest}, p fuel placed = .done value rest →
      Begins begins placed) :
    ∃ token others, tokens = token :: others ∧ begins token = true := by
  obtain ⟨placed, rfl⟩ := exists_placed tokens
  obtain ⟨value, -, bound, hrun⟩ := h placed rfl [] before_nil
  obtain ⟨next, rest, heq, hnext⟩ := hbegins (hrun bound (Nat.le_refl bound))
  obtain rfl : placed = next :: rest := by simpa using heq
  exact ⟨next.token, rest.map PlacedToken.token, rfl, hnext⟩

/-! ## Expressions -/

variable {first : Expression → Prop} {result : Expression → Prop}

theorem takes_name {name : String}
    (h : ∀ location : Location, first (.identifier location name)) :
    Takes primary [.name name] AnyToken first :=
  takes_one h fun _ _ _ => rfl

/-- An expression in parentheses. -/
theorem Takes.parenthesised
    (h : Takes (fun fuel => expression fuel 0) tokens StopsExpression first) :
    Takes primary (Script.parenthesised tokens) AnyToken first := by
  refine takes_succ_iff.1 ?_
  simp only [primary, Script.parenthesised]
  refine Takes.peek fun location => takes_advance.cons fun _ _ => ?_
  refine h.bind (.cons ⟨rfl, rfl⟩) fun inner hinner => ?_
  exact (takes_expectSymbol .rightParen).answer fun _ _ => hinner

theorem takes_suffixes (base : Expression) (h : first base) :
    Takes (fun fuel => suffixes fuel base) [] StopsSuffixes first := by
  refine takes_nil h fun fuel rest hrest => ?_
  cases rest with
  | nil => rfl
  | cons next rest =>
    obtain ⟨token, location⟩ := next
    have hstops : token.beginsSuffix = false := before_cons.1 hrest
    cases token with
    | symbol mark => cases mark <;> first | rfl | cases hstops
    | quoted raw => cases hstops
    | _ => rfl

/-- A primary expression with suffixes. -/
theorem Takes.suffixedBy (h : Takes primary tokens AnyToken first)
    (hsuffixes : ∀ base, first base →
      Takes (fun fuel => suffixes fuel base) others StopsSuffixes result) :
    Takes suffixed (tokens ++ others) StopsSuffixes result := by
  refine takes_succ_iff.1 ?_
  simp only [suffixed]
  refine h.bind ?_ hsuffixes
  cases others with
  | nil => exact fun token _ => .intro token
  | cons token others => exact .intro token

/-- A primary expression without suffixes. -/
theorem Takes.suffixed (h : Takes primary tokens AnyToken first) :
    Takes suffixed tokens StopsSuffixes first := by
  rw [← List.append_nil tokens]
  exact h.suffixedBy fun base hbase => takes_suffixes base hbase

theorem takes_member {base : Expression} {name : String}
    (h : ∀ location : Location, result (.member location base name)) :
    Takes (fun fuel => suffixes fuel base) [.symbol .dot, .name name] StopsSuffixes result := by
  refine takes_succ_iff.1 ?_
  simp only [suffixes]
  refine Takes.peek fun location => takes_advance.cons fun _ _ => ?_
  refine (takes_expectName name).cons ?_
  rintro _ rfl
  exact takes_suffixes _ (h location)

theorem Takes.index {base : Expression}
    (hindex : Takes (fun fuel => expression fuel 0) tokens StopsExpression first)
    (h : ∀ (location : Location) index, first index → result (.index location base index)) :
    Takes (fun fuel => suffixes fuel base)
      (.symbol .leftBracket :: (tokens ++ [.symbol .rightBracket])) StopsSuffixes result := by
  refine takes_succ_iff.1 ?_
  simp only [suffixes]
  refine Takes.peek fun location => takes_advance.cons fun _ _ => ?_
  refine hindex.bind (.cons ⟨rfl, rfl⟩) fun index hvalue => ?_
  exact (takes_expectSymbol .rightBracket).cons fun _ _ =>
    takes_suffixes _ (h location index hvalue)

variable {several : List Expression → Prop}

/-- A call with arguments in parentheses. -/
theorem Takes.call {base : Expression}
    (harguments : Takes callArguments (.symbol .leftParen :: tokens) AnyToken several)
    (h : ∀ (location : Location) values, several values → result (.call location base values)) :
    Takes (fun fuel => suffixes fuel base) (.symbol .leftParen :: tokens) StopsSuffixes result := by
  refine takes_succ_iff.1 ?_
  simp only [suffixes]
  refine Takes.peek fun location => ?_
  exact harguments.stop (fun token _ => .intro token) fun values hvalues =>
    takes_suffixes _ (h location values hvalues)

theorem takes_noArguments (h : several []) :
    Takes callArguments [.symbol .leftParen, .symbol .rightParen] AnyToken several := by
  refine takes_succ_iff.1 ?_
  simp only [callArguments]
  refine Takes.peek fun location => (takes_expectSymbol .leftParen).cons fun _ _ => ?_
  refine (takes_eat .rightParen).cons ?_
  rintro _ rfl
  exact takes_pure h

theorem expressions_begins {values : List Expression}
    (h : expressions fuel placed = .done values rest) : Begins Token.beginsExpression placed := by
  cases fuel with
  | zero => cases h
  | succ fuel =>
    rw [expressions] at h
    obtain ⟨value, left, hfirst, -⟩ := bind_eq_done_iff.1 h
    exact expression_begins hfirst

theorem Takes.arguments (h : Takes expressions tokens StopsList several) :
    Takes callArguments (.symbol .leftParen :: (tokens ++ [.symbol .rightParen])) AnyToken
      several := by
  obtain ⟨token, others, rfl, hbegins⟩ := h.begins expressions_begins
  have hne : token ≠ .symbol .rightParen := by
    rintro rfl
    cases hbegins
  refine takes_succ_iff.1 ?_
  simp only [callArguments]
  refine Takes.peek fun location => (takes_expectSymbol .leftParen).cons fun _ _ => ?_
  refine Takes.eat_of_ne hne ?_
  refine h.bind (.cons ⟨⟨rfl, rfl⟩, by simp⟩) fun values hvalues => ?_
  exact (takes_expectSymbol .rightParen).answer fun _ _ => hvalues

/-- An operand of one token. -/
theorem takes_operand {make : Location → Expression} (h : ∀ location, result (make location))
    (hread : ∀ fuel location rest, operand (fuel + 1) (⟨token, location⟩ :: rest) =
      .done (make location) rest) : Takes operand [token] AnyToken result :=
  takes_one h hread

theorem Takes.operand (h : Takes Parser.suffixed tokens StopsSuffixes first) :
    Takes operand tokens StopsSuffixes first := by
  obtain ⟨token, others, rfl, hbegins⟩ := h.begins suffixed_begins
  refine takes_succ_iff.1 ?_
  simp only [Parser.operand]
  refine Takes.peek fun location => ?_
  cases token with
  | name name => exact h
  | symbol mark => cases mark <;> first | exact h | cases hbegins
  | _ => cases hbegins

theorem Takes.operandTable (h : Takes Parser.table (.symbol .leftBrace :: tokens) AnyToken first) :
    Takes Parser.operand (.symbol .leftBrace :: tokens) AnyToken first := by
  refine takes_succ_iff.1 ?_
  simp only [Parser.operand]
  exact Takes.peek fun location => h

theorem takes_connected {left : Expression}
    (hfollows : ∀ token, follows token → Connective.ofToken? token = none) (h : first left) :
    Takes (fun fuel => connected fuel limit left) [] follows first :=
  takes_nil h fun _ _ hrest =>
    connected_of_ends (fun next hnext => hfollows _ (hrest next hnext)) left

/-- An operand is an expression, before what may follow it and is no connective. -/
theorem Takes.expressionBefore (h : Takes Parser.operand tokens mid first) :
    Takes (fun fuel => expression fuel limit) tokens
      (fun token => mid token ∧ Connective.ofToken? token = none) first := by
  obtain ⟨token, others, rfl, hbegins⟩ := h.begins operand_begins
  have hunary : UnaryOperator.ofToken? token = none := ofToken?_of_beginsOperand hbegins
  refine takes_succ_iff.1 ?_
  simp only [Parser.expression]
  refine Takes.peek fun location => ?_
  simp only [hunary]
  exact h.stop (fun token hstops => hstops.1) fun value hvalue =>
    takes_connected (fun _ hstops => hstops.2) hvalue

theorem Takes.expression (h : Takes Parser.operand tokens StopsSuffixes first) :
    Takes (fun fuel => expression fuel limit) tokens StopsExpression first := h.expressionBefore

/-- An expression of one token. -/
theorem takes_token {make : Location → Expression} (h : ∀ location, result (make location))
    (hread : ∀ fuel location rest, Parser.operand (fuel + 1) (⟨token, location⟩ :: rest) =
      .done (make location) rest) :
    Takes (fun fuel => expression fuel limit) [token] StopsExpression result :=
  ((takes_operand h hread).mono fun token _ => .intro token).expression

/-- An operator before an expression. -/
theorem Takes.unary (operator : UnaryOperator)
    (h : Takes (fun fuel => Parser.expression fuel Connective.unaryPower) tokens follows first)
    (hfollows : ∀ token, follows token → Connective.ofToken? token = none)
    (hresult : ∀ (location : Location) argument, first argument →
      result (.unary location operator argument)) :
    Takes (fun fuel => Parser.expression fuel limit) (operator.token :: tokens) follows result := by
  have hoperator : UnaryOperator.ofToken? operator.token = some operator :=
    UnaryOperator.ofToken?_eq_some_iff.2 rfl
  refine takes_succ_iff.1 ?_
  simp only [Parser.expression]
  refine Takes.peek fun location => ?_
  simp only [hoperator]
  refine takes_advance.cons fun _ _ => ?_
  exact h.stop (fun _ hstops => hstops) fun argument hargument =>
    takes_connected hfollows (hresult location argument hargument)

/-- A connective between an operand and an expression. -/
theorem Takes.connected (connective : Connective) {second : Expression → Prop}
    (hleft : Takes Parser.operand tokens StopsSuffixes first)
    (hright : Takes (fun fuel => Parser.expression fuel connective.rightPower) others
      StopsExpression second)
    (hresult : ∀ (location : Location) left right, first left → second right →
      result (connective.node location left right)) :
    Takes (fun fuel => Parser.expression fuel 0) (tokens ++ connective.token :: others)
      StopsExpression result := by
  obtain ⟨head, tail, rfl, hbegins⟩ := hleft.begins operand_begins
  have hunary : UnaryOperator.ofToken? head = none := ofToken?_of_beginsOperand hbegins
  have hpower : ¬ connective.leftPower ≤ 0 := by
    cases connective with
    | binary operator => cases operator <;> decide
    | logical operator => cases operator <;> decide
  refine takes_succ_iff.1 ?_
  simp only [Parser.expression]
  refine Takes.peek fun location => ?_
  simp only [hunary]
  refine hleft.bind (.cons connective.beginsSuffix_token) fun left hvalue => takes_succ_iff.1 ?_
  simp only [Parser.connected]
  refine Takes.peek fun location => ?_
  simp only [connective.ofToken?_token, if_neg hpower]
  refine takes_advance.cons fun _ _ => ?_
  exact hright.stop (fun _ hstops => hstops) fun right hvalue' =>
    takes_connected (fun _ hstops => hstops.2) (hresult location left right hvalue hvalue')

/-! ## Lists of expressions -/

theorem takes_moreNames (names : List String) :
    Takes moreNames (names.flatMap fun name => [.symbol .comma, .name name]) ClosesTarget
      (· = names) := by
  induction names with
  | nil =>
    refine takes_succ_iff.1 ?_
    simp only [moreNames]
    refine (takes_eat_nil fun token (h : ClosesTarget token) => h.2).stop (fun _ h => h) ?_
    rintro _ rfl
    exact takes_pure rfl
  | cons name names ih =>
    refine takes_succ_iff.1 ?_
    simp only [moreNames]
    refine (takes_eat .comma).cons ?_
    rintro _ rfl
    refine (takes_expectName name).cons ?_
    rintro _ rfl
    exact ih.answer fun _ heq => congrArg (_ :: ·) heq

/-- `more` reads items with a comma before each. -/
structure ReadsFurther (item : Nat → Parser Expression) (more : Nat → Parser (List Expression)) :
    Prop where
  zero : more 0 = exhausted
  succ : ∀ fuel, more (fuel + 1) = eat .comma >>= fun given => if given = true then
    item fuel >>= fun value => more fuel >>= fun values => pure (value :: values) else pure []

theorem readsFurther_moreTargets : ReadsFurther suffixed moreTargets where
  zero := rfl
  succ fuel := by rw [moreTargets]

theorem readsFurther_moreExpressions :
    ReadsFurther (fun fuel => expression fuel 0) moreExpressions where
  zero := rfl
  succ fuel := by rw [moreExpressions]

section Further

variable {item : Nat → Parser Expression} {more : Nat → Parser (List Expression)} {parts : Parts}

/-- An item and the further ones, if each is read before what comes after it: a comma, or what
follows the list. -/
theorem takes_andFurther {part : List Token × (Expression → Prop)}
    (h : ∀ other ∈ part :: parts, Takes item other.1 (· = .symbol .comma) other.2)
    (hlast : ∀ other ∈ (part :: parts).getLast?, Takes item other.1 follows other.2)
    (hmore : (∀ other ∈ parts, Takes item other.1 (· = .symbol .comma) other.2) →
      (∀ other ∈ parts.getLast?, Takes item other.1 follows other.2) →
        Takes more parts.further follows parts.Found) :
    Takes (fun fuel => item fuel >>= fun value => more fuel >>= fun values =>
      pure (value :: values)) (part.1 ++ parts.further) follows (Parts.Found (part :: parts)) := by
  have hothers := hmore (fun other hother => h other (List.mem_cons_of_mem _ hother))
    fun other hother => hlast other (by rw [List.getLast?_cons, Option.mem_def.1 hother]; rfl)
  have hanswer (value : Expression) (hvalue : part.2 value) :
      Takes (fun fuel => more fuel >>= fun values => pure (value :: values)) parts.further follows
        (Parts.Found (part :: parts)) :=
    hothers.answer fun values hvalues => .cons hvalue hvalues
  cases parts with
  | nil => exact (hlast part rfl).bind (fun _ htoken => htoken) hanswer
  | cons next parts => exact (h part (List.mem_cons_self ..)).bind (.cons rfl) hanswer

/-- Further items are read up to a token with which the list does not go on. -/
theorem takes_further (hmore : ReadsFurther item more)
    (hfollows : ∀ token, follows token → token ≠ .symbol .comma)
    (h : ∀ part ∈ parts, Takes item part.1 (· = .symbol .comma) part.2)
    (hlast : ∀ part ∈ parts.getLast?, Takes item part.1 follows part.2) :
    Takes more parts.further follows parts.Found := by
  induction parts with
  | nil =>
    refine takes_succ_iff.1 ?_
    simp only [hmore.succ]
    refine (takes_eat_nil hfollows).stop (fun _ h => h) ?_
    rintro _ rfl
    exact takes_pure .nil
  | cons part parts ih =>
    refine takes_succ_iff.1 ?_
    simp only [hmore.succ]
    refine (takes_eat .comma).cons ?_
    rintro _ rfl
    exact takes_andFurther h hlast ih

theorem takes_moreTargets
    (h : ∀ part ∈ parts, Takes Parser.suffixed part.1 StopsSuffixes part.2) :
    Takes moreTargets parts.further ClosesTarget parts.Found :=
  takes_further readsFurther_moreTargets (fun _ hcloses => hcloses.2)
    (fun part hpart => (h part hpart).mono fun _ heq => heq ▸ rfl)
    fun part hpart => (h part (List.mem_of_getLast? hpart)).mono fun _ hcloses => hcloses.1

theorem takes_moreExpressions
    (h : ∀ part ∈ parts, Takes (fun fuel => Parser.expression fuel 0) part.1 StopsExpression
      part.2) :
    Takes moreExpressions parts.further StopsList parts.Found :=
  takes_further readsFurther_moreExpressions (fun _ hstops => hstops.2)
    (fun part hpart => (h part hpart).mono fun _ heq => heq ▸ ⟨rfl, rfl⟩)
    fun part hpart => (h part (List.mem_of_getLast? hpart)).mono fun _ hstops => hstops.1

/-- **Expressions with commas between them**, each before what comes after it. -/
theorem takes_expressionsBefore (hne : parts ≠ [])
    (hfollows : ∀ token, follows token → token ≠ .symbol .comma)
    (h : ∀ part ∈ parts, Takes (fun fuel => Parser.expression fuel 0) part.1
      (· = .symbol .comma) part.2)
    (hlast : ∀ part ∈ parts.getLast?, Takes (fun fuel => Parser.expression fuel 0) part.1 follows
      part.2) :
    Takes expressions parts.tokens follows parts.Found := by
  cases parts with
  | nil => exact absurd rfl hne
  | cons part parts =>
    refine takes_succ_iff.1 ?_
    simp only [expressions, Parts.tokens_cons]
    exact takes_andFurther h hlast (takes_further readsFurther_moreExpressions hfollows)

theorem takes_expressions (hne : parts ≠ [])
    (h : ∀ part ∈ parts, Takes (fun fuel => Parser.expression fuel 0) part.1 StopsExpression
      part.2) :
    Takes expressions parts.tokens StopsList parts.Found :=
  takes_expressionsBefore hne (fun _ hstops => hstops.2)
    (fun part hpart => (h part hpart).mono fun _ heq => heq ▸ ⟨rfl, rfl⟩)
    fun part hpart => (h part (List.mem_of_getLast? hpart)).mono fun _ hstops => hstops.1

end Further

/-! ## Fields -/

variable {field : Field → Prop} {several : List Field → Prop}

/-- An expression is not a name with an equals sign after it. -/
theorem Takes.not_named (h : Takes (fun fuel => Parser.expression fuel 0) tokens StopsExpression
    first) {name : String} {others : List Token} :
    tokens ≠ .name name :: .symbol .assign :: others := by
  rintro rfl
  obtain ⟨placed, rfl⟩ := exists_placed others
  obtain ⟨value, -, bound, hrun⟩ := h
    (⟨.name name, .start⟩ :: ⟨.symbol .assign, .start⟩ :: placed) rfl [] before_nil
  -- the name alone is read as an expression, so the equals sign is left
  have hname : Parser.expression (bound + 4) 0
      (⟨.name name, .start⟩ :: ⟨.symbol .assign, .start⟩ :: placed) =
        .done (.identifier (some .start) name) (⟨.symbol .assign, .start⟩ :: placed) := rfl
  have hall : Parser.expression (bound + 4) 0
      (⟨.name name, .start⟩ :: ⟨.symbol .assign, .start⟩ :: placed) = .done value [] := by
    simpa using hrun (bound + 4) (by omega)
  cases hname.symm.trans hall

/-- Tokens that are not a name with an equals sign after it begin no named field. -/
theorem Takes.atNamedField {f : Nat → Bool → Parser β}
    (hne : ∀ name others, token :: tokens ≠ .name name :: .symbol .assign :: others)
    (hfollows : ∀ token, follows token → token ≠ .symbol .assign)
    (h : Takes (fun fuel => f fuel false) (token :: tokens) follows last) :
    Takes (fun fuel => Parser.atNamedField >>= f fuel) (token :: tokens) follows last := by
  refine Takes.look false (fun placed hplaced more hmore => ?_) h
  obtain ⟨⟨token, location⟩, inner, rfl, rfl, rfl⟩ := List.map_eq_cons_iff.1 hplaced
  by_cases hname : ∃ name, token = .name name
  · obtain ⟨name, rfl⟩ := hname
    refine atNamedField_name ?_
    cases inner with
    | nil => exact hmore.mono hfollows
    | cons next inner =>
      refine before_cons.2 fun hassign => hne name (inner.map PlacedToken.token) ?_
      rw [List.map_cons, hassign]
  · exact atNamedField_of_ne fun name heq => hname ⟨name, heq⟩

/-- A value alone. -/
theorem Takes.positional
    (h : Takes (fun fuel => Parser.expression fuel 0) tokens StopsExpression first)
    (hresult : ∀ value, first value → field (.positional value)) :
    Takes Parser.field tokens StopsField field := by
  obtain ⟨token, others, rfl, hbegins⟩ := h.begins expression_begins
  have hne : token ≠ .symbol .leftBracket := by
    rintro rfl
    cases hbegins
  refine takes_succ_iff.1 ?_
  simp only [Parser.field]
  refine Takes.eat_of_ne hne ?_
  refine Takes.atNamedField (fun name others => h.not_named) (fun token hstops => hstops.2) ?_
  exact (h.mono fun token hstops => hstops.1).answer hresult

/-- A value under a name. -/
theorem Takes.named {name : String}
    (h : Takes (fun fuel => Parser.expression fuel 0) tokens StopsExpression first)
    (hresult : ∀ value, first value → field (.named name value)) :
    Takes Parser.field (.name name :: .symbol .assign :: tokens) StopsField field := by
  refine takes_succ_iff.1 ?_
  simp only [Parser.field]
  refine Takes.eat_of_ne (by simp) ?_
  refine Takes.look true (fun placed hplaced more _ => ?_) ?_
  · obtain ⟨⟨token, location⟩, inner, rfl, rfl, hinner⟩ := List.map_eq_cons_iff.1 hplaced
    obtain ⟨⟨token, assign⟩, values, rfl, rfl, -⟩ := List.map_eq_cons_iff.1 hinner
    rfl
  · refine (takes_expectName name).cons ?_
    rintro _ rfl
    refine takes_advance.cons fun _ _ => ?_
    exact (h.mono fun token hstops => hstops.1).answer hresult

/-- A value under a key in brackets. -/
theorem Takes.keyed {second : Expression → Prop}
    (hkey : Takes (fun fuel => Parser.expression fuel 0) tokens StopsExpression first)
    (hvalue : Takes (fun fuel => Parser.expression fuel 0) others StopsExpression second)
    (hresult : ∀ key value, first key → second value → field (.keyed key value)) :
    Takes Parser.field
      (.symbol .leftBracket :: (tokens ++ .symbol .rightBracket :: .symbol .assign :: others))
      StopsField field := by
  refine takes_succ_iff.1 ?_
  simp only [Parser.field]
  refine (takes_eat .leftBracket).cons ?_
  rintro _ rfl
  refine hkey.bind (.cons ⟨rfl, rfl⟩) fun key hfirst => ?_
  refine (takes_expectSymbol .rightBracket).cons fun _ _ => ?_
  refine (takes_expectSymbol .assign).cons fun _ _ => ?_
  exact (hvalue.mono fun token hstops => hstops.1).answer fun value => hresult key value hfirst

/-- The tokens are read as fields found to be so, up to the closing brace of their table. -/
def TakesFields (tokens : List Token) (found : List Field → Prop) : Prop :=
  ∀ placed : List PlacedToken, placed.map PlacedToken.token = tokens →
    ∀ closing more, ∃ values, found values ∧ ∃ bound, ∀ fuel, bound ≤ fuel →
      fields fuel (placed ++ ⟨.symbol .rightBrace, closing⟩ :: more) =
        .done values (⟨.symbol .rightBrace, closing⟩ :: more)

theorem takesFields_nil (h : several []) : TakesFields [] several := by
  intro placed hplaced closing more
  obtain rfl := List.map_eq_nil_iff.1 hplaced
  refine ⟨[], h, 1, fun fuel hfuel => ?_⟩
  obtain ⟨fuel, rfl⟩ : ∃ less, fuel = less + 1 := ⟨fuel - 1, by omega⟩
  exact fields_close

theorem field_begins {value : Field} (h : Parser.field fuel placed = .done value rest) :
    Begins Token.beginsField placed := by
  cases fuel with
  | zero => cases h
  | succ fuel =>
    cases placed with
    | nil => exact absurd h (demands_field.not_done value)
    | cons next placed =>
      obtain ⟨token, location⟩ := next
      rw [Parser.field] at h
      refine begins_cons.2 ?_
      by_cases hbracket : token = .symbol .leftBracket
      · subst hbracket
        rfl
      · rw [bind_done (Parser.eat_of_ne hbracket), if_neg (by decide)] at h
        by_cases hname : ∃ name, token = .name name
        · obtain ⟨name, rfl⟩ := hname
          rfl
        · rw [bind_done (atNamedField_of_ne fun name heq => hname ⟨name, heq⟩),
            if_neg (by decide)] at h
          obtain ⟨value, left, hvalue, -⟩ := bind_eq_done_iff.1 h
          have hbegins : token.beginsExpression = true := begins_cons.1 (expression_begins hvalue)
          unfold Token.beginsField
          split
          · rfl
          · exact hbegins

/-- The first token of a field does not close the table. -/
theorem Takes.not_closing (h : Takes Parser.field tokens StopsField field) :
    ∃ token others, tokens = token :: others ∧ token ≠ .symbol .rightBrace := by
  obtain ⟨token, others, rfl, hbegins⟩ := h.begins field_begins
  refine ⟨token, others, rfl, ?_⟩
  rintro rfl
  cases hbegins

/-- After a field the fields stop, unless a separator follows. -/
theorem takes_separator {value : Field} (h : several [value]) :
    Takes (fun fuel => do
      match ← Parser.peek with
      | some ⟨.symbol .comma, _⟩ | some ⟨.symbol .semicolon, _⟩ =>
        advance
        let others ← Parser.fields fuel
        return value :: others
      | _ => return [value]) [] StopsFields several := by
  refine takes_nil h fun fuel rest hrest => ?_
  cases rest with
  | nil => rfl
  | cons next rest =>
    obtain ⟨token, place⟩ := next
    have hstops : StopsFields token := before_cons.1 hrest
    cases token with
    | symbol mark =>
      cases mark with
      | comma => exact absurd rfl hstops.2.1
      | semicolon => exact absurd rfl hstops.2.2
      | _ => rfl
    | _ => rfl

/-- A field with no field after it. -/
theorem Takes.onlyField (hfield : Takes Parser.field tokens StopsField field)
    (h : ∀ value, field value → several [value]) :
    Takes Parser.fields tokens StopsFields several := by
  obtain ⟨token, others, rfl, hne⟩ := hfield.not_closing
  refine takes_succ_iff.1 ?_
  simp only [Parser.fields]
  refine Takes.peek fun location => ?_
  split
  · rename_i heq
    cases heq
    exact absurd rfl hne
  exact hfield.stop (fun _ hstops => hstops.1) fun value hvalue => takes_separator (h value hvalue)

/-- The last field. -/
theorem Takes.lastField (hfield : Takes Parser.field tokens StopsField field)
    (h : ∀ value, field value → several [value]) : TakesFields tokens several :=
  fun placed hplaced _ _ => hfield.onlyField h placed hplaced _
    (before_cons.2 ⟨⟨⟨rfl, rfl⟩, by simp⟩, by simp, by simp⟩)

/-- A field, a separator and the other fields. -/
theorem Takes.fields {rest : List Field → Prop} {separator : Symbol}
    (hseparator : separator = .comma ∨ separator = .semicolon)
    (hfield : Takes Parser.field tokens StopsField field) (hothers : TakesFields others rest)
    (h : ∀ value values, field value → rest values → several (value :: values)) :
    TakesFields (tokens ++ .symbol separator :: others) several := by
  intro placed hplaced closing more
  obtain ⟨before, after, rfl, hbefore, hafter⟩ := List.map_eq_append_iff.1 hplaced
  obtain ⟨⟨token, place⟩, after, rfl, rfl, hrest⟩ := List.map_eq_cons_iff.1 hafter
  have hstops : StopsField (.symbol separator) := by
    rcases hseparator with rfl | rfl <;> exact ⟨⟨rfl, rfl⟩, by simp⟩
  obtain ⟨value, hvalue, bound, hrun⟩ := hfield before hbefore
    (⟨.symbol separator, place⟩ :: (after ++ ⟨.symbol .rightBrace, closing⟩ :: more))
    (before_cons.2 hstops)
  obtain ⟨values, hvalues, bound', hruns⟩ := hothers after hrest closing more
  refine ⟨value :: values, h value values hvalue hvalues, max bound bound' + 1, ?_⟩
  intro fuel hfuel
  obtain ⟨fuel, rfl⟩ : ∃ less, fuel = less + 1 := ⟨fuel - 1, by omega⟩
  obtain ⟨token, others, rfl, hne⟩ := hfield.not_closing
  obtain ⟨⟨token, location⟩, inner, rfl, rfl, -⟩ := List.map_eq_cons_iff.1 hbefore
  have hfirst := hrun fuel (by omega)
  rw [List.append_assoc, List.cons_append, List.cons_append]
  exact fields_more hseparator hne hfirst (hruns fuel (by omega))

/-- The fields of a table and its closing brace. -/
theorem TakesFields.closed {make : List Field → Expression} (h : TakesFields tokens several)
    (hmake : ∀ values, several values → result (make values)) :
    Takes (fun fuel => Parser.fields fuel >>= fun values => expectSymbol .rightBrace >>= fun _ =>
      pure (make values)) (tokens ++ [.symbol .rightBrace]) AnyToken result := by
  intro placed hplaced more _
  obtain ⟨inner, after, rfl, hinner, hafter⟩ := List.map_eq_append_iff.1 hplaced
  obtain ⟨⟨token, closing⟩, rfl, rfl⟩ := List.map_eq_singleton_iff.1 hafter
  obtain ⟨values, hvalues, bound, hrun⟩ := h inner hinner closing more
  refine ⟨make values, hmake values hvalues, bound, fun fuel hfuel => ?_⟩
  dsimp only
  rw [List.append_assoc, List.singleton_append, bind_done (hrun fuel hfuel),
    bind_done (expectSymbol_self _)]
  rfl

/-- A table with the fields in it. -/
theorem TakesFields.table (h : TakesFields tokens several)
    (hresult : ∀ (location : Location) values, several values → result (.table location values)) :
    Takes Parser.table (.symbol .leftBrace :: (tokens ++ [.symbol .rightBrace])) AnyToken
      result := by
  refine takes_succ_iff.1 ?_
  simp only [Parser.table]
  exact (takes_expectSymbol .leftBrace).cons fun location _ => h.closed (hresult location)

/-! ## Statements -/

variable {statement : Statement → Prop} {values : List Expression → Prop}

theorem assignmentOrCall_begins {location : Location} {read : Statement}
    (h : Parser.assignmentOrCall fuel location placed = .done read rest) :
    Begins Token.beginsPrimary placed := by
  cases fuel with
  | zero => cases h
  | succ fuel =>
    rw [Parser.assignmentOrCall] at h
    obtain ⟨target, left, hfirst, -⟩ := bind_eq_done_iff.1 h
    exact suffixed_begins hfirst

theorem statement_begins {read : Statement} (h : Parser.statement fuel placed = .done read rest) :
    Begins Token.beginsStatement placed := by
  cases fuel with
  | zero => cases h
  | succ fuel =>
    cases placed with
    | nil => cases h
    | cons next placed =>
      obtain ⟨token, location⟩ := next
      have hother (hrun : Parser.assignmentOrCall fuel location (⟨token, location⟩ :: placed) =
          .done read rest) : token.beginsPrimary = true :=
        begins_cons.1 (assignmentOrCall_begins hrun)
      refine begins_cons.2 ?_
      cases token with
      | keyword word => cases word <;> first | rfl | cases h | exact hother h
      | symbol mark => cases mark <;> first | rfl | cases h | exact hother h
      | _ => first | rfl | exact hother h

/-- A statement that begins with a primary expression. -/
theorem Takes.assignmentOrCall (hbegins : token.beginsPrimary = true)
    (h : ∀ location, Takes (fun fuel => Parser.assignmentOrCall fuel location) (token :: tokens)
      follows statement) :
    Takes Parser.statement (token :: tokens) follows statement := by
  refine takes_succ_iff.1 ?_
  simp only [Parser.statement]
  refine Takes.peek fun location => ?_
  cases token with
  | name name => exact h location
  | symbol mark => cases mark <;> first | exact h location | cases hbegins
  | _ => cases hbegins

/-- **An assignment of expressions to targets.** -/
theorem takes_assignment {targets : Parts} (hne : targets ≠ [])
    (htargets : ∀ part ∈ targets, Takes Parser.suffixed part.1 StopsSuffixes part.2)
    (hvalues : Takes Parser.expressions tokens follows values)
    (hresult : ∀ (location : Location) found expressions, targets.Found found →
      values expressions → statement (.assignment location found expressions)) :
    Takes Parser.statement (targets.tokens ++ .symbol .assign :: tokens) follows statement := by
  cases targets with
  | nil => exact absurd rfl hne
  | cons part parts =>
    have hfirst := htargets part (List.mem_cons_self ..)
    have hothers := takes_moreTargets fun other hother =>
      htargets other (List.mem_cons_of_mem _ hother)
    obtain ⟨token, others, hpart, hbegins⟩ := hfirst.begins suffixed_begins
    have hassign (location : Location) (target : Expression) (htarget : part.2 target) :
        Takes (fun fuel => moreTargets fuel >>= fun others => expectSymbol .assign >>= fun _ =>
          Parser.expressions fuel >>= fun values =>
          pure (Statement.assignment location (target :: others) values))
          (Parts.further parts ++ .symbol .assign :: tokens) follows statement := by
      refine hothers.bind (.cons ⟨rfl, by simp⟩) fun found hfound => ?_
      refine (takes_expectSymbol .assign).cons fun _ _ => ?_
      exact hvalues.answer fun expressions hexpressions =>
        hresult location _ expressions (.cons htarget hfound) hexpressions
    rw [Parts.tokens_cons, hpart, List.append_assoc, List.cons_append]
    refine Takes.assignmentOrCall hbegins fun location => takes_succ_iff.1 ?_
    simp only [Parser.assignmentOrCall]
    rw [← List.cons_append, ← hpart]
    refine hfirst.bind ?_ fun target htarget => ?_
    · cases parts with
      | nil => exact .cons rfl
      | cons next parts => exact .cons rfl
    · have hgoes := hassign location target htarget
      cases parts with
      | nil => exact Takes.peek fun _ => hgoes
      | cons next parts => exact Takes.peek fun _ => hgoes

/-- A call for its effect. -/
theorem Takes.callStatement (h : Takes Parser.suffixed tokens StopsSuffixes first)
    (hcall : ∀ value, first value →
      ∃ location base arguments, value = .call location base arguments)
    (hresult : ∀ (location : Location) value, first value → statement (.call location value)) :
    Takes Parser.statement tokens StopsStatement statement := by
  obtain ⟨token, others, rfl, hbegins⟩ := h.begins suffixed_begins
  refine Takes.assignmentOrCall hbegins fun location => takes_succ_iff.1 ?_
  simp only [Parser.assignmentOrCall]
  refine h.stop (fun _ hstops => hstops.1.1.1) fun value hvalue => ?_
  obtain ⟨place, base, arguments, rfl⟩ := hcall value hvalue
  refine takes_nil (hresult location _ hvalue) fun fuel rest hrest => ?_
  cases rest with
  | nil => rfl
  | cons next rest =>
    obtain ⟨token, place⟩ := next
    have hstops : StopsStatement token := before_cons.1 hrest
    cases token with
    | symbol mark =>
      cases mark with
      | comma => exact absurd rfl hstops.1.2
      | assign => exact absurd rfl hstops.2
      | _ => rfl
    | _ => rfl

/-- Local names without values. -/
theorem takes_localNames {name : String} {names : List String}
    (hresult : ∀ location : Location, statement (.localNames location (name :: names) [])) :
    Takes Parser.statement (.keyword .localWord :: .name name ::
      names.flatMap fun name => [.symbol .comma, .name name]) StopsStatement statement := by
  refine takes_succ_iff.1 ?_
  simp only [Parser.statement]
  refine Takes.peek fun location => takes_advance.cons fun _ _ => ?_
  refine Takes.peek fun _ => (takes_expectName name).cons ?_
  rintro _ rfl
  refine ((takes_moreNames names).mono fun _ h => ⟨h.1.1.1, h.1.2⟩).stop (fun _ h => h) ?_
  rintro _ rfl
  refine (takes_eat_nil fun token (h : StopsStatement token) => h.2).stop (fun _ h => h) ?_
  rintro _ rfl
  exact takes_pure (hresult location)

/-- Local names with values. -/
theorem Takes.localNames {name : String} {names : List String}
    (h : Takes Parser.expressions tokens StopsList values)
    (hresult : ∀ (location : Location) expressions, values expressions →
      statement (.localNames location (name :: names) expressions)) :
    Takes Parser.statement (.keyword .localWord :: .name name ::
      (names.flatMap (fun name => [.symbol .comma, .name name]) ++ .symbol .assign :: tokens))
      StopsList statement := by
  refine takes_succ_iff.1 ?_
  simp only [Parser.statement]
  refine Takes.peek fun location => takes_advance.cons fun _ _ => ?_
  refine Takes.peek fun _ => (takes_expectName name).cons ?_
  rintro _ rfl
  refine (takes_moreNames names).bind (.cons ⟨rfl, by simp⟩) ?_
  rintro _ rfl
  refine (takes_eat .assign).cons ?_
  rintro _ rfl
  exact h.answer fun expressions => hresult location expressions

theorem takes_atBlockEnd : Takes (fun _ => atBlockEnd) [] ClosesBlock (· = true) := by
  refine takes_nil rfl fun _ rest hrest => ?_
  cases rest with
  | nil => rfl
  | cons next rest =>
    obtain ⟨token, location⟩ := next
    have hcloses : token.endsBlock = true := before_cons.1 hrest
    cases token with
    | keyword word => exact congrArg (Outcome.done · _) hcloses
    | _ => cases hcloses

/-- A phrase that does not begin with the end of a block is not such an end. -/
theorem Takes.atBlockEnd {f : Nat → Bool → Parser β} (hne : token.endsBlock = false)
    (h : Takes (fun fuel => f fuel false) (token :: tokens) follows last) :
    Takes (fun fuel => Parser.atBlockEnd >>= f fuel) (token :: tokens) follows last := by
  refine Takes.look false (fun placed hplaced more _ => ?_) h
  obtain ⟨⟨token, location⟩, inner, rfl, rfl, -⟩ := List.map_eq_cons_iff.1 hplaced
  cases token with
  | keyword word => exact congrArg (Outcome.done · _) hne
  | _ => rfl

/-- A return, as far as its values are known. -/
theorem Takes.returned (h : Takes Parser.returned tokens ClosesBlock values)
    (hresult : ∀ (location : Location) expressions, values expressions →
      statement (.returnValues location expressions)) :
    Takes Parser.statement (.keyword .returnWord :: tokens) ClosesBlock statement := by
  refine takes_succ_iff.1 ?_
  simp only [Parser.statement]
  refine Takes.peek fun location => takes_advance.cons fun _ _ => ?_
  refine h.stop (fun _ h => h) fun expressions hexpressions => ?_
  exact (takes_eat_nil ClosesBlock.not_semicolon).answer fun _ _ =>
    hresult location expressions hexpressions

/-- A return without values. -/
theorem takes_return (hresult : ∀ location : Location, statement (.returnValues location [])) :
    Takes Parser.statement [.keyword .returnWord] ClosesBlock statement := by
  have hnone : Takes Parser.returned [] ClosesBlock (· = []) := by
    refine takes_succ_iff.1 ?_
    simp only [Parser.returned]
    refine takes_atBlockEnd.stop (fun _ h => h) ?_
    rintro _ rfl
    exact takes_pure rfl
  refine hnone.returned fun location expressions hexpressions => ?_
  rw [hexpressions]
  exact hresult location

/-- A return of values. -/
theorem Takes.returnValues (h : Takes Parser.expressions tokens StopsList values)
    (hresult : ∀ (location : Location) expressions, values expressions →
      statement (.returnValues location expressions)) :
    Takes Parser.statement (.keyword .returnWord :: tokens) ClosesBlock statement := by
  obtain ⟨token, others, rfl, hbegins⟩ := h.begins expressions_begins
  refine Takes.returned (takes_succ_iff.1 ?_) hresult
  have hends : token.endsBlock = false := by
    cases token with
    | keyword word => cases word <;> first | rfl | cases hbegins
    | _ => rfl
  simp only [Parser.returned]
  refine Takes.atBlockEnd hends (Takes.peek fun location => ?_)
  have hvalues := h.mono fun token hcloses => (ClosesBlock.stopsStatement token hcloses).1
  cases token with
  | symbol mark => cases mark <;> first | exact hvalues | cases hbegins
  | _ => exact hvalues

variable {body : List Statement → Prop}

theorem Takes.doBlock (h : Takes Parser.block tokens ClosesBlock body)
    (hresult : ∀ (location : Location) statements, body statements →
      statement (.block location statements)) :
    Takes Parser.statement (.keyword .doWord :: (tokens ++ [.keyword .endWord])) AnyToken
      statement := by
  refine takes_succ_iff.1 ?_
  simp only [Parser.statement]
  refine Takes.peek fun location => takes_advance.cons fun _ _ => ?_
  refine h.bind (.cons rfl) fun statements hstatements => ?_
  exact (takes_expectKeyword .endWord).answer fun _ _ => hresult location statements hstatements

theorem Takes.whileLoop {inner : List Token}
    (hcondition : Takes (fun fuel => Parser.expression fuel 0) tokens StopsExpression first)
    (h : Takes Parser.block inner ClosesBlock body)
    (hresult : ∀ (location : Location) condition statements, first condition → body statements →
      statement (.whileLoop location condition statements)) :
    Takes Parser.statement (.keyword .whileWord ::
      (tokens ++ .keyword .doWord :: (inner ++ [.keyword .endWord]))) AnyToken statement := by
  refine takes_succ_iff.1 ?_
  simp only [Parser.statement]
  refine Takes.peek fun location => takes_advance.cons fun _ _ => ?_
  refine hcondition.bind (.cons ⟨rfl, rfl⟩) fun condition hfirst => ?_
  refine (takes_expectKeyword .doWord).cons fun _ _ => ?_
  refine h.bind (.cons rfl) fun statements hstatements => ?_
  exact (takes_expectKeyword .endWord).answer fun _ _ =>
    hresult location condition statements hfirst hstatements

theorem takes_break (hresult : ∀ location : Location, statement (.breakLoop location)) :
    Takes Parser.statement [.keyword .breakWord] AnyToken statement := by
  refine takes_one hresult fun _ _ _ => ?_
  rw [Parser.statement]
  rfl

variable {clause : Clause → Prop} {clauses : List Clause → Prop}

/-- A condition and the block under it. -/
theorem Takes.arm {inner : List Token}
    (hcondition : Takes (fun fuel => Parser.expression fuel 0) tokens StopsExpression first)
    (h : Takes Parser.block inner ClosesBlock body)
    (hresult : ∀ condition statements, first condition → body statements →
      clause (.arm (some condition) statements)) :
    Takes conditionalArm (tokens ++ .keyword .thenWord :: inner) ClosesBlock clause := by
  refine takes_succ_iff.1 ?_
  simp only [conditionalArm]
  refine hcondition.bind (.cons ⟨rfl, rfl⟩) fun condition hfirst => ?_
  refine (takes_expectKeyword .thenWord).cons fun _ _ => ?_
  exact h.answer fun statements hstatements => hresult condition statements hfirst hstatements

theorem takes_noArms (h : clauses []) :
    Takes moreArms [.keyword .endWord] AnyToken clauses := by
  refine takes_succ_iff.1 ?_
  simp only [moreArms]
  refine Takes.peek fun _ => ?_
  exact (takes_expectKeyword .endWord).answer fun _ _ => h

theorem Takes.elseArm (h : Takes Parser.block tokens ClosesBlock body)
    (hresult : ∀ statements, body statements → clauses [.arm none statements]) :
    Takes moreArms (.keyword .elseWord :: (tokens ++ [.keyword .endWord])) AnyToken clauses := by
  refine takes_succ_iff.1 ?_
  simp only [moreArms]
  refine Takes.peek fun _ => takes_advance.cons fun _ _ => ?_
  refine h.bind (.cons rfl) fun statements hstatements => ?_
  exact (takes_expectKeyword .endWord).answer fun _ _ => hresult statements hstatements

theorem Takes.elseifArm {rest : List Clause → Prop}
    (h : Takes conditionalArm tokens ClosesBlock clause)
    (hothers : Takes moreArms others AnyToken rest) (hleads : Leads ClosesBlock others AnyToken)
    (hresult : ∀ arm arms, clause arm → rest arms → clauses (arm :: arms)) :
    Takes moreArms (.keyword .elseifWord :: (tokens ++ others)) AnyToken clauses := by
  refine takes_succ_iff.1 ?_
  simp only [moreArms]
  refine Takes.peek fun _ => takes_advance.cons fun _ _ => ?_
  refine h.bind hleads fun arm harm => ?_
  exact hothers.answer fun arms harms => hresult arm arms harm harms

theorem Takes.conditional {rest : List Clause → Prop}
    (h : Takes conditionalArm tokens ClosesBlock clause)
    (hothers : Takes moreArms others AnyToken rest) (hleads : Leads ClosesBlock others AnyToken)
    (hresult : ∀ (location : Location) arm arms, clause arm → rest arms →
      statement (.conditional location (arm :: arms))) :
    Takes Parser.statement (.keyword .ifWord :: (tokens ++ others)) AnyToken statement := by
  refine takes_succ_iff.1 ?_
  simp only [Parser.statement]
  refine Takes.peek fun location => takes_advance.cons fun _ _ => ?_
  refine h.bind hleads fun arm harm => ?_
  exact hothers.answer fun arms harms => hresult location arm arms harm harms

/-! ## Blocks -/

theorem takes_block (h : body []) : Takes Parser.block [] ClosesBlock body := by
  refine takes_succ_iff.1 ?_
  simp only [Parser.block]
  refine takes_atBlockEnd.stop (fun _ h => h) ?_
  rintro _ rfl
  exact takes_pure h

/-- A semicolon before a block is passed over. -/
theorem Takes.semicolon (h : Takes Parser.block tokens ClosesBlock body) :
    Takes Parser.block (.symbol .semicolon :: tokens) ClosesBlock body := by
  refine takes_succ_iff.1 ?_
  simp only [Parser.block]
  refine Takes.atBlockEnd rfl ((takes_eat .semicolon).cons ?_)
  rintro _ rfl
  exact h

theorem statement_return {location : Location} {read : Statement}
    (h : Parser.statement fuel (⟨.keyword .returnWord, location⟩ :: placed) = .done read rest) :
    ∃ values, read = .returnValues location values := by
  cases fuel with
  | zero => cases h
  | succ fuel =>
    rw [Parser.statement] at h
    obtain ⟨next, tokens, hpeek, h⟩ := bind_eq_done_iff.1 h
    cases hpeek
    obtain ⟨_, tokens, -, h⟩ := bind_eq_done_iff.1 h
    obtain ⟨values, tokens, -, h⟩ := bind_eq_done_iff.1 h
    obtain ⟨_, tokens, -, hdone⟩ := bind_eq_done_iff.1 h
    cases hdone
    exact ⟨values, rfl⟩

/-- A statement that is no return, and the statements after it. -/
theorem Takes.block {rest : List Statement → Prop}
    (h : Takes Parser.statement tokens mid statement)
    (hreturn : ∀ first, statement first → ∀ location values, first ≠ .returnValues location values)
    (hothers : Takes block others ClosesBlock rest)
    (hleads : Leads mid others ClosesBlock)
    (hresult : ∀ first statements, statement first → rest statements →
      body (first :: statements)) :
    Takes Parser.block (tokens ++ others) ClosesBlock body := by
  obtain ⟨token, inner, rfl, hbegins⟩ := h.begins statement_begins
  have hkeyword : token ≠ .keyword .returnWord := by
    rintro rfl
    obtain ⟨placed, rfl⟩ := exists_placed inner
    obtain ⟨first, hfirst, bound, hrun⟩ := h (⟨.keyword .returnWord, .start⟩ :: placed) rfl []
      before_nil
    obtain ⟨values, hvalues⟩ := statement_return (hrun bound (Nat.le_refl bound))
    exact hreturn first hfirst _ values hvalues
  rw [List.cons_append]
  refine takes_succ_iff.1 ?_
  simp only [Parser.block]
  refine Takes.atBlockEnd ?_ (Takes.eat_of_ne ?_ (Takes.peek fun location => ?_))
  · cases token with
    | keyword word => cases word <;> first | rfl | cases hbegins
    | _ => rfl
  · rintro rfl
    cases hbegins
  · rw [← List.cons_append]
    refine h.bind hleads fun first hfirst => ?_
    split
    · rename_i heq
      cases heq
      exact absurd rfl hkeyword
    · exact hothers.answer fun statements => hresult first statements hfirst

/-- A return at the end of its block. -/
theorem Takes.lastStatement
    (h : Takes Parser.statement (.keyword .returnWord :: tokens) ClosesBlock statement)
    (hresult : ∀ last, statement last → body [last]) :
    Takes Parser.block (.keyword .returnWord :: tokens) ClosesBlock body := by
  refine takes_succ_iff.1 ?_
  simp only [Parser.block]
  refine Takes.atBlockEnd rfl (Takes.eat_of_ne (by simp) (Takes.peek fun location => ?_))
  exact h.answer hresult

/-- **A block that is all of the tokens is a script.** -/
theorem Takes.ofTokens (h : Takes Parser.block tokens ClosesBlock body)
    (hplaced : placed.map PlacedToken.token = tokens) :
    ∃ chunk, Chunk.ofTokens placed = .ok chunk ∧ body chunk := by
  obtain ⟨chunk, hchunk, bound, hrun⟩ := h placed hplaced [] before_nil
  refine ⟨chunk, Chunk.ofTokens_eq_ok_iff.2 ⟨bound, ?_⟩, hchunk⟩
  have hblock := hrun bound (Nat.le_refl bound)
  rw [List.append_nil] at hblock
  rw [Parser.chunk, bind_done hblock]
  rfl

end Parser
end Script
end ProductionRates
