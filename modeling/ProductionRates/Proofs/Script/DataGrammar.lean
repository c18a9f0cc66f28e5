import ProductionRates.Proofs.Script.Inversion
import ProductionRates.Proofs.Script.Literals
import ProductionRates.Proofs.Script.Phrases

/-!
# The grammar of data

The grammar of scripts is far wider than what has a value.  Here is the grammar of those scripts
that have one, in terms of their tokens alone.  Tokens that are spelled by its rules are read as
data; and what is read as data was spelled by these rules, except that a name to which something is
assigned may also stand in parentheses.

* `SpellsText`, `SpellsNumber`, `SpellsLiteral`, `SpellsAssignment`, `SpellsData` — the rules;
* `SpellsScript` — the rules when names may stand in parentheses;
* `Token.noNaN_of_scanFrom` — no number of a text is a NaN, so that every number can be a key;
* `SpellsLiteral.takes`, `SpellsScript.takes` — what the rules spell is read as data;
* `Spelled.all` — literals and names that were read are spelled by the rules;
* `value_iff_spellsData` — which scripts have a value.
-/

namespace ProductionRates
namespace Script

/-! ## The rules -/

/-- A name in any number of parentheses. -/
inductive SpellsName : List Token → Prop where
  | name (name : String) : SpellsName [.name name]
  | parens {tokens : List Token} (h : SpellsName tokens) : SpellsName (parenthesised tokens)

/-- A string in any number of parentheses. -/
inductive SpellsText : List Token → Prop where
  | quoted (raw : String) : SpellsText [.quoted raw]
  | parens {tokens : List Token} (h : SpellsText tokens) : SpellsText (parenthesised tokens)

/-- A numeral, the negative of a number, the length of a text, or a number in parentheses. -/
inductive SpellsNumber : List Token → Prop where
  | number (value : Float) : SpellsNumber [.number value]
  | negative {tokens : List Token} (h : SpellsNumber tokens) :
      SpellsNumber (.symbol .minus :: tokens)
  | length {tokens : List Token} (h : SpellsText tokens) : SpellsNumber (.symbol .hash :: tokens)
  | parens {tokens : List Token} (h : SpellsNumber tokens) : SpellsNumber (parenthesised tokens)

mutual

/-- A literal. -/
inductive SpellsLiteral : List Token → Prop where
  | nil : SpellsLiteral [.keyword .nilWord]
  | boolean (value : Bool) :
      SpellsLiteral [.keyword (if value then .trueWord else .falseWord)]
  | number {tokens : List Token} (h : SpellsNumber tokens) : SpellsLiteral tokens
  | text {tokens : List Token} (h : SpellsText tokens) : SpellsLiteral tokens
  | table {tokens : List Token} (h : SpellsFields tokens) :
      SpellsLiteral (.symbol .leftBrace :: (tokens ++ [.symbol .rightBrace]))
  | parens {tokens : List Token} (h : SpellsLiteral tokens) : SpellsLiteral (parenthesised tokens)

/-- The fields of a table with separators between them, and perhaps one after the last. -/
inductive SpellsFields : List Token → Prop where
  | none : SpellsFields []
  | last {tokens : List Token} (h : SpellsField tokens) : SpellsFields tokens
  | more {tokens others : List Token} {separator : Symbol}
      (hseparator : separator = .comma ∨ separator = .semicolon) (h : SpellsField tokens)
      (hothers : SpellsFields others) : SpellsFields (tokens ++ .symbol separator :: others)

/-- A field of a table: a literal alone, under a name, or under a number or a text in brackets. -/
inductive SpellsField : List Token → Prop where
  | positional {tokens : List Token} (h : SpellsLiteral tokens) : SpellsField tokens
  | named (name : String) {tokens : List Token} (h : SpellsLiteral tokens) :
      SpellsField (.name name :: .symbol .assign :: tokens)
  | keyed {key tokens : List Token} (hkey : SpellsNumber key ∨ SpellsText key)
      (h : SpellsLiteral tokens) : SpellsField
        (.symbol .leftBracket :: (key ++ .symbol .rightBracket :: .symbol .assign :: tokens))

end

/-- An assignment of literals to targets that are spelled in a given way. -/
inductive SpellsAssignment (target : List Token → Prop) : List Token → Prop where
  | intro {targets values : List (List Token)} (hsome : targets ≠ [])
      (htargets : ∀ tokens ∈ targets, target tokens) (hvalues : values ≠ [])
      (hliterals : ∀ tokens ∈ values, SpellsLiteral tokens) :
      SpellsAssignment target (separated targets ++ .symbol .assign :: separated values)

/-- Assignments with any number of semicolons between and around them. -/
inductive SpellsData (target : List Token → Prop) : List Token → Prop where
  | none : SpellsData target []
  | semicolon {tokens : List Token} (h : SpellsData target tokens) :
      SpellsData target (.symbol .semicolon :: tokens)
  | assignment {tokens others : List Token} (h : SpellsAssignment target tokens)
      (hothers : SpellsData target others) : SpellsData target (tokens ++ others)

/-- The last of the tokens is a closing parenthesis. -/
def EndsInParen (tokens : List Token) : Prop := tokens.getLast? = some (.symbol .rightParen)

/-- Assignments of literals to names in any number of parentheses, with any number of semicolons
between and around them; but one that begins with a parenthesis does not come right after one that
ends with one. -/
inductive SpellsScript : List Token → Prop where
  | none : SpellsScript []
  | semicolon {tokens : List Token} (h : SpellsScript tokens) :
      SpellsScript (.symbol .semicolon :: tokens)
  | assignment {tokens others : List Token} (h : SpellsAssignment SpellsName tokens)
      (hothers : SpellsScript others)
      (hapart : EndsInParen tokens → others.head? ≠ some (.symbol .leftParen)) :
      SpellsScript (tokens ++ others)

/-- A name alone. -/
def IsNameToken (tokens : List Token) : Prop := ∃ name, tokens = [.name name]

/-! ## Numbers of a text -/

/-- No numeral among the tokens is a NaN. -/
def NoNaN (tokens : List Token) : Prop := ∀ x, .number x ∈ tokens → x.isNaN = false

theorem NoNaN.mono {tokens others : List Token} (h : NoNaN tokens)
    (hsub : ∀ token ∈ others, token ∈ tokens) : NoNaN others :=
  fun x hx => h x (hsub _ hx)

namespace Piece

variable {cs : List Char} {x : Float} {length : Nat}

theorem isNaN_of_numeral? (h : numeral? cs = some (.token (.number x), length)) :
    x.isNaN = false := by
  rw [numeral?] at h
  split at h
  · split at h
    · cases h
    · cases h
      exact Decimal.Numeral.isNaN_toFloat _
  · obtain ⟨hpiece, -⟩ := Prod.mk.inj (Option.some.inj h)
    split at hpiece
    · cases hpiece
      exact Decimal.isNaN_floatOfNat _
    · cases hpiece

/-- A number at the head of a text is no NaN. -/
theorem isNaN_of_atHead (h : atHead cs = (.token (.number x), length)) : x.isNaN = false := by
  rw [atHead.eq_def] at h
  split at h
  · cases h
  · cases h
  · split at h
    · cases h
    split at h
    · rw [word] at h
      split at h <;> cases h
    split at h
    · rw [quoted] at h
      split at h
      split at h <;> cases h
    split at h
    · rw [bracket] at h
      split at h
      · cases h
      · split at h <;> cases h
    split at h
    · rename_i piece hnumeral
      subst h
      exact isNaN_of_numeral? hnumeral
    · rw [symbol] at h
      split at h <;> cases h

end Piece

/-- **No number of a text is a NaN.** -/
theorem Token.noNaN_of_scanFrom {location : Location} {skip : Nat} {cs : List Char}
    {tokens : List PlacedToken} (h : scanFrom location skip cs = .ok tokens) :
    NoNaN (tokens.map PlacedToken.token) := by
  induction cs generalizing location skip tokens with
  | nil =>
    rw [scanFrom.eq_def] at h
    cases h
    exact fun x hx => nomatch hx
  | cons c cs ih =>
    cases skip with
    | succ skip => exact ih h
    | zero =>
      rw [scanFrom] at h
      split at h
      · exact ih h
      · rename_i token length hpiece
        obtain ⟨rest, hrest, heq⟩ := exists_of_bind_eq_ok h
        cases heq
        intro x hx
        rcases List.mem_cons.1 hx with rfl | hx
        · exact Piece.isNaN_of_atHead hpiece
        · exact ih hrest x hx
      · cases h

/-! ## What the rules spell is read as data -/

open ProductionRates.Script.Parser

variable {tokens others : List Token}

theorem mem_separated {phrase : List Token} {phrases : List (List Token)} {token : Token}
    (hphrase : phrase ∈ phrases) (h : token ∈ phrase) : token ∈ separated phrases := by
  cases phrases with
  | nil => cases hphrase
  | cons first phrases =>
    rw [separated_cons, List.mem_append, List.mem_flatMap]
    rcases List.mem_cons.1 hphrase with rfl | hphrase
    · exact .inl h
    · exact .inr ⟨phrase, hphrase, List.mem_cons_of_mem _ h⟩

theorem endsInParen_parenthesised (tokens : List Token) : EndsInParen (parenthesised tokens) := by
  simp [EndsInParen, parenthesised, List.getLast?_cons]

theorem EndsInParen.append (h : EndsInParen others) (tokens : List Token) :
    EndsInParen (tokens ++ others) := by
  unfold EndsInParen at *
  rw [List.getLast?_append, h]
  rfl

theorem EndsInParen.cons (h : EndsInParen tokens) (token : Token) : EndsInParen (token :: tokens) :=
  h.append [token]

/-- The last of some phrases with commas between them is what they end with. -/
theorem EndsInParen.separated {phrases : List (List Token)} {last : List Token}
    (h : EndsInParen last) (hlast : last ∈ phrases.getLast?) : EndsInParen (separated phrases) := by
  obtain ⟨init, rfl⟩ := List.getLast?_eq_some_iff.1 hlast
  cases init with
  | nil => simpa [separated_cons] using h
  | cons first init =>
    rw [List.cons_append, separated_cons, List.flatMap_append, List.flatMap_singleton]
    exact ((h.cons _).append _).append _

/-- Tokens that may come after a literal: no connectives, and after a parenthesis no suffixes. -/
def FollowsLiteral (tokens : List Token) (token : Token) : Prop :=
  Connective.ofToken? token = none ∧ (EndsInParen tokens → StopsSuffixes token)

/-- The tokens are read as a literal of a kind that satisfies `kinds`. -/
def TakesLiteral (kinds : Kind → Prop) (tokens : List Token) : Prop :=
  ∀ limit, Takes (fun fuel => expression fuel limit) tokens StopsExpression fun e =>
    ∃ kind, kinds kind ∧ IsLiteral e kind

/-- The tokens are read as a literal of a kind that satisfies `kinds`, before everything that may
come after it. -/
def TakesBefore (kinds : Kind → Prop) (tokens : List Token) : Prop :=
  ∀ limit, Takes (fun fuel => expression fuel limit) tokens (FollowsLiteral tokens) fun e =>
    ∃ kind, kinds kind ∧ IsLiteral e kind

section

variable {kinds : Kind → Prop}

theorem TakesBefore.literal (h : TakesBefore kinds tokens) : TakesLiteral kinds tokens :=
  fun limit => (h limit).mono fun _ hstops => ⟨hstops.2, fun _ => hstops.1⟩

theorem TakesBefore.imp {weaker : Kind → Prop} (h : TakesBefore kinds tokens)
    (himp : ∀ kind, kinds kind → weaker kind) : TakesBefore weaker tokens :=
  fun limit => (h limit).imp fun _ ⟨kind, hkind, hliteral⟩ => ⟨kind, himp kind hkind, hliteral⟩

theorem TakesBefore.parens (h : TakesBefore kinds tokens) :
    TakesBefore kinds (parenthesised tokens) :=
  fun _ => (h.literal 0).parenthesised.suffixed.operand.expression.mono fun _ hfollows =>
    ⟨hfollows.2 (endsInParen_parenthesised _), hfollows.1⟩

/-- A literal that no suffix goes on with. -/
theorem takesBefore_of_operand
    (h : Takes operand tokens AnyToken fun e => ∃ kind, kinds kind ∧ IsLiteral e kind) :
    TakesBefore kinds tokens :=
  fun _ => h.expressionBefore.mono fun token hfollows => ⟨.intro token, hfollows.1⟩

theorem takesBefore_token {token : Token} {make : Location → Expression} {kind : Kind}
    (hkind : kinds kind) (h : ∀ location, IsLiteral (make location) kind)
    (hread : ∀ fuel location rest, operand (fuel + 1) (⟨token, location⟩ :: rest) =
      .done (make location) rest) : TakesBefore kinds [token] :=
  takesBefore_of_operand (takes_operand (fun location => ⟨kind, hkind, h location⟩) hread)

/-- An operator before a literal of one kind makes a literal of another. -/
theorem TakesBefore.unary {kind whole : Kind} (operator : UnaryOperator)
    (h : TakesBefore (· = kind) tokens)
    (hliteral : ∀ location argument, IsLiteral argument kind →
      IsLiteral (.unary (some location) operator argument) whole) :
    TakesBefore (· = whole) (operator.token :: tokens) := by
  intro limit
  have hreads := (h Connective.unaryPower).mono
    fun token (hfollows : FollowsLiteral (operator.token :: tokens) token) =>
      ⟨hfollows.1, fun hend => hfollows.2 (hend.cons _)⟩
  refine hreads.unary operator (fun _ hfollows => hfollows.1) fun location argument => ?_
  rintro ⟨_, rfl, hargument⟩
  exact ⟨whole, rfl, hliteral location argument hargument⟩

end

theorem SpellsText.takes (h : SpellsText tokens) : TakesBefore (· = .text) tokens := by
  induction h with
  | quoted raw => exact takesBefore_token rfl (fun _ => .string _ raw) fun _ _ _ => rfl
  | parens h ih => exact ih.parens

theorem SpellsNumber.takes (h : SpellsNumber tokens) (hnan : NoNaN tokens) :
    TakesBefore (· = .number false) tokens := by
  induction h with
  | number value =>
    have hvalue : value.isNaN = false := hnan value (List.mem_singleton_self _)
    exact takesBefore_token rfl (fun _ => hvalue ▸ .number _ value) fun _ _ _ => rfl
  | negative h ih =>
    have hargument := ih (hnan.mono fun token htoken => List.mem_cons_of_mem _ htoken)
    exact hargument.unary .negate fun location _ hliteral => .negative location hliteral
  | length h => exact h.takes.unary .length fun location _ hliteral => .length location hliteral
  | parens h ih => exact (ih (hnan.mono fun token htoken => by simp [parenthesised, htoken])).parens

mutual

/-- **What is spelled as a literal is read as one** before everything that may come after it. -/
theorem SpellsLiteral.takes : ∀ {tokens : List Token}, SpellsLiteral tokens → NoNaN tokens →
    TakesBefore (fun _ => True) tokens
  | _, .nil, _ => takesBefore_token trivial (fun _ => .nil _) fun _ _ _ => rfl
  | _, .boolean true, _ => takesBefore_token trivial (fun _ => .boolean _ true) fun _ _ _ => rfl
  | _, .boolean false, _ => takesBefore_token trivial (fun _ => .boolean _ false) fun _ _ _ => rfl
  | _, .number h, hnan => (h.takes hnan).imp fun _ _ => trivial
  | _, .text h, _ => h.takes.imp fun _ _ => trivial
  | _, .table h, hnan => by
    have hfields := h.takes (hnan.mono fun token htoken => by simp [htoken])
    have htable : Takes table _ AnyToken fun e => ∃ kind, True ∧ IsLiteral e kind :=
      hfields.table fun location values hvalues => ⟨_, trivial, .table location hvalues⟩
    exact takesBefore_of_operand htable.operandTable
  | _, .parens h, hnan =>
    (h.takes (hnan.mono fun token htoken => by simp [parenthesised, htoken])).parens

theorem SpellsFields.takes : ∀ {tokens : List Token}, SpellsFields tokens → NoNaN tokens →
    TakesFields tokens fun fields => ∀ field ∈ fields, IsLiteralField field
  | _, .none, _ => takesFields_nil (by simp)
  | _, .last h, hnan => (h.takes hnan).lastField fun field hfield => by simpa using hfield
  | _, .more hseparator h hothers, hnan => by
    have hfield := h.takes (hnan.mono fun token htoken => by simp [htoken])
    have hrest := hothers.takes (hnan.mono fun token htoken => by simp [htoken])
    exact Takes.fields hseparator hfield hrest fun field fields hfirst hfields =>
      List.forall_mem_cons.2 ⟨hfirst, hfields⟩

theorem SpellsField.takes : ∀ {tokens : List Token}, SpellsField tokens → NoNaN tokens →
    Takes field tokens StopsField IsLiteralField
  | _, .positional h, hnan =>
    ((h.takes hnan).literal 0).positional fun _ ⟨_, _, hvalue⟩ => .positional hvalue
  | _, .named name h, hnan =>
    ((h.takes (hnan.mono fun token htoken => by simp [htoken])).literal 0).named
      fun _ ⟨_, _, hvalue⟩ => .named name hvalue
  | _, @SpellsField.keyed key _ hkey h, hnan => by
    have hvalue := (h.takes (hnan.mono fun token htoken => by simp [htoken])).literal
    have hkeys : TakesBefore (·.isKey = true) key := by
      rcases hkey with hnumber | htext
      · exact (hnumber.takes (hnan.mono fun token htoken => by simp [htoken])).imp
          fun _ hkind => hkind ▸ rfl
      · exact htext.takes.imp fun _ hkind => hkind ▸ rfl
    exact (hkeys.literal 0).keyed (hvalue 0) fun _ _ ⟨_, hisKey, hfirst⟩ ⟨_, _, hsecond⟩ =>
      .keyed hfirst hisKey hsecond

end

/-! ### Scripts -/

theorem SpellsName.takes (h : SpellsName tokens) :
    Takes primary tokens AnyToken fun e => ∃ place name, e = .identifier place name := by
  induction h with
  | name name => exact takes_name fun location => ⟨location, name, rfl⟩
  | parens h ih => exact ih.suffixed.operand.expression.parenthesised

/-- Tokens that may come after an assignment. -/
def FollowsAssignment (tokens : List Token) (token : Token) : Prop :=
  FollowsLiteral tokens token ∧ token ≠ .symbol .comma

/-- **An assignment to names in parentheses is read as one.** -/
theorem SpellsAssignment.takes (h : SpellsAssignment SpellsName tokens) (hnan : NoNaN tokens) :
    Takes statement tokens (FollowsAssignment tokens) Statement.IsData := by
  obtain @⟨targets, values, hsome, htargets, hvalues, hliterals⟩ := h
  have htakes : ∀ part ∈ Parts.all (fun e => ∃ place name, e = .identifier place name) targets,
      Takes suffixed part.1 StopsSuffixes part.2 := by
    intro part hpart
    obtain ⟨phrase, hphrase, rfl⟩ := List.mem_map.1 hpart
    exact (htargets phrase hphrase).takes.suffixed
  have hreads : ∀ phrase ∈ values, TakesBefore (fun _ => True) phrase := by
    intro phrase hphrase
    refine (hliterals phrase hphrase).takes (hnan.mono fun token htoken => ?_)
    exact List.mem_append_right _ (List.mem_cons_of_mem _ (mem_separated hphrase htoken))
  have hexpressions : Takes expressions
      (Parts.all (fun e => ∃ kind, True ∧ IsLiteral e kind) values).tokens
      (FollowsAssignment (separated targets ++ .symbol .assign :: separated values))
      (Parts.all (fun e => ∃ kind, True ∧ IsLiteral e kind) values).Found := by
    refine takes_expressionsBefore (by simpa [Parts.all] using hvalues) (fun _ h => h.2) ?_ ?_
    · intro part hpart
      obtain ⟨phrase, hphrase, rfl⟩ := List.mem_map.1 hpart
      exact (hreads phrase hphrase 0).mono fun _ heq => heq ▸ ⟨rfl, fun _ => rfl⟩
    · intro part hpart
      rw [Parts.all, List.getLast?_map] at hpart
      obtain ⟨phrase, hphrase, rfl⟩ := Option.map_eq_some_iff.1 hpart
      refine (hreads phrase (List.mem_of_getLast? hphrase) 0).mono fun token hfollows => ?_
      refine ⟨hfollows.1.1, fun hend => hfollows.1.2 ?_⟩
      exact ((hend.separated hphrase).cons _).append _
  have hassigned := takes_assignment (by simpa [Parts.all] using hsome) htakes hexpressions
    fun location found expressions hfound hexpressions =>
      Statement.IsData.assignment location (Parts.forall_of_found hfound)
        fun value hvalue => (Parts.forall_of_found hexpressions value hvalue).imp fun _ h => h.2
  simpa using hassigned

theorem SpellsName.begins (h : SpellsName tokens) :
    ∃ first rest, tokens = first :: rest ∧
      (first = .symbol .leftParen ∨ ∃ name, first = .name name) := by
  cases h with
  | name name => exact ⟨_, _, rfl, .inr ⟨name, rfl⟩⟩
  | parens h => exact ⟨_, _, rfl, .inl rfl⟩

/-- What an assignment comes before begins with a semicolon, a parenthesis or a name. -/
theorem SpellsScript.begins {token : Token} (h : SpellsScript (token :: others)) :
    token = .symbol .semicolon ∨ token = .symbol .leftParen ∨ ∃ name, token = .name name := by
  generalize hall : token :: others = all at h
  cases h with
  | none => cases hall
  | semicolon h => exact .inl (List.cons.inj hall).1
  | assignment h hothers hapart =>
    obtain @⟨targets, values, hsome, htargets, -, -⟩ := h
    obtain ⟨target, targets, rfl⟩ := List.exists_cons_of_ne_nil hsome
    obtain ⟨first, rest, rfl, hfirst⟩ := (htargets target (List.mem_cons_self ..)).begins
    rw [separated_cons] at hall
    obtain ⟨rfl, -⟩ := List.cons.inj hall
    exact .inr hfirst

/-- An assignment may come before what is spelled as a script, if a parenthesis does not call what
is before it. -/
theorem SpellsScript.leads (h : SpellsScript others)
    (hapart : EndsInParen tokens → others.head? ≠ some (.symbol .leftParen)) :
    Leads (FollowsAssignment tokens) others ClosesBlock := by
  cases others with
  | nil =>
    intro token hcloses
    have hstops := hcloses.stopsStatement.1
    exact ⟨⟨hstops.1.2, fun _ => hstops.1.1⟩, hstops.2⟩
  | cons token others =>
    rcases h.begins with rfl | rfl | ⟨name, rfl⟩
    · exact .cons ⟨⟨rfl, fun _ => rfl⟩, by simp⟩
    · exact .cons ⟨⟨rfl, fun hend => absurd rfl (hapart hend)⟩, by simp⟩
    · exact .cons ⟨⟨rfl, fun _ => rfl⟩, by simp⟩

/-- **What is spelled as a script is read as data.** -/
theorem SpellsScript.takes (h : SpellsScript tokens) (hnan : NoNaN tokens) :
    Takes block tokens ClosesBlock fun statements => ∀ s ∈ statements, Statement.IsData s := by
  induction h with
  | none => exact takes_block (by simp)
  | semicolon h ih =>
    exact (ih (hnan.mono fun token htoken => List.mem_cons_of_mem _ htoken)).semicolon
  | assignment h hothers hapart ih =>
    have hfirst := h.takes (hnan.mono fun token htoken => List.mem_append_left _ htoken)
    have hrest := ih (hnan.mono fun token htoken => List.mem_append_right _ htoken)
    refine hfirst.block ?_ hrest (hothers.leads hapart)
      fun first statements hdata hall => List.forall_mem_cons.2 ⟨hdata, hall⟩
    rintro _ ⟨_, _, _⟩ place values
    simp

/-- An assignment to names begins with one. -/
theorem SpellsAssignment.begins (h : SpellsAssignment IsNameToken tokens) :
    ∃ name others, tokens = .name name :: others := by
  obtain @⟨targets, values, hsome, htargets, -, -⟩ := h
  obtain ⟨target, targets, rfl⟩ := List.exists_cons_of_ne_nil hsome
  obtain ⟨name, rfl⟩ := htargets target (List.mem_cons_self ..)
  exact ⟨name, _, by rw [separated_cons]; rfl⟩

/-- Assignments to names alone may come in any order. -/
theorem SpellsData.script (h : SpellsData IsNameToken tokens) : SpellsScript tokens := by
  induction h with
  | none => exact .none
  | semicolon h ih => exact .semicolon ih
  | assignment h hothers ih =>
    obtain ⟨hsome, htargets, hvalues, hliterals⟩ := h
    have hnames := fun tokens htokens => (htargets tokens htokens).elim fun name heq =>
      heq ▸ SpellsName.name name
    refine .assignment (.intro hsome hnames hvalues hliterals) ih fun _ => ?_
    cases hothers with
    | none | semicolon _ => simp
    | assignment h hothers =>
      obtain ⟨name, others, rfl⟩ := h.begins
      simp

/-- **What is spelled as data is read as data.** -/
theorem SpellsData.takes (h : SpellsData IsNameToken tokens) (hnan : NoNaN tokens) :
    Takes block tokens ClosesBlock fun statements => ∀ s ∈ statements, Statement.IsData s :=
  h.script.takes hnan

/-! ## What is read as data is spelled by the rules -/

/-- The rule for the literals of a kind. -/
def SpellsKind : Kind → List Token → Prop
  | .text => SpellsText
  | .number _ => SpellsNumber
  | _ => SpellsLiteral

theorem SpellsKind.literal {kind : Kind} (h : SpellsKind kind tokens) : SpellsLiteral tokens := by
  cases kind with
  | text => exact .text h
  | number isNaN => exact .number h
  | _ => exact h

theorem SpellsKind.parens {kind : Kind} (h : SpellsKind kind tokens) :
    SpellsKind kind (parenthesised tokens) := by
  cases kind with
  | text => exact SpellsText.parens h
  | number isNaN => exact SpellsNumber.parens h
  | _ => exact SpellsLiteral.parens h

/-- Literals and names, which are all that data is made of. -/
def Expression.IsSimple (e : Expression) : Prop :=
  (∃ kind, IsLiteral e kind) ∨ ∃ place name, e = .identifier place name

/-- If an expression is a literal or a name, the tokens are spelled as one by the rules. -/
structure SpellsExpression (e : Expression) (tokens : List Token) : Prop where
  /-- A literal is spelled as one of its kind. -/
  literal : ∀ kind, IsLiteral e kind → SpellsKind kind tokens
  /-- A name is spelled as one. -/
  name : ∀ place name, e = .identifier place name → SpellsName tokens

theorem SpellsKind.key {kind : Kind} (h : SpellsKind kind tokens) (hisKey : kind.isKey = true) :
    SpellsNumber tokens ∨ SpellsText tokens := by
  cases kind with
  | text => exact .inr h
  | number isNaN => exact .inl h
  | _ => cases hisKey

theorem SpellsExpression.parens {e : Expression} (h : SpellsExpression e tokens) :
    SpellsExpression e (parenthesised tokens) where
  literal kind hliteral := SpellsKind.parens (h.literal kind hliteral)
  name place name heq := .parens (h.name place name heq)

/-- A unary operation is spelled with its operator first. -/
theorem SpellsExpression.unary {argument : Expression} {operator : UnaryOperator} {token : Token}
    (h : SpellsExpression argument tokens)
    (hoperator : UnaryOperator.ofToken? token = some operator) (place : Option Location) :
    SpellsExpression (.unary place operator argument) (token :: tokens) where
  literal _ hliteral := by
    obtain rfl := UnaryOperator.ofToken?_eq_some_iff.1 hoperator
    cases hliteral with
    | negative _ hnumber => exact SpellsNumber.negative (h.literal _ hnumber)
    | length _ htext => exact SpellsNumber.length (h.literal _ htext)
  name _ _ heq := nomatch heq

theorem spellsExpression_identifier (place : Option Location) (name : String) :
    SpellsExpression (.identifier place name) [.name name] where
  literal _ h := nomatch h
  name _ _ _ := .name name

/-- What was read between some tokens and the rest of them is spelled in a given way. -/
def Used (spelled : List Token → Prop) (placed rest : List PlacedToken) : Prop :=
  ∃ used, placed = used ++ rest ∧ spelled (used.map PlacedToken.token)

variable {spelled second whole : List Token → Prop} {placed left rest : List PlacedToken}
  {token : Token} {location : Location} {fuel limit : Nat} {e : Expression}

theorem Used.nil (h : spelled []) : Used spelled rest rest := ⟨[], rfl, h⟩

theorem Used.cons (h : Used spelled left rest)
    (hwhole : ∀ tokens, spelled tokens → whole (token :: tokens)) :
    Used whole (⟨token, location⟩ :: left) rest := by
  obtain ⟨used, rfl, hused⟩ := h
  exact ⟨⟨token, location⟩ :: used, rfl, hwhole _ hused⟩

/-- What stands after a token. -/
theorem Used.after (h : Used spelled left rest) (token : Token) (location : Location) :
    Used (fun tokens => ∃ others, tokens = token :: others ∧ spelled others)
      (⟨token, location⟩ :: left) rest :=
  h.cons fun others hothers => ⟨others, rfl, hothers⟩

theorem Used.one (h : spelled [token]) : Used spelled (⟨token, location⟩ :: rest) rest :=
  ⟨[⟨token, location⟩], rfl, h⟩

/-- What stands between two tokens. -/
theorem Used.enclosed {opening closing : Token} {place : Location}
    (h : Used spelled left (⟨closing, place⟩ :: rest))
    (hwhole : ∀ tokens, spelled tokens → whole (opening :: (tokens ++ [closing]))) :
    Used whole (⟨opening, location⟩ :: left) rest := by
  obtain ⟨used, rfl, hused⟩ := h
  refine ⟨⟨opening, location⟩ :: (used ++ [⟨closing, place⟩]), by simp, ?_⟩
  rw [List.map_cons, List.map_append]
  exact hwhole _ hused

theorem Used.append (hfirst : Used spelled placed left) (hsecond : Used second left rest)
    (hwhole : ∀ tokens others, spelled tokens → second others → whole (tokens ++ others)) :
    Used whole placed rest := by
  obtain ⟨used, rfl, hused⟩ := hfirst
  obtain ⟨others, rfl, hothers⟩ := hsecond
  refine ⟨used ++ others, (List.append_assoc ..).symm, ?_⟩
  rw [List.map_append]
  exact hwhole _ _ hused hothers

theorem used_self (used rest : List PlacedToken) :
    Used (· = used.map PlacedToken.token) (used ++ rest) rest := ⟨used, rfl, rfl⟩

theorem Used.andFurther {first others : List Token} (hfirst : Used (· = first) placed left)
    (hothers : Used (· = others) left rest) : Used (· = first ++ others) placed rest :=
  hfirst.append hothers fun _ _ htokens hothers => by rw [htokens, hothers]

theorem Used.imp (h : Used spelled placed rest) (hwhole : ∀ tokens, spelled tokens → whole tokens) :
    Used whole placed rest := by
  obtain ⟨used, rfl, hused⟩ := h
  exact ⟨used, rfl, hwhole _ hused⟩

/-! ### Steps of the readers -/

theorem not_isSimple_node (connective : Connective) (place : Option Location)
    (left right : Expression) : ¬ (connective.node place left right).IsSimple := by
  rintro (⟨kind, h⟩ | ⟨place, name, h⟩)
  · cases connective <;> cases h
  · cases connective <;> cases h

/-- After an expression only operations come of connectives. -/
theorem connected_eq_done {left : Expression}
    (h : connected fuel limit left placed = .done e rest) (hsimple : e.IsSimple) :
    e = left ∧ placed = rest := by
  induction fuel generalizing left placed with
  | zero => cases h
  | succ fuel ih =>
    rw [connected] at h
    obtain ⟨next, tokens, hpeek, h⟩ := bind_eq_done_iff.1 h
    cases hpeek
    cases placed with
    | nil =>
      cases h
      exact ⟨rfl, rfl⟩
    | cons next placed =>
      obtain ⟨token, location⟩ := next
      cases hconnective : Connective.ofToken? token with
      | none =>
        simp only [List.head?_cons, hconnective] at h
        cases h
        exact ⟨rfl, rfl⟩
      | some connective =>
        simp only [List.head?_cons, hconnective] at h
        by_cases hpower : connective.leftPower ≤ limit
        · rw [if_pos hpower] at h
          cases h
          exact ⟨rfl, rfl⟩
        · rw [if_neg hpower] at h
          obtain ⟨_, tokens, -, h⟩ := bind_eq_done_iff.1 h
          obtain ⟨right, tokens, -, h⟩ := bind_eq_done_iff.1 h
          -- what is read further on keeps the operation, which is neither a literal nor a name
          obtain ⟨rfl, -⟩ := ih h
          exact absurd hsimple (not_isSimple_node connective _ left right)

theorem not_isSimple_member (place : Option Location) (base : Expression) (name : String) :
    ¬ (Expression.member place base name).IsSimple := by
  rintro (⟨kind, h⟩ | ⟨_, _, h⟩) <;> cases h

theorem not_isSimple_index (place : Option Location) (base index : Expression) :
    ¬ (Expression.index place base index).IsSimple := by
  rintro (⟨kind, h⟩ | ⟨_, _, h⟩) <;> cases h

theorem not_isSimple_call (place : Option Location) (base : Expression)
    (arguments : List Expression) : ¬ (Expression.call place base arguments).IsSimple := by
  rintro (⟨kind, h⟩ | ⟨_, _, h⟩) <;> cases h

/-- After a primary expression only members and calls come of suffixes. -/
theorem suffixes_eq_done {base : Expression} (h : suffixes fuel base placed = .done e rest)
    (hsimple : e.IsSimple) : e = base ∧ placed = rest := by
  induction fuel generalizing base placed with
  | zero => cases h
  | succ fuel ih =>
    have hother {base : Expression} {tokens : List PlacedToken} (hnot : ¬ base.IsSimple)
        (hrun : suffixes fuel base tokens = .done e rest) : False := by
      obtain ⟨rfl, -⟩ := ih hrun
      exact hnot hsimple
    have hcall {place : Option Location} {base : Expression} {tokens : List PlacedToken}
        (hrun : (callArguments fuel >>= fun values => suffixes fuel (.call place base values))
          tokens = .done e rest) : False := by
      obtain ⟨values, left, -, hrun⟩ := bind_eq_done_iff.1 hrun
      exact hother (not_isSimple_call place base values) hrun
    rw [suffixes] at h
    obtain ⟨next, tokens, hpeek, h⟩ := bind_eq_done_iff.1 h
    cases hpeek
    cases placed with
    | nil =>
      cases h
      exact ⟨rfl, rfl⟩
    | cons next placed =>
      obtain ⟨token, location⟩ := next
      cases token with
      | symbol mark =>
        cases mark with
        | dot =>
          obtain ⟨_, tokens, -, h⟩ := bind_eq_done_iff.1 h
          obtain ⟨name, tokens, -, h⟩ := bind_eq_done_iff.1 h
          exact (hother (not_isSimple_member _ base name) h).elim
        | leftBracket =>
          obtain ⟨_, tokens, -, h⟩ := bind_eq_done_iff.1 h
          obtain ⟨index, tokens, -, h⟩ := bind_eq_done_iff.1 h
          obtain ⟨_, tokens, -, h⟩ := bind_eq_done_iff.1 h
          exact (hother (not_isSimple_index _ base index) h).elim
        | colon =>
          obtain ⟨_, tokens, -, h⟩ := bind_eq_done_iff.1 h
          obtain ⟨name, tokens, -, h⟩ := bind_eq_done_iff.1 h
          exact (hcall h).elim
        | leftParen | leftBrace => exact (hcall h).elim
        | _ =>
          cases h
          exact ⟨rfl, rfl⟩
      | quoted raw => exact (hcall h).elim
      | _ =>
        cases h
        exact ⟨rfl, rfl⟩

/-! ### All notions -/

/-- Literals and names that were read with some fuel are spelled by the rules. -/
structure Spelled (fuel : Nat) : Prop where
  expression : ∀ {limit e placed rest}, expression fuel limit placed = .done e rest →
    e.IsSimple → Used (SpellsExpression e) placed rest
  operand : ∀ {e placed rest}, operand fuel placed = .done e rest →
    e.IsSimple → Used (SpellsExpression e) placed rest
  primary : ∀ {e placed rest}, primary fuel placed = .done e rest →
    e.IsSimple → Used (SpellsExpression e) placed rest
  suffixed : ∀ {e placed rest}, suffixed fuel placed = .done e rest →
    e.IsSimple → Used (SpellsExpression e) placed rest
  table : ∀ {e placed rest}, table fuel placed = .done e rest →
    e.IsSimple → Used (SpellsExpression e) placed rest
  fields : ∀ {values placed rest}, fields fuel placed = .done values rest →
    (∀ value ∈ values, IsLiteralField value) → Used SpellsFields placed rest
  field : ∀ {value placed rest}, field fuel placed = .done value rest →
    IsLiteralField value → Used SpellsField placed rest

namespace Spelled

theorem expression_succ (ih : Spelled fuel)
    (h : Parser.expression (fuel + 1) limit placed = .done e rest) (hsimple : e.IsSimple) :
    Used (SpellsExpression e) placed rest := by
  cases placed with
  | nil => cases h
  | cons next placed =>
    obtain ⟨token, location⟩ := next
    cases hunary : UnaryOperator.ofToken? token with
    | none =>
      rw [expression_of_operand hunary] at h
      obtain ⟨first, left, hfirst, h⟩ := bind_eq_done_iff.1 h
      obtain ⟨rfl, rfl⟩ := connected_eq_done h hsimple
      exact ih.operand hfirst hsimple
    | some operator =>
      rw [Parser.expression] at h
      obtain ⟨next, tokens, hpeek, h⟩ := bind_eq_done_iff.1 h
      cases hpeek
      simp only [List.head?_cons, hunary] at h
      obtain ⟨_, tokens, hadvance, h⟩ := bind_eq_done_iff.1 h
      cases hadvance
      obtain ⟨argument, left, hargument, h⟩ := bind_eq_done_iff.1 h
      obtain ⟨rfl, rfl⟩ := connected_eq_done h hsimple
      -- of the operators only the negation of a number and the length of a text are literals
      have hliteral : argument.IsSimple := by
        rcases hsimple with ⟨kind, hliteral⟩ | ⟨_, _, hname⟩
        · cases hliteral with
          | negative _ h => exact .inl ⟨_, h⟩
          | length _ h => exact .inl ⟨_, h⟩
        · cases hname
      exact (ih.expression hargument hliteral).cons fun tokens htokens =>
        htokens.unary hunary location

theorem operand_succ (ih : Spelled fuel) (h : Parser.operand (fuel + 1) placed = .done e rest)
    (hsimple : e.IsSimple) : Used (SpellsExpression e) placed rest := by
  rw [Parser.operand] at h
  obtain ⟨next, tokens, hpeek, h⟩ := bind_eq_done_iff.1 h
  cases hpeek
  cases placed with
  | nil => cases h
  | cons next placed =>
    obtain ⟨token, location⟩ := next
    have hsuffixed (hrun : Parser.suffixed fuel (⟨token, location⟩ :: placed) = .done e rest) :
        Used (SpellsExpression e) (⟨token, location⟩ :: placed) rest := ih.suffixed hrun hsimple
    cases token with
    | keyword word =>
      cases word with
      | nilWord =>
        cases h
        refine Used.one ⟨fun _ hliteral => ?_, by simp⟩
        cases hliteral
        exact SpellsLiteral.nil
      | trueWord =>
        cases h
        refine Used.one ⟨fun _ hliteral => ?_, by simp⟩
        cases hliteral
        exact SpellsLiteral.boolean true
      | falseWord =>
        cases h
        refine Used.one ⟨fun _ hliteral => ?_, by simp⟩
        cases hliteral
        exact SpellsLiteral.boolean false
      | functionWord => cases h
      | _ => exact hsuffixed h
    | number value =>
      cases h
      refine Used.one ⟨fun _ hliteral => ?_, by simp⟩
      cases hliteral
      exact SpellsNumber.number value
    | quoted raw =>
      cases h
      refine Used.one ⟨fun _ hliteral => ?_, by simp⟩
      cases hliteral
      exact SpellsText.quoted raw
    | symbol mark =>
      cases mark with
      | ellipsis =>
        cases h
        rcases hsimple with ⟨kind, hliteral⟩ | ⟨_, _, hname⟩
        · cases hliteral
        · cases hname
      | leftBrace => exact ih.table h hsimple
      | _ => exact hsuffixed h
    | longBracket => cases h
    | name name => exact hsuffixed h

theorem primary_succ (ih : Spelled fuel) (h : Parser.primary (fuel + 1) placed = .done e rest)
    (hsimple : e.IsSimple) : Used (SpellsExpression e) placed rest := by
  rw [Parser.primary] at h
  obtain ⟨next, tokens, hpeek, h⟩ := bind_eq_done_iff.1 h
  cases hpeek
  cases placed with
  | nil => cases h
  | cons next placed =>
    obtain ⟨token, location⟩ := next
    cases token with
    | name name =>
      cases h
      exact Used.one (spellsExpression_identifier _ name)
    | symbol mark =>
      cases mark with
      | leftParen =>
        obtain ⟨_, tokens, hadvance, h⟩ := bind_eq_done_iff.1 h
        cases hadvance
        obtain ⟨inner, left, hinner, h⟩ := bind_eq_done_iff.1 h
        obtain ⟨closing, tokens, hclosing, h⟩ := bind_eq_done_iff.1 h
        cases h
        obtain rfl := expectSymbol_eq_done hclosing
        exact (ih.expression hinner hsimple).enclosed fun _ hspells => hspells.parens
      | _ => cases h
    | _ => cases h

theorem suffixed_succ (ih : Spelled fuel) (h : Parser.suffixed (fuel + 1) placed = .done e rest)
    (hsimple : e.IsSimple) : Used (SpellsExpression e) placed rest := by
  rw [Parser.suffixed] at h
  obtain ⟨base, left, hbase, h⟩ := bind_eq_done_iff.1 h
  obtain ⟨rfl, rfl⟩ := suffixes_eq_done h hsimple
  exact ih.primary hbase hsimple

theorem table_succ (ih : Spelled fuel) (h : Parser.table (fuel + 1) placed = .done e rest)
    (hsimple : e.IsSimple) : Used (SpellsExpression e) placed rest := by
  rw [Parser.table] at h
  obtain ⟨location, left, hopening, hafter⟩ := bind_eq_done_iff.1 h
  obtain ⟨fields, tokens, hfields, hlast⟩ := bind_eq_done_iff.1 hafter
  obtain ⟨closing, others, hclosing, hdone⟩ := bind_eq_done_iff.1 hlast
  cases hdone
  rw [expectSymbol_eq_done hclosing] at hfields
  rw [expectSymbol_eq_done hopening]
  have hliterals : ∀ field ∈ fields, IsLiteralField field := by
    rcases hsimple with ⟨kind, hliteral⟩ | ⟨_, _, hname⟩
    · cases hliteral with
      | table _ h => exact h
    · cases hname
  refine (ih.fields hfields hliterals).enclosed fun tokens htokens =>
    ⟨fun kind hliteral => ?_, by simp⟩
  cases hliteral with
  | table _ _ =>
    have htable := SpellsLiteral.table htokens
    unfold Kind.ofFields
    split
    · exact htable
    · exact htable

theorem fields_succ (ih : Spelled fuel) {values : List Field}
    (h : Parser.fields (fuel + 1) placed = .done values rest)
    (hliterals : ∀ value ∈ values, IsLiteralField value) : Used SpellsFields placed rest := by
  rcases fields_eq_done h with ⟨rfl, rfl⟩ | ⟨value, left, hvalue, ⟨rfl, rfl⟩ |
    ⟨separator, place, tokens, others, hseparator, rfl, hothers, rfl⟩⟩
  · exact .nil .none
  · exact (ih.field hvalue (hliterals value (List.mem_singleton_self value))).imp fun _ => .last
  · obtain ⟨hliteral, hrest⟩ := List.forall_mem_cons.1 hliterals
    have htail := (ih.fields hothers hrest).after (.symbol separator) place
    refine (ih.field hvalue hliteral).append htail ?_
    rintro tokens _ htokens ⟨others, rfl, hothers⟩
    exact .more hseparator htokens hothers

/-- A literal of a kind is spelled by the rule for it. -/
theorem literal (ih : Spelled fuel) (h : Parser.expression fuel limit placed = .done e rest)
    {kind : Kind} (hliteral : IsLiteral e kind) : Used (SpellsKind kind) placed rest :=
  (ih.expression h (.inl ⟨kind, hliteral⟩)).imp fun _ hspells => hspells.literal kind hliteral

theorem field_succ (ih : Spelled fuel) {value : Field}
    (h : Parser.field (fuel + 1) placed = .done value rest) (hliteral : IsLiteralField value) :
    Used SpellsField placed rest := by
  rw [Parser.field] at h
  obtain ⟨bracket, left, hbracket, hafter⟩ := bind_eq_done_iff.1 h
  rcases eat_eq_done hbracket with ⟨rfl, location, rfl⟩ | ⟨rfl, rfl⟩
  · obtain ⟨key, tokens, hkey, hafter⟩ := bind_eq_done_iff.1 hafter
    obtain ⟨closing, others, hclosing, hafter⟩ := bind_eq_done_iff.1 hafter
    obtain ⟨assign, values, hassign, hafter⟩ := bind_eq_done_iff.1 hafter
    obtain ⟨e, last, hvalue, hdone⟩ := bind_eq_done_iff.1 hafter
    cases hdone
    rw [expectSymbol_eq_done hclosing, expectSymbol_eq_done hassign] at hkey
    cases hliteral with
    | keyed hfirst hisKey hsecond =>
      have hvalues := ((ih.literal hvalue hsecond).after (.symbol .assign) assign).after
        (.symbol .rightBracket) closing
      have hfield :
          Used (fun tokens => SpellsField (.symbol .leftBracket :: tokens)) left rest := by
        refine (ih.literal hkey hfirst).append hvalues ?_
        rintro key _ hspells ⟨_, rfl, tokens, rfl, hspells'⟩
        exact .keyed (hspells.key hisKey) hspells'.literal
      exact hfield.cons fun _ hspells => hspells
  · rw [if_neg (by decide)] at hafter
    obtain ⟨named, tokens, hnamed, hafter⟩ := bind_eq_done_iff.1 hafter
    obtain ⟨rfl, hname⟩ := atNamedField_eq_done hnamed
    cases named with
    | false =>
      rw [if_neg (by decide)] at hafter
      obtain ⟨e, tokens, hvalue, hdone⟩ := bind_eq_done_iff.1 hafter
      cases hdone
      cases hliteral with
      | positional hvalue' =>
        exact (ih.literal hvalue hvalue').imp fun _ hspells => .positional hspells.literal
    | true =>
      obtain ⟨name, others, place, place', rfl⟩ := hname rfl
      obtain ⟨_, tokens, hname, hafter⟩ := bind_eq_done_iff.1 hafter
      cases hname
      obtain ⟨_, tokens, hadvance, hafter⟩ := bind_eq_done_iff.1 hafter
      cases hadvance
      obtain ⟨e, tokens, hvalue, hdone⟩ := bind_eq_done_iff.1 hafter
      cases hdone
      cases hliteral with
      | named _ hvalue' =>
        refine ((ih.literal hvalue hvalue').after (.symbol .assign) place').cons ?_
        rintro _ ⟨tokens, rfl, hspells⟩
        exact .named name hspells.literal

/-- **Whatever is read as a literal or a name is spelled by the rules.** -/
theorem all : ∀ fuel, Spelled fuel := by
  intro fuel
  induction fuel with
  | zero => constructor <;> intros <;> contradiction
  | succ fuel ih =>
    exact
      { expression := expression_succ ih
        operand := operand_succ ih
        primary := primary_succ ih
        suffixed := suffixed_succ ih
        table := table_succ ih
        fields := fields_succ ih
        field := field_succ ih }

end Spelled

/-! ### Scripts -/

/-- Further items of a list are spelled with a comma before each. -/
theorem used_further {item : Nat → Parser Expression} {more : Nat → Parser (List Expression)}
    (hmore : ReadsFurther item more) {ofItem : Expression → Prop}
    (hitem : ∀ {fuel e placed rest}, item fuel placed = .done e rest → ofItem e →
      Used spelled placed rest) {values : List Expression}
    (h : more fuel placed = .done values rest) (hvalues : ∀ value ∈ values, ofItem value) :
    ∃ phrases : List (List Token), (∀ phrase ∈ phrases, spelled phrase) ∧
      Used (· = phrases.flatMap (.symbol .comma :: ·)) placed rest := by
  induction fuel generalizing placed values with
  | zero =>
    rw [hmore.zero] at h
    cases h
  | succ fuel ih =>
    rw [hmore.succ] at h
    obtain ⟨given, left, hgiven, hafter⟩ := bind_eq_done_iff.1 h
    rcases eat_eq_done hgiven with ⟨rfl, location, rfl⟩ | ⟨rfl, rfl⟩
    · rw [if_pos rfl] at hafter
      obtain ⟨value, tokens, hvalue, hafter⟩ := bind_eq_done_iff.1 hafter
      obtain ⟨others, last, hothers, hdone⟩ := bind_eq_done_iff.1 hafter
      cases hdone
      obtain ⟨hfirst, hrest⟩ := List.forall_mem_cons.1 hvalues
      obtain ⟨used, rfl, hused⟩ := hitem hvalue hfirst
      obtain ⟨phrases, hphrases, hfurther⟩ := ih hothers hrest
      refine ⟨used.map PlacedToken.token :: phrases, List.forall_mem_cons.2 ⟨hused, hphrases⟩, ?_⟩
      exact ((used_self used tokens).andFurther hfurther).cons fun _ htokens => by
        rw [htokens, List.flatMap_cons, List.cons_append]
    · cases hafter
      exact ⟨[], by simp, .nil rfl⟩

theorem used_target (h : suffixed fuel placed = .done e rest)
    (hname : ∃ place name, e = .identifier place name) : Used SpellsName placed rest := by
  obtain ⟨place, name, rfl⟩ := hname
  exact ((Spelled.all fuel).suffixed h (.inr ⟨place, name, rfl⟩)).imp fun _ hspells =>
    hspells.name place name rfl

theorem used_literal (h : expression fuel limit placed = .done e rest)
    (hliteral : ∃ kind, IsLiteral e kind) : Used SpellsLiteral placed rest := by
  obtain ⟨kind, hliteral⟩ := hliteral
  exact ((Spelled.all fuel).literal h hliteral).imp fun _ hspells => hspells.literal

/-- Literals with commas between them. -/
theorem used_expressions {values : List Expression}
    (h : expressions fuel placed = .done values rest)
    (hvalues : ∀ value ∈ values, ∃ kind, IsLiteral value kind) :
    ∃ phrases : List (List Token), phrases ≠ [] ∧ (∀ phrase ∈ phrases, SpellsLiteral phrase) ∧
      Used (· = separated phrases) placed rest := by
  cases fuel with
  | zero => cases h
  | succ fuel =>
    rw [expressions] at h
    obtain ⟨value, left, hvalue, hafter⟩ := bind_eq_done_iff.1 h
    obtain ⟨others, last, hothers, hdone⟩ := bind_eq_done_iff.1 hafter
    cases hdone
    obtain ⟨hfirst, hrest⟩ := List.forall_mem_cons.1 hvalues
    obtain ⟨used, rfl, hused⟩ := used_literal hvalue hfirst
    obtain ⟨phrases, hphrases, hfurther⟩ := used_further readsFurther_moreExpressions
      used_literal hothers hrest
    refine ⟨used.map PlacedToken.token :: phrases, by simp,
      List.forall_mem_cons.2 ⟨hused, hphrases⟩, ?_⟩
    rw [separated_cons]
    exact (used_self used left).andFurther hfurther

/-- An assignment of literals to names. -/
theorem used_assignmentOrCall {read : Statement}
    (h : assignmentOrCall fuel location placed = .done read rest) (hdata : read.IsData) :
    Used (SpellsAssignment SpellsName) placed rest := by
  obtain ⟨less, first, left, rfl, hfirst, ⟨others, assign, tokens, values, hothers, hvalues, rfl⟩ |
    ⟨-, rfl, -⟩⟩ := assignmentOrCall_eq_done h
  · cases hdata with
    | assignment _ htargets hliterals =>
      obtain ⟨hname, hnames⟩ := List.forall_mem_cons.1 htargets
      obtain ⟨used, rfl, hused⟩ := used_target hfirst hname
      obtain ⟨names, hspells, hfurther⟩ := used_further readsFurther_moreTargets used_target
        hothers hnames
      obtain ⟨literals, hsome, hspells', hused'⟩ := used_expressions hvalues hliterals
      refine ((used_self used left).andFurther hfurther).append
        (hused'.after (.symbol .assign) assign) ?_
      rintro _ _ rfl ⟨_, rfl, rfl⟩
      rw [← separated_cons]
      exact .intro (by simp) (List.forall_mem_cons.2 ⟨hused, hspells⟩) hsome hspells'
  · cases hdata

theorem used_statement {read : Statement} (h : statement fuel placed = .done read rest)
    (hdata : read.IsData) : Used (SpellsAssignment SpellsName) placed rest := by
  cases fuel with
  | zero => cases h
  | succ fuel =>
    cases statement_eq_done h with
    | assignmentOrCall _ hother => exact used_assignmentOrCall hother hdata
    | _ => cases hdata

/-- **What is read as data is spelled as data**, if names in parentheses are allowed. -/
theorem used_block {statements : List Statement} (h : block fuel placed = .done statements rest)
    (hdata : ∀ statement ∈ statements, statement.IsData) :
    Used (SpellsData SpellsName) placed rest := by
  induction fuel generalizing placed statements with
  | zero => cases h
  | succ fuel ih =>
    rcases block_eq_done h with ⟨rfl, rfl⟩ | ⟨place, left, rfl, hothers⟩ |
      ⟨first, left, hfirst, ⟨rfl, rfl⟩ | ⟨-, others, hothers, rfl⟩⟩
    · exact .nil .none
    · exact (ih hothers hdata).cons fun _ => .semicolon
    · have hstatement := hdata first (List.mem_singleton_self first)
      refine (used_statement hfirst hstatement).imp fun tokens h => ?_
      rw [← List.append_nil tokens]
      exact .assignment h .none
    · obtain ⟨hstatement, hstatements⟩ := List.forall_mem_cons.1 hdata
      exact (used_statement hfirst hstatement).append (ih hothers hstatements)
        fun _ _ => .assignment

/-- **The scripts that have a value are those that are spelled as data**: a text whose tokens are
spelled by the rules has one, and the tokens of a text that has one are spelled by the rules, if a
target may also be a name in parentheses. -/
theorem value_iff_spellsData {source : String} {tokens : List PlacedToken}
    (h : Token.scan source = .ok tokens) (name : String) :
    (SpellsData IsNameToken (tokens.map PlacedToken.token) →
        ∃ chunk, Chunk.parse source = .ok chunk ∧ ∃ value, chunk.evaluate name = .ok value) ∧
      ((∃ chunk, Chunk.parse source = .ok chunk ∧ ∃ value, chunk.evaluate name = .ok value) →
        SpellsData SpellsName (tokens.map PlacedToken.token)) := by
  have hparse : Chunk.parse source = Chunk.ofTokens tokens := by
    rw [Chunk.parse, h]
    rfl
  rw [hparse]
  constructor
  · intro hspells
    have hnan := Token.noNaN_of_scanFrom h
    obtain ⟨chunk, hchunk, hdata⟩ := (hspells.takes hnan).ofTokens rfl
    exact ⟨chunk, hchunk, (chunk.exists_evaluate_iff name).2 hdata⟩
  · rintro ⟨chunk, hchunk, hvalue⟩
    obtain ⟨fuel, hrun⟩ := Chunk.ofTokens_eq_ok_iff.1 hchunk
    obtain ⟨used, heq, hspells⟩ :=
      used_block (block_of_chunk hrun) ((chunk.exists_evaluate_iff name).1 hvalue)
    rw [heq, List.append_nil]
    exact hspells

/-- A table with the length of a text as a key has a value. -/
theorem value_iff_spellsData_table :
    ∃ tokens, Token.scan "t = \x7b[#'ab'] = true; (nil),\x7d" = .ok tokens ∧
      SpellsData IsNameToken (tokens.map PlacedToken.token) ∧
      ∃ chunk, Chunk.parse "t = \x7b[#'ab'] = true; (nil),\x7d" = .ok chunk ∧
        ∃ value, chunk.evaluate "t" = .ok value := by
  have hkeyed : SpellsField [.symbol .leftBracket, .symbol .hash, .quoted "'ab'",
      .symbol .rightBracket, .symbol .assign, .keyword .trueWord] :=
    .keyed (.inl (.length (.quoted _))) (.boolean true)
  have htable : SpellsLiteral _ :=
    .table (.more (.inr rfl) hkeyed (.more (.inl rfl) (.positional (.parens .nil)) .none))
  have hassignment : SpellsAssignment IsNameToken _ :=
    @SpellsAssignment.intro IsNameToken [[.name "t"]] [_] (by simp)
      (List.forall_mem_singleton.2 ⟨"t", rfl⟩) (by simp) (List.forall_mem_singleton.2 htable)
  obtain ⟨tokens, hscan, htokens⟩ :
      ∃ tokens, Token.scan "t = \x7b[#'ab'] = true; (nil),\x7d" = .ok tokens ∧
        tokens.map PlacedToken.token = [.name "t", .symbol .assign, .symbol .leftBrace,
          .symbol .leftBracket, .symbol .hash, .quoted "'ab'", .symbol .rightBracket,
          .symbol .assign, .keyword .trueWord, .symbol .semicolon, .symbol .leftParen,
          .keyword .nilWord, .symbol .rightParen, .symbol .comma, .symbol .rightBrace] :=
    ⟨_, rfl, rfl⟩
  have hspells : SpellsData IsNameToken (tokens.map PlacedToken.token) := by
    rw [htokens]
    exact .assignment hassignment .none
  exact ⟨tokens, hscan, hspells, (value_iff_spellsData hscan "t").1 hspells⟩

end Script
end ProductionRates
