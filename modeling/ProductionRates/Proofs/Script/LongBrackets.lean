import ProductionRates.Proofs.Script.Continuation

/-!
# Long brackets in place of strings

A string in long brackets cannot be written in a data script.  Where a quoted string may stand, it
is one of two things: an operand, or the argument of what is called.  Here is what becomes of a long
bracket in its place.  Two readings are compared, one with the string and one with the bracket: up
to that place they are the same, and from there on the second only has to come to its error.

* `Token.endsCallee`, `EndsCallee` — tokens after which a quoted string is the argument of a call;
* `Exchange` — a string and a long bracket in its place;
* `Parser.Halts` — readers that come to nothing but errors from the bracket on;
* `Parser.Shares` — a reading with the string is shared with the bracket, or the bracket is refused;
* `Parser.Sharing.all` — so it is for every notion of the grammar, by induction on the fuel;
* `ofTokens_longBracket` — the bracket is refused by name as an operand, and as any unexpected token
  after what is called.
-/

namespace ProductionRates
namespace Script

/-! ## Callees -/

/-- Tokens that end a name or an expression in parentheses with its suffixes. -/
def Token.endsCallee : Token → Bool
  | .name _ | .quoted _ | .symbol .rightParen | .symbol .rightBracket | .symbol .rightBrace => true
  | _ => false

/-- The last of the tokens is one that ends a callee. -/
def EndsCallee (tokens : List PlacedToken) : Prop :=
  ∃ last ∈ tokens.getLast?, last.token.endsCallee = true

/-! ## The exchange -/

/-- A quoted string and a long bracket in its place, each with the tokens after it. -/
structure Exchange where
  /-- The string. -/
  raw : String
  /-- Where it stands. -/
  site : Location
  /-- The tokens after it. -/
  more : List PlacedToken
  /-- Where the bracket stands. -/
  place : Location
  /-- The tokens after that. -/
  rest : List PlacedToken
  /-- Whether the tokens before the place end with a callee. -/
  called : Prop

namespace Exchange

/-- The string and what follows it. -/
def string (x : Exchange) : List PlacedToken := ⟨.quoted x.raw, x.site⟩ :: x.more

/-- The bracket and what follows it. -/
def bracket (x : Exchange) : List PlacedToken := ⟨.longBracket, x.place⟩ :: x.rest

/-- The tokens before the place end with a callee, or do not, as is said; without tokens anything
may be said. -/
def Ends (x : Exchange) (tokens : List PlacedToken) : Prop :=
  ∀ last ∈ tokens.getLast?, (x.called ↔ last.token.endsCallee = true)

/-- How the bracket is refused: as an unexpected token after a callee, and by name elsewhere. -/
def Refusal (x : Exchange) (error : ParseError) : Prop :=
  (x.called ∧ ∃ expected, error = .unexpectedToken .longBracket expected x.place) ∨
    (¬ x.called ∧ error = .unsupported .longBracketString x.place)

/-- The bracket is refused, or will be after the callee which it follows. -/
def Refuses {α : Type} (x : Exchange) : Outcome α → Prop
  | .done _ left => x.called ∧ left = x.bracket
  | .failed error => x.Refusal error
  | .exhausted => True

theorem ends_tail {x : Exchange} {next : PlacedToken} {behind : List PlacedToken}
    (h : x.Ends (next :: behind)) :
    x.Ends behind ∧ (behind = [] → (x.called ↔ next.token.endsCallee = true)) := by
  cases behind with
  | nil => exact ⟨nofun, fun _ => h next rfl⟩
  | cons other behind =>
    refine ⟨fun last hlast => h last ?_, nofun⟩
    rwa [List.getLast?_cons_cons]

end Exchange

namespace Parser

variable {α β : Type} {x : Exchange} {p q : Parser α} {f : α → Parser β} {after mid : Prop}
  {fuel limit : Nat} {next : PlacedToken} {tokens behind : List PlacedToken}

/-! ## At the bracket -/

/-- At the bracket the reader does not expect it. -/
def Balks (x : Exchange) (p : Parser α) : Prop :=
  match p x.bracket with
  | .done _ _ => False
  | .failed error => ∃ expected, error = .unexpectedToken .longBracket expected x.place
  | .exhausted => True

/-- At a bracket after a callee the reader stops, or does not expect it. -/
def Halts (x : Exchange) (p : Parser α) : Prop := x.called → x.Refuses (p x.bracket)

theorem balks_exhausted : Balks x (exhausted : Parser α) := trivial

theorem balks_unexpected (expected : Expected) : Balks x (unexpected expected : Parser α) :=
  ⟨expected, rfl⟩

theorem balks_expectSymbol (mark : Symbol) : Balks x (expectSymbol mark) := ⟨.symbol mark, rfl⟩

theorem balks_expectKeyword (word : Keyword) : Balks x (expectKeyword word) := ⟨.keyword word, rfl⟩

theorem Balks.bind (h : Balks x p) : Balks x (p >>= f) := by
  unfold Balks at *
  rw [bind_run]
  cases hrun : p x.bracket with
  | done value left => simp [hrun] at h
  | failed error => simpa [hrun] using h
  | exhausted => trivial

theorem Balks.halts (h : Balks x p) : Halts x p := by
  intro hcalled
  unfold Balks at h
  cases hrun : p x.bracket with
  | done value left => simp [hrun] at h
  | failed error =>
    rw [hrun] at h
    exact .inl ⟨hcalled, h⟩
  | exhausted => trivial

theorem halts_pure (value : α) : Halts x (pure value) := fun hcalled => ⟨hcalled, rfl⟩

theorem halts_exhausted : Halts x (exhausted : Parser α) := fun _ => trivial

theorem Halts.bind (hp : Halts x p) (hf : ∀ value, Halts x (f value)) : Halts x (p >>= f) := by
  intro hcalled
  have hfirst := hp hcalled
  rw [bind_run]
  cases hrun : p x.bracket with
  | done value left =>
    rw [hrun] at hfirst
    obtain ⟨-, rfl⟩ := hfirst
    exact hf value hcalled
  | failed error =>
    rw [hrun] at hfirst
    exact hfirst
  | exhausted => trivial

theorem halts_moreTargets : Halts x (moreTargets fuel) := by
  cases fuel with
  | zero => exact halts_exhausted
  | succ fuel =>
    rw [moreTargets]
    exact halts_pure []

theorem halts_moreExpressions : Halts x (moreExpressions fuel) := by
  cases fuel with
  | zero => exact halts_exhausted
  | succ fuel =>
    rw [moreExpressions]
    exact halts_pure []

theorem halts_connected (left : Expression) : Halts x (connected fuel limit left) := by
  cases fuel with
  | zero => exact halts_exhausted
  | succ fuel =>
    rw [connected]
    exact halts_pure left

theorem halts_suffixes (base : Expression) : Halts x (suffixes fuel base) := by
  cases fuel with
  | zero => exact halts_exhausted
  | succ fuel =>
    rw [suffixes]
    exact halts_pure base

theorem balks_primary : Balks x (primary fuel) := by
  cases fuel with
  | zero => exact balks_exhausted
  | succ fuel =>
    rw [primary]
    show Balks x (unexpected .expression : Parser Expression)
    exact balks_unexpected .expression

theorem balks_suffixed : Balks x (suffixed fuel) := by
  cases fuel with
  | zero => exact balks_exhausted
  | succ fuel =>
    rw [suffixed]
    exact balks_primary.bind

theorem balks_assignmentOrCall (location : Location) : Balks x (assignmentOrCall fuel location) := by
  cases fuel with
  | zero => exact balks_exhausted
  | succ fuel =>
    rw [assignmentOrCall]
    exact balks_suffixed.bind

theorem balks_statement : Balks x (statement fuel) := by
  cases fuel with
  | zero => exact balks_exhausted
  | succ fuel =>
    rw [statement]
    exact balks_assignmentOrCall x.place

theorem balks_block : Balks x (block fuel) := by
  cases fuel with
  | zero => exact balks_exhausted
  | succ fuel =>
    rw [block]
    exact balks_statement.bind

theorem balks_moreArms : Balks x (moreArms fuel) := by
  cases fuel with
  | zero => exact balks_exhausted
  | succ fuel =>
    rw [moreArms]
    show Balks x (expectKeyword .endWord >>= fun _ => (pure [] : Parser (List Clause)))
    exact (balks_expectKeyword .endWord).bind

/-! ## At the string -/

/-- The reader does not read a string. -/
def Declines (x : Exchange) (p : Parser α) : Prop :=
  ∀ value left, p x.string ≠ .done value left

theorem Declines.bind (h : Declines x p) : Declines x (p >>= f) := by
  intro value left hrun
  obtain ⟨first, behind, hfirst, -⟩ := bind_eq_done_iff.1 hrun
  exact h first behind hfirst

theorem declines_exhausted : Declines x (exhausted : Parser α) := by
  intro value left hrun
  cases hrun

theorem declines_primary : Declines x (primary fuel) := by
  cases fuel with
  | zero => exact declines_exhausted
  | succ fuel =>
    rw [primary]
    intro value left hrun
    cases hrun

theorem declines_suffixed : Declines x (suffixed fuel) := by
  cases fuel with
  | zero => exact declines_exhausted
  | succ fuel =>
    rw [suffixed]
    exact declines_primary.bind

theorem declines_statement : Declines x (statement fuel) := by
  cases fuel with
  | zero => exact declines_exhausted
  | succ fuel =>
    rw [statement]
    cases fuel with
    | zero =>
      intro value left hrun
      cases hrun
    | succ fuel =>
      show Declines x (assignmentOrCall (fuel + 1) x.site)
      rw [assignmentOrCall]
      exact declines_suffixed.bind

/-! ## Shared readings -/

/-- What is read with the string after these tokens is read with the bracket, and a condition holds
if the next token is either. -/
def Passes (x : Exchange) (after : Prop) (p : Parser α) (tokens : List PlacedToken) : Prop :=
  x.Ends tokens → ∀ value left, p (tokens ++ x.string) = .done value left →
    ∃ behind, left = behind ++ x.string ∧
      p (tokens ++ x.bracket) = .done value (behind ++ x.bracket) ∧
      x.Ends behind ∧ (behind = [] → after)

/-- What is read with the string after these tokens is read with the bracket, and a condition holds
if the next token is either; or the bracket is refused. -/
def Shares (x : Exchange) (after : Prop) (p : Parser α) (tokens : List PlacedToken) : Prop :=
  x.Ends tokens → ∀ value left, p (tokens ++ x.string) = .done value left →
    (∃ behind, left = behind ++ x.string ∧
      p (tokens ++ x.bracket) = .done value (behind ++ x.bracket) ∧
      x.Ends behind ∧ (behind = [] → after)) ∨
    x.Refuses (p (tokens ++ x.bracket))

theorem Shares.mono (h : Shares x mid p tokens) (himp : mid → after) : Shares x after p tokens := by
  intro hends value left hrun
  refine (h hends value left hrun).imp_left ?_
  rintro ⟨behind, hleft, hbracket, hbehind, hmid⟩
  exact ⟨behind, hleft, hbracket, hbehind, fun hnil => himp (hmid hnil)⟩

theorem Declines.shares (h : Declines x p) : Shares x after p [] :=
  fun _ value left hrun => absurd hrun (h value left)

/-- A bracket in place of a string that is refused. -/
theorem shares_of_refuses (h : x.Refuses (p x.bracket)) : Shares x after p [] :=
  fun _ _ _ _ => .inr h

/-- A reader that goes on in the same way at the string and at the bracket. -/
theorem Shares.look (h : Shares x after q tokens)
    (hstring : p (tokens ++ x.string) = q (tokens ++ x.string))
    (hbracket : p (tokens ++ x.bracket) = q (tokens ++ x.bracket)) : Shares x after p tokens := by
  intro hends value left hrun
  rw [hstring] at hrun
  rw [hbracket]
  exact h hends value left hrun

theorem shares_exhausted : Shares x after (exhausted : Parser α) tokens :=
  fun _ _ _ hrun => nomatch hrun

theorem shares_fail (error : ParseError) : Shares x after (fail error : Parser α) tokens :=
  fun _ _ _ hrun => nomatch hrun

theorem shares_unexpected {expected : Expected} :
    Shares x after (unexpected expected : Parser α) tokens := by
  intro _ value left hrun
  cases tokens <;> cases hrun

theorem shares_pure (value : α) (h : tokens = [] → after) :
    Shares x after (pure value) tokens := by
  intro hends answer left hrun
  cases hrun
  exact .inl ⟨tokens, rfl, rfl, hends, h⟩

/-- A step that does not come to the string, and the next. -/
theorem Passes.bind (hp : Passes x mid p tokens)
    (hf : ∀ value behind, (behind = [] → mid) → Shares x after (f value) behind) :
    Shares x after (p >>= f) tokens := by
  intro hends value left hrun
  obtain ⟨first, middle, hfirst, hsecond⟩ := bind_eq_done_iff.1 hrun
  obtain ⟨behind, rfl, hbracket, hbehind, hmid⟩ := hp hends first middle hfirst
  rw [bind_done hbracket]
  exact hf first behind hmid hbehind value left hsecond

/-- **One reader after the other.**  If the first was stopped by the bracket, the second must not
read on there. -/
theorem Shares.bind (hp : Shares x mid p tokens)
    (hf : ∀ value behind, (behind = [] → mid) → Shares x after (f value) behind)
    (hhalts : ∀ value, Halts x (f value)) : Shares x after (p >>= f) tokens := by
  intro hends value left hrun
  obtain ⟨first, middle, hfirst, hsecond⟩ := bind_eq_done_iff.1 hrun
  rcases hp hends first middle hfirst with ⟨behind, rfl, hbracket, hbehind, hmid⟩ | hrefuses
  · rw [bind_done hbracket]
    exact hf first behind hmid hbehind value left hsecond
  · right
    rw [bind_run]
    cases hbracket : p (tokens ++ x.bracket) with
    | done first middle =>
      rw [hbracket] at hrefuses
      obtain ⟨hcalled, rfl⟩ := hrefuses
      exact hhalts first hcalled
    | failed error =>
      rw [hbracket] at hrefuses
      exact hrefuses
    | exhausted => trivial

/-- What is answered after the first step does not matter. -/
theorem Shares.answer (hp : Shares x after p tokens) (value : α → β) :
    Shares x after (p >>= fun a => pure (value a)) tokens :=
  hp.bind (fun a _ hmid => shares_pure (value a) hmid) fun a => halts_pure (value a)

/-! ### Steps -/

/-- A reader that decides by the next token alone, and does not read strings. -/
theorem passes_of_next (hstring : Declines x p)
    (hcons : ∀ next, (∃ value, (∀ rest, p (next :: rest) = .done value rest) ∧
        ((x.called ↔ next.token.endsCallee = true) → after)) ∨
      ∃ error, ∀ rest, p (next :: rest) = .failed error) : Passes x after p tokens := by
  intro hends value left hrun
  cases tokens with
  | nil => exact absurd hrun (hstring value left)
  | cons next behind =>
    rw [List.cons_append] at hrun ⊢
    rcases hcons next with ⟨answer, hdone, hafter⟩ | ⟨error, hfailed⟩
    · rw [hdone] at hrun
      cases hrun
      obtain ⟨hbehind, hlast⟩ := Exchange.ends_tail hends
      exact ⟨behind, rfl, hdone _, hbehind, fun hnil => hafter (hlast hnil)⟩
    · rw [hfailed] at hrun
      cases hrun

theorem passes_expectSymbol (mark : Symbol) :
    Passes x (x.called ↔ (Token.symbol mark).endsCallee = true) (expectSymbol mark) tokens := by
  refine passes_of_next nofun fun next => ?_
  obtain ⟨token, location⟩ := next
  cases token with
  | symbol found =>
    by_cases hsame : found = mark
    · subst hsame
      exact .inl ⟨location, fun rest => if_pos rfl, fun h => h⟩
    · exact .inr ⟨_, fun rest => if_neg hsame⟩
  | _ => exact .inr ⟨_, fun rest => rfl⟩

theorem passes_expectKeyword (word : Keyword) :
    Passes x (¬ x.called) (expectKeyword word) tokens := by
  refine passes_of_next nofun fun next => ?_
  obtain ⟨token, location⟩ := next
  cases token with
  | keyword found =>
    by_cases hsame : found = word
    · exact .inl ⟨(), fun rest => if_pos hsame, fun h hcalled => nomatch h.1 hcalled⟩
    · exact .inr ⟨_, fun rest => if_neg hsame⟩
  | _ => exact .inr ⟨_, fun rest => rfl⟩

theorem passes_expectName : Passes x x.called expectName tokens := by
  refine passes_of_next nofun fun next => ?_
  obtain ⟨token, location⟩ := next
  cases token with
  | name text => exact .inl ⟨text, fun rest => rfl, fun h => h.2 rfl⟩
  | _ => exact .inr ⟨_, fun rest => rfl⟩

/-- Looking at the next token, when it is shared. -/
theorem Shares.peek {f : Option PlacedToken → Parser β}
    (h : Shares x after (f (some next)) (next :: behind)) :
    Shares x after (Parser.peek >>= f) (next :: behind) := h

/-- Passing over the next token, when it is shared. -/
theorem Shares.advance {f : Unit → Parser β}
    (h : (behind = [] → (x.called ↔ next.token.endsCallee = true)) →
      Shares x after (f ()) behind) :
    Shares x after (Parser.advance >>= f) (next :: behind) := by
  intro hends
  obtain ⟨hbehind, hlast⟩ := Exchange.ends_tail hends
  exact h hlast hbehind

/-- Reading a name that is shared. -/
theorem Shares.name {name : String} {location : Location} {f : String → Parser β}
    (h : Shares x after (f name) behind) :
    Shares x after (expectName >>= f) (⟨.name name, location⟩ :: behind) :=
  fun hends => h (Exchange.ends_tail hends).1

theorem shares_atBlockEnd {f : Bool → Parser β} (h : ∀ ends, Shares x after (f ends) tokens) :
    Shares x after (atBlockEnd >>= f) tokens := by
  cases tokens with
  | nil => exact (h false).look rfl rfl
  | cons next behind =>
    obtain ⟨token, location⟩ := next
    cases token with
    | keyword word =>
      exact (h (word == .endWord || word == .elseWord || word == .elseifWord ||
        word == .untilWord)).look rfl rfl
    | _ => exact (h false).look rfl rfl

/-- A symbol that may be there. -/
theorem shares_eat {mark : Symbol} {f : Bool → Parser β}
    (yes : ∀ behind, (behind = [] → (x.called ↔ (Token.symbol mark).endsCallee = true)) →
      Shares x after (f true) behind)
    (no : Shares x after (f false) tokens) : Shares x after (eat mark >>= f) tokens := by
  cases tokens with
  | nil => exact no.look rfl rfl
  | cons next behind =>
    obtain ⟨token, location⟩ := next
    by_cases hsame : token = .symbol mark
    · subst hsame
      intro hends value left hrun
      obtain ⟨hbehind, hlast⟩ := Exchange.ends_tail hends
      rw [List.cons_append, bind_done (eat_self mark)] at hrun ⊢
      exact yes behind hlast hbehind value left hrun
    · exact no.look (bind_done (eat_of_ne hsame)) (bind_done (eat_of_ne hsame))

/-- A named field that may begin there. -/
theorem shares_atNamedField {f : Bool → Parser β}
    (yes : ∀ (name : String) (first second : Location) (behind : List PlacedToken),
      tokens = ⟨.name name, first⟩ :: ⟨.symbol .assign, second⟩ :: behind →
        Shares x after (f true) tokens)
    (no : Shares x after (f false) tokens) : Shares x after (atNamedField >>= f) tokens := by
  rcases tokens with - | ⟨⟨token, location⟩, behind⟩
  · exact no.look rfl rfl
  · cases token with
    | name name =>
      rcases behind with - | ⟨⟨token, place⟩, behind⟩
      · exact no.look rfl rfl
      · by_cases hassign : token = .symbol .assign
        · subst hassign
          exact (yes name location place behind rfl).look rfl rfl
        · have hnot (rest : List PlacedToken) :
              atNamedField (⟨.name name, location⟩ :: ⟨token, place⟩ :: rest) =
                .done false (⟨.name name, location⟩ :: ⟨token, place⟩ :: rest) := by
            rw [atNamedField.eq_def]
            split
            · rename_i heq
              exact absurd (by simp at heq; exact heq.2.1.1) hassign
            · rfl
          exact no.look (bind_done (hnot _)) (bind_done (hnot _))
    | _ => exact no.look rfl rfl

/-! ## The notions of the grammar -/

/-- The readings of every notion with some fuel are shared. -/
structure Sharing (x : Exchange) (fuel : Nat) : Prop where
  moreNames : ∀ tokens, Shares x True (moreNames fuel) tokens
  block : ∀ tokens, Shares x True (block fuel) tokens
  statement : ∀ tokens, Shares x True (statement fuel) tokens
  returned : ∀ tokens, (tokens = [] → ¬ x.called) → Shares x True (returned fuel) tokens
  conditionalArm : ∀ tokens, (tokens = [] → ¬ x.called) → Shares x True (conditionalArm fuel) tokens
  moreArms : ∀ tokens, Shares x True (moreArms fuel) tokens
  assignmentOrCall : ∀ location tokens, Shares x True (assignmentOrCall fuel location) tokens
  moreTargets : ∀ tokens, Shares x True (moreTargets fuel) tokens
  expressions : ∀ tokens, (tokens = [] → ¬ x.called) → Shares x True (expressions fuel) tokens
  moreExpressions : ∀ tokens, Shares x True (moreExpressions fuel) tokens
  expression : ∀ limit tokens, (tokens = [] → ¬ x.called) →
    Shares x True (expression fuel limit) tokens
  connected : ∀ limit left tokens, Shares x True (connected fuel limit left) tokens
  operand : ∀ tokens, (tokens = [] → ¬ x.called) → Shares x True (operand fuel) tokens
  primary : ∀ tokens, Shares x x.called (primary fuel) tokens
  suffixed : ∀ tokens, Shares x True (suffixed fuel) tokens
  suffixes : ∀ base tokens, (tokens = [] → x.called) → Shares x True (suffixes fuel base) tokens
  callArguments : ∀ tokens, (tokens = [] → x.called) →
    Shares x x.called (callArguments fuel) tokens
  table : ∀ tokens, Shares x x.called (table fuel) tokens
  fields : ∀ tokens, (tokens = [] → ¬ x.called) → Shares x True (fields fuel) tokens
  field : ∀ tokens, (tokens = [] → ¬ x.called) → Shares x True (field fuel) tokens

namespace Sharing

/-- What comes after a token that ends no callee. -/
theorem not_called {token : Token} (htoken : token.endsCallee = false)
    (h : behind = [] → (x.called ↔ token.endsCallee = true)) : behind = [] → ¬ x.called := by
  intro hnil hcalled
  rw [(h hnil).1 hcalled] at htoken
  cases htoken

theorem moreNames_succ (ih : Sharing x fuel) :
    Shares x True (Parser.moreNames (fuel + 1)) tokens := by
  rw [Parser.moreNames]
  refine shares_eat (fun behind _ => ?_) (shares_pure _ fun _ => trivial)
  refine passes_expectName.bind fun name behind _ => ?_
  exact (ih.moreNames behind).answer _

theorem block_succ (ih : Sharing x fuel) : Shares x True (Parser.block (fuel + 1)) tokens := by
  rw [Parser.block]
  refine shares_atBlockEnd fun ends => ?_
  split
  · exact shares_pure _ fun _ => trivial
  · refine shares_eat (fun behind _ => ih.block behind) ?_
    rcases tokens with - | ⟨next, behind⟩
    · exact Declines.shares (declines_statement.bind)
    · refine Shares.peek ((ih.statement _).bind (fun statement behind _ => ?_) fun statement => ?_)
      · split
        · exact shares_pure _ fun _ => trivial
        · exact (ih.block behind).answer _
      · split
        · exact halts_pure _
        · exact (balks_block.bind).halts

theorem statement_succ (ih : Sharing x fuel) :
    Shares x True (Parser.statement (fuel + 1)) tokens := by
  rcases tokens with - | ⟨next, behind⟩
  · exact declines_statement.shares
  rw [Parser.statement]
  refine Shares.peek ?_
  split
  case h_1 heq => cases heq
  · rename_i location _
    refine Shares.advance fun _ => ?_
    have hnames (behind : List PlacedToken) : Shares x True (do
        let name ← expectName
        let names ← Parser.moreNames fuel
        if ← eat .assign then
          let values ← Parser.expressions fuel
          return .localNames location (name :: names) values
        else return .localNames location (name :: names) [] : Parser Statement) behind := by
      refine passes_expectName.bind fun name behind _ => ?_
      refine (ih.moreNames behind).bind (fun names behind _ => ?_) fun names => halts_pure _
      refine shares_eat (fun behind h => ?_) (shares_pure _ fun _ => trivial)
      exact (ih.expressions behind (not_called rfl h)).answer _
    rcases behind with - | ⟨second, behind⟩
    · exact (hnames []).look rfl rfl
    · refine Shares.peek ?_
      split
      · exact shares_fail _
      · exact hnames _
  · rename_i heq
    cases heq
    refine Shares.advance fun h => ?_
    refine (ih.returned _ (not_called rfl h)).bind (fun values behind _ => ?_) fun values =>
      halts_pure _
    exact shares_eat (fun behind _ => shares_pure _ fun _ => trivial)
      (shares_pure _ fun _ => trivial)
  · refine Shares.advance fun _ => ?_
    refine (ih.block _).bind (fun body behind _ => ?_) fun body =>
      (balks_expectKeyword .endWord).bind.halts
    exact (passes_expectKeyword .endWord).bind fun _ behind _ => shares_pure _ fun _ => trivial
  · rename_i heq
    cases heq
    refine Shares.advance fun h => ?_
    refine (ih.expression 0 _ (not_called rfl h)).bind (fun condition behind _ => ?_)
      fun condition => (balks_expectKeyword .doWord).bind.halts
    refine (passes_expectKeyword .doWord).bind fun _ behind _ => ?_
    refine (ih.block _).bind (fun body behind _ => ?_) fun body =>
      (balks_expectKeyword .endWord).bind.halts
    exact (passes_expectKeyword .endWord).bind fun _ behind _ => shares_pure _ fun _ => trivial
  · rename_i heq
    cases heq
    refine Shares.advance fun h => ?_
    refine (ih.conditionalArm _ (not_called rfl h)).bind (fun first behind _ => ?_)
      fun first => balks_moreArms.bind.halts
    exact (ih.moreArms behind).answer _
  · exact Shares.advance fun _ => shares_pure _ fun _ => trivial
  · exact shares_fail _
  · exact shares_fail _
  · exact shares_fail _
  · exact shares_fail _
  · exact shares_fail _
  · exact ih.assignmentOrCall _ _

theorem returned_succ (ih : Sharing x fuel) (h : tokens = [] → ¬ x.called) :
    Shares x True (Parser.returned (fuel + 1)) tokens := by
  rw [Parser.returned]
  refine shares_atBlockEnd fun ends => ?_
  split
  · exact shares_pure _ fun _ => trivial
  · rcases tokens with - | ⟨next, behind⟩
    · exact (ih.expressions [] h).look rfl rfl
    · refine Shares.peek ?_
      split
      · exact shares_pure _ fun _ => trivial
      · exact ih.expressions _ nofun

theorem conditionalArm_succ (ih : Sharing x fuel) (h : tokens = [] → ¬ x.called) :
    Shares x True (Parser.conditionalArm (fuel + 1)) tokens := by
  rw [Parser.conditionalArm]
  refine (ih.expression 0 _ h).bind (fun condition behind _ => ?_)
    fun condition => (balks_expectKeyword .thenWord).bind.halts
  refine (passes_expectKeyword .thenWord).bind fun _ behind _ => ?_
  exact (ih.block behind).answer _

theorem moreArms_succ (ih : Sharing x fuel) :
    Shares x True (Parser.moreArms (fuel + 1)) tokens := by
  rw [Parser.moreArms]
  have hlast (tokens : List PlacedToken) : Shares x True (do
      expectKeyword .endWord
      return [] : Parser (List Clause)) tokens :=
    (passes_expectKeyword .endWord).bind fun _ behind _ => shares_pure _ fun _ => trivial
  rcases tokens with - | ⟨next, behind⟩
  · exact (hlast []).look rfl rfl
  · refine Shares.peek ?_
    split
    · rename_i heq
      cases heq
      refine Shares.advance fun h => ?_
      refine (ih.conditionalArm _ (not_called rfl h)).bind (fun arm behind _ => ?_)
        fun arm => balks_moreArms.bind.halts
      exact (ih.moreArms behind).answer _
    · refine Shares.advance fun _ => ?_
      refine (ih.block _).bind (fun body behind _ => ?_) fun body =>
        (balks_expectKeyword .endWord).bind.halts
      exact (passes_expectKeyword .endWord).bind fun _ behind _ => shares_pure _ fun _ => trivial
    · exact hlast _

/-- A call is a statement, and nothing else is. -/
theorem shares_call (first : Expression) (location : Location) (tokens : List PlacedToken) :
    Shares x True (match first with
      | .call _ _ _ => return .call location first
      | _ => unexpected .assignmentOrCall : Parser Statement) tokens := by
  split
  · exact shares_pure _ fun _ => trivial
  · exact shares_unexpected

theorem halts_call (first : Expression) (location : Location) :
    Halts x (match first with
      | .call _ _ _ => return .call location first
      | _ => unexpected .assignmentOrCall : Parser Statement) := by
  split
  · exact halts_pure _
  · exact (balks_unexpected .assignmentOrCall).halts

theorem assignmentOrCall_succ (ih : Sharing x fuel) (location : Location) :
    Shares x True (Parser.assignmentOrCall (fuel + 1) location) tokens := by
  rw [Parser.assignmentOrCall]
  refine (ih.suffixed tokens).bind (fun first behind _ => ?_) fun first =>
    halts_call first location
  have hassigned (tokens : List PlacedToken) : Shares x True (do
      let others ← Parser.moreTargets fuel
      let _ ← expectSymbol .assign
      let values ← Parser.expressions fuel
      return .assignment location (first :: others) values : Parser Statement) tokens := by
    refine (ih.moreTargets tokens).bind (fun others behind _ => ?_) fun others =>
      (balks_expectSymbol .assign).bind.halts
    refine (passes_expectSymbol .assign).bind fun _ behind h => ?_
    exact (ih.expressions behind (not_called rfl h)).answer _
  rcases behind with - | ⟨next, behind⟩
  · exact (shares_call first location []).look rfl rfl
  · refine Shares.peek ?_
    split
    · exact hassigned _
    · exact hassigned _
    · exact shares_call first location _

theorem moreTargets_succ (ih : Sharing x fuel) :
    Shares x True (Parser.moreTargets (fuel + 1)) tokens := by
  rw [Parser.moreTargets]
  refine shares_eat (fun behind _ => ?_) (shares_pure _ fun _ => trivial)
  refine (ih.suffixed behind).bind (fun target behind _ => ?_) fun target =>
    halts_moreTargets.bind fun targets => halts_pure _
  exact (ih.moreTargets behind).answer _

theorem expressions_succ (ih : Sharing x fuel) (h : tokens = [] → ¬ x.called) :
    Shares x True (Parser.expressions (fuel + 1)) tokens := by
  rw [Parser.expressions]
  refine (ih.expression 0 tokens h).bind (fun first behind _ => ?_) fun first =>
    halts_moreExpressions.bind fun others => halts_pure _
  exact (ih.moreExpressions behind).answer _

theorem moreExpressions_succ (ih : Sharing x fuel) :
    Shares x True (Parser.moreExpressions (fuel + 1)) tokens := by
  rw [Parser.moreExpressions]
  refine shares_eat (fun behind h => ?_) (shares_pure _ fun _ => trivial)
  refine (ih.expression 0 behind (not_called rfl h)).bind (fun next behind _ => ?_) fun next =>
    halts_moreExpressions.bind fun others => halts_pure _
  exact (ih.moreExpressions behind).answer _

/-- Operators end no callee. -/
theorem endsCallee_of_unary {token : Token} {operator : UnaryOperator}
    (h : UnaryOperator.ofToken? token = some operator) : token.endsCallee = false := by
  cases token with
  | symbol mark => cases mark <;> first | rfl | cases h
  | keyword word => rfl
  | longBracket => rfl
  | number value => rfl
  | _ => cases h

/-- Connectives end no callee. -/
theorem endsCallee_of_connective {token : Token} {connective : Connective}
    (h : Connective.ofToken? token = some connective) : token.endsCallee = false := by
  cases token with
  | symbol mark => cases mark <;> first | rfl | cases h
  | keyword word => rfl
  | longBracket => rfl
  | number value => rfl
  | _ => cases h

theorem expression_succ (ih : Sharing x fuel) (limit : Nat) (h : tokens = [] → ¬ x.called) :
    Shares x True (Parser.expression (fuel + 1) limit) tokens := by
  rw [Parser.expression]
  have hoperand : Shares x True (do
      let first ← Parser.operand fuel
      Parser.connected fuel limit first : Parser Expression) tokens :=
    (ih.operand tokens h).bind (fun first behind _ => ih.connected limit first behind)
      fun first => halts_connected first
  rcases tokens with - | ⟨⟨token, location⟩, behind⟩
  · exact hoperand.look rfl rfl
  · refine Shares.peek ?_
    dsimp only
    split
    · rename_i operator hoperator
      refine Shares.advance fun h => ?_
      have hargument := ih.expression Connective.unaryPower behind
        (not_called (endsCallee_of_unary hoperator) h)
      exact hargument.bind (fun argument behind _ => ih.connected limit _ behind)
        fun argument => halts_connected _
    · exact hoperand

theorem connected_succ (ih : Sharing x fuel) (limit : Nat) (left : Expression) :
    Shares x True (Parser.connected (fuel + 1) limit left) tokens := by
  rw [Parser.connected]
  have hstop (tokens : List PlacedToken) : Shares x True (pure left) tokens :=
    shares_pure left fun _ => trivial
  rcases tokens with - | ⟨⟨token, location⟩, behind⟩
  · exact (hstop []).look rfl rfl
  · refine Shares.peek ?_
    dsimp only
    split
    · exact hstop _
    · rename_i connective hconnective
      split
      · exact hstop _
      · refine Shares.advance fun h => ?_
        have hright := ih.expression connective.rightPower behind
          (not_called (endsCallee_of_connective hconnective) h)
        exact hright.bind (fun right behind _ => ih.connected limit _ behind)
          fun right => halts_connected _

theorem operand_succ (ih : Sharing x fuel) (h : tokens = [] → ¬ x.called) :
    Shares x True (Parser.operand (fuel + 1)) tokens := by
  rw [Parser.operand]
  rcases tokens with - | ⟨next, behind⟩
  · exact shares_of_refuses (.inr ⟨h rfl, rfl⟩)
  · have hliteral (value : Expression) : Shares x True (do
        Parser.advance
        return value : Parser Expression) (next :: behind) :=
      Shares.advance fun _ => shares_pure value fun _ => trivial
    refine Shares.peek ?_
    split
    case h_1 heq => cases heq
    · exact hliteral _
    · exact hliteral _
    · exact hliteral _
    · exact hliteral _
    · exact hliteral _
    · exact hliteral _
    · exact (ih.table _).mono fun _ => trivial
    · exact shares_fail _
    · exact shares_fail _
    · exact ih.suffixed _

theorem primary_succ (ih : Sharing x fuel) :
    Shares x x.called (Parser.primary (fuel + 1)) tokens := by
  rcases tokens with - | ⟨next, behind⟩
  · exact declines_primary.shares
  · rw [Parser.primary]
    refine Shares.peek ?_
    split
    · rename_i heq
      cases heq
      exact Shares.advance fun h => shares_pure _ fun hnil => (h hnil).2 rfl
    · rename_i heq
      cases heq
      refine Shares.advance fun h => ?_
      refine (ih.expression 0 _ (not_called rfl h)).bind (fun inner behind _ => ?_)
        fun inner => (balks_expectSymbol .rightParen).bind.halts
      refine (passes_expectSymbol .rightParen).bind fun _ behind h => ?_
      exact shares_pure inner fun hnil => (h hnil).2 rfl
    · exact shares_unexpected

theorem suffixed_succ (ih : Sharing x fuel) :
    Shares x True (Parser.suffixed (fuel + 1)) tokens := by
  rw [Parser.suffixed]
  exact (ih.primary tokens).bind (fun base behind h => ih.suffixes base behind h)
    fun base => halts_suffixes base

theorem suffixes_succ (ih : Sharing x fuel) (base : Expression) (h : tokens = [] → x.called) :
    Shares x True (Parser.suffixes (fuel + 1) base) tokens := by
  rw [Parser.suffixes]
  rcases tokens with - | ⟨next, behind⟩
  · exact shares_of_refuses ⟨h rfl, rfl⟩
  · have hcalled (location : Location) : Shares x True (do
        let values ← Parser.callArguments fuel
        Parser.suffixes fuel (.call location base values) : Parser Expression) (next :: behind) :=
      (ih.callArguments (next :: behind) (by simp)).bind
        (fun values behind h => ih.suffixes _ behind h) fun values => halts_suffixes _
    refine Shares.peek ?_
    split
    · refine Shares.advance fun _ => ?_
      exact passes_expectName.bind fun name behind h => ih.suffixes _ behind h
    · rename_i heq
      cases heq
      refine Shares.advance fun h => ?_
      refine (ih.expression 0 _ (not_called rfl h)).bind (fun index behind _ => ?_)
        fun index => (balks_expectSymbol .rightBracket).bind.halts
      refine (passes_expectSymbol .rightBracket).bind fun _ behind h => ?_
      exact ih.suffixes _ behind fun hnil => (h hnil).2 rfl
    · refine Shares.advance fun _ => ?_
      refine passes_expectName.bind fun name behind h => ?_
      exact (ih.callArguments _ h).bind (fun values behind h => ih.suffixes _ behind h)
        fun values => halts_suffixes _
    · exact hcalled _
    · exact hcalled _
    · exact hcalled _
    · exact shares_pure base (by simp)

theorem callArguments_succ (ih : Sharing x fuel) (h : tokens = [] → x.called) :
    Shares x x.called (Parser.callArguments (fuel + 1)) tokens := by
  rw [Parser.callArguments]
  rcases tokens with - | ⟨next, behind⟩
  · exact shares_of_refuses (.inl ⟨h rfl, _, rfl⟩)
  · refine Shares.peek ?_
    split
    · exact (ih.table _).answer _
    · rename_i heq
      cases heq
      exact Shares.advance fun h => shares_pure _ fun hnil => (h hnil).2 rfl
    · refine (passes_expectSymbol .leftParen).bind fun _ behind h => ?_
      refine shares_eat (fun behind h => shares_pure _ fun hnil => (h hnil).2 rfl) ?_
      refine (ih.expressions behind (not_called rfl h)).bind (fun values behind _ => ?_)
        fun values => (balks_expectSymbol .rightParen).bind.halts
      refine (passes_expectSymbol .rightParen).bind fun _ behind h => ?_
      exact shares_pure values fun hnil => (h hnil).2 rfl

theorem table_succ (ih : Sharing x fuel) :
    Shares x x.called (Parser.table (fuel + 1)) tokens := by
  rw [Parser.table]
  refine (passes_expectSymbol .leftBrace).bind fun location behind h => ?_
  refine (ih.fields behind (not_called rfl h)).bind (fun fields behind _ => ?_)
    fun fields => (balks_expectSymbol .rightBrace).bind.halts
  refine (passes_expectSymbol .rightBrace).bind fun _ behind h => ?_
  exact shares_pure _ fun hnil => (h hnil).2 rfl

/-- A field, and the others after a separator. -/
theorem shares_firstField (ih : Sharing x fuel) (h : tokens = [] → ¬ x.called) :
    Shares x True (do
      let field ← Parser.field fuel
      match ← Parser.peek with
      | some ⟨.symbol .comma, _⟩ | some ⟨.symbol .semicolon, _⟩ =>
        Parser.advance
        let others ← Parser.fields fuel
        return field :: others
      | _ => return [field] : Parser (List Field)) tokens := by
  refine (ih.field tokens h).bind (fun field behind _ => ?_) fun field => halts_pure [field]
  have hlast (tokens : List PlacedToken) : Shares x True (pure [field]) tokens :=
    shares_pure _ fun _ => trivial
  rcases behind with - | ⟨next, behind⟩
  · exact (hlast []).look rfl rfl
  · have hmore (hnext : next.token.endsCallee = false) : Shares x True (do
        Parser.advance
        let others ← Parser.fields fuel
        return field :: others : Parser (List Field)) (next :: behind) :=
      Shares.advance fun h => (ih.fields behind (not_called hnext h)).answer _
    refine Shares.peek ?_
    split
    · rename_i heq
      cases heq
      exact hmore rfl
    · rename_i heq
      cases heq
      exact hmore rfl
    · exact hlast _

theorem fields_succ (ih : Sharing x fuel) (h : tokens = [] → ¬ x.called) :
    Shares x True (Parser.fields (fuel + 1)) tokens := by
  rw [Parser.fields]
  rcases tokens with - | ⟨next, behind⟩
  · exact (shares_firstField ih h).look rfl rfl
  · refine Shares.peek ?_
    split
    · exact shares_pure _ fun _ => trivial
    · exact shares_firstField ih h

theorem field_succ (ih : Sharing x fuel) (h : tokens = [] → ¬ x.called) :
    Shares x True (Parser.field (fuel + 1)) tokens := by
  rw [Parser.field]
  refine shares_eat (fun behind h => ?_) ?_
  · refine (ih.expression 0 behind (not_called rfl h)).bind (fun key behind _ => ?_)
      fun key => (balks_expectSymbol .rightBracket).bind.halts
    refine (passes_expectSymbol .rightBracket).bind fun _ behind _ => ?_
    refine (passes_expectSymbol .assign).bind fun _ behind h => ?_
    exact (ih.expression 0 behind (not_called rfl h)).answer _
  · refine shares_atNamedField (fun name first second behind htokens => ?_) ?_
    · subst htokens
      refine Shares.name (Shares.advance fun h => ?_)
      exact (ih.expression 0 behind (not_called rfl h)).answer _
    · exact (ih.expression 0 tokens h).answer _

/-- **Every notion of the grammar shares its readings**, with any fuel. -/
theorem all (x : Exchange) : ∀ fuel, Sharing x fuel
  | 0 => by
    constructor
    all_goals
      intros
      exact shares_exhausted
  | fuel + 1 =>
    have ih := all x fuel
    { moreNames := fun _ => moreNames_succ ih
      block := fun _ => block_succ ih
      statement := fun _ => statement_succ ih
      returned := fun _ => returned_succ ih
      conditionalArm := fun _ => conditionalArm_succ ih
      moreArms := fun _ => moreArms_succ ih
      assignmentOrCall := fun location _ => assignmentOrCall_succ ih location
      moreTargets := fun _ => moreTargets_succ ih
      expressions := fun _ => expressions_succ ih
      moreExpressions := fun _ => moreExpressions_succ ih
      expression := fun limit _ => expression_succ ih limit
      connected := fun limit left _ => connected_succ ih limit left
      operand := fun _ => operand_succ ih
      primary := fun _ => primary_succ ih
      suffixed := fun _ => suffixed_succ ih
      suffixes := fun base _ => suffixes_succ ih base
      callArguments := fun _ => callArguments_succ ih
      table := fun _ => table_succ ih
      fields := fun _ => fields_succ ih
      field := fun _ => field_succ ih }

end Sharing

/-- **The bracket is refused** where a script goes on with the string. -/
theorem exists_refusal {fuel : Nat} {chunk : Chunk} (hends : x.Ends tokens)
    (h : Parser.chunk fuel (tokens ++ x.string) = .done chunk []) :
    ∃ error, x.Refusal error ∧ Chunk.ofTokens (tokens ++ x.bracket) = .error error := by
  -- with fuel that is enough for both readings
  obtain ⟨bound, hfuel, henough⟩ : ∃ bound, fuel ≤ bound ∧
      enoughFuel (tokens ++ x.bracket) ≤ bound :=
    ⟨max fuel (enoughFuel (tokens ++ x.bracket)), Nat.le_max_left .., Nat.le_max_right ..⟩
  have hstring := run_of_le hfuel h nofun
  have hne : Parser.chunk bound (tokens ++ x.bracket) ≠ .exhausted := by
    rw [run_of_le henough rfl (chunk_ne_exhausted _)]
    exact chunk_ne_exhausted _
  rw [Parser.chunk] at hstring
  obtain ⟨body, left, hbody, hlast⟩ := bind_eq_done_iff.1 hstring
  rcases (Sharing.all x bound).block tokens hends body left hbody with ⟨behind, rfl, -⟩ | hrefuses
  · -- the string is left, and with it the end of the tokens is not reached
    cases behind <;> cases hlast
  · suffices hfailed : ∃ error, x.Refusal error ∧
        Parser.chunk bound (tokens ++ x.bracket) = .failed error by
      obtain ⟨error, hrefusal, hrun⟩ := hfailed
      exact ⟨error, hrefusal, Chunk.ofTokens_eq_error_iff.2 ⟨bound, hrun⟩⟩
    rw [Parser.chunk, bind_run] at hne ⊢
    cases hrun : Parser.block bound (tokens ++ x.bracket) with
    | done body left =>
      rw [hrun] at hrefuses
      obtain ⟨hcalled, rfl⟩ := hrefuses
      exact ⟨_, .inl ⟨hcalled, .statement, rfl⟩, rfl⟩
    | failed error =>
      rw [hrun] at hrefuses
      exact ⟨error, hrefuses, rfl⟩
    | exhausted =>
      rw [hrun] at hne
      exact absurd rfl hne

end Parser

/-! ## Scripts -/

/-- **A long bracket in place of a string is refused there.**  Where the string is an operand the
error calls it a long bracket; where it is the argument of a call, the bracket is a token that is
not expected, and the error says no more. -/
theorem ofTokens_longBracket {tokens more : List PlacedToken} {raw : String} {site : Location}
    {chunk : Chunk} (h : Chunk.ofTokens (tokens ++ ⟨.quoted raw, site⟩ :: more) = .ok chunk)
    (place : Location) (rest : List PlacedToken) :
    (¬ EndsCallee tokens → Chunk.ofTokens (tokens ++ ⟨.longBracket, place⟩ :: rest) =
        .error (.unsupported .longBracketString place)) ∧
      (EndsCallee tokens → ∃ expected,
        Chunk.ofTokens (tokens ++ ⟨.longBracket, place⟩ :: rest) =
          .error (.unexpectedToken .longBracket expected place)) := by
  let x : Exchange := ⟨raw, site, more, place, rest, EndsCallee tokens⟩
  have hends : x.Ends tokens := by
    intro last hlast
    refine ⟨fun ⟨other, hother, hcallee⟩ => ?_, fun hcallee => ⟨last, hlast, hcallee⟩⟩
    rwa [Option.mem_unique hlast hother]
  obtain ⟨fuel, hrun⟩ := Chunk.ofTokens_eq_ok_iff.1 h
  obtain ⟨error, hrefusal, hbracket⟩ := Parser.exists_refusal hends hrun
  rw [Exchange.bracket] at hbracket
  rcases hrefusal with ⟨hcalled, expected, rfl⟩ | ⟨hcalled, rfl⟩
  · exact ⟨fun hnot => absurd hcalled hnot, fun _ => ⟨expected, hbracket⟩⟩
  · exact ⟨fun _ => hbracket, fun hcallee => absurd hcallee hcalled⟩

/-- A long bracket as the value of a name, and as the argument of a call. -/
theorem ofTokens_longBracket_operand_argument :
    Chunk.ofTokens
        ([⟨.name "x", ⟨1, 1⟩⟩, ⟨.symbol .assign, ⟨1, 2⟩⟩] ++ ⟨.longBracket, ⟨1, 3⟩⟩ :: []) =
        .error (.unsupported .longBracketString ⟨1, 3⟩) ∧
      ∃ expected, Chunk.ofTokens ([⟨.name "f", ⟨1, 1⟩⟩] ++ ⟨.longBracket, ⟨1, 2⟩⟩ :: []) =
        .error (.unexpectedToken .longBracket expected ⟨1, 2⟩) := by
  have hoperand : Chunk.ofTokens ([⟨.name "x", ⟨1, 1⟩⟩, ⟨.symbol .assign, ⟨1, 2⟩⟩] ++
      ⟨.quoted "''", ⟨1, 3⟩⟩ :: []) = .ok [.assignment (some ⟨1, 1⟩)
        [.identifier (some ⟨1, 1⟩) "x"] [.string (some ⟨1, 3⟩) "''"]] :=
    Chunk.ofTokens_eq_ok_iff.2 ⟨9, rfl⟩
  have hargument : Chunk.ofTokens ([⟨.name "f", ⟨1, 1⟩⟩] ++ ⟨.quoted "''", ⟨1, 2⟩⟩ :: []) =
      .ok [.call (some ⟨1, 1⟩) (.call (some ⟨1, 2⟩) (.identifier (some ⟨1, 1⟩) "f")
        [.string (some ⟨1, 2⟩) "''"])] :=
    Chunk.ofTokens_eq_ok_iff.2 ⟨9, rfl⟩
  refine ⟨(ofTokens_longBracket hoperand ⟨1, 3⟩ []).1 ?_,
    (ofTokens_longBracket hargument ⟨1, 2⟩ []).2 ⟨_, rfl, rfl⟩⟩
  rintro ⟨last, hlast, hcallee⟩
  cases hlast
  cases hcallee

end Script
end ProductionRates
