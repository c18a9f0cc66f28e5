import ProductionRates.Proofs.Script.Reading

/-!
# What is read when more tokens follow

The readers of the grammar look at one token after the other, so what they have read is not changed
by tokens that come later.  There are two exceptions, both where the tokens end: a reader that fails
there may go on, and one that stops there may take more.  The latter is excluded by what may follow.
The same comparison of two readings shows that more fuel changes nothing.

* `Before` — the next token, if there is one, is of a kind;
* `StopsSuffixes`, `ClosesTarget`, `Closes`, `ClosesBlock` — tokens at which operands, targets,
  expressions and blocks stop;
* `Parser.Demands`, `Parser.Rests` — what a reader does without tokens: it asks for one, or does
  without;
* `Parser.Carries` — a reading is carried over to another reader and to more tokens;
* `Parser.Continued.all` — the readings of all notions are carried over to more fuel;
* `Parser.carries_chunk`, `Parser.run_unique` — the same of whole scripts;
* `Chunk.ofTokens_eq_ok_iff`, `Chunk.ofTokens_eq_error_iff` — what is made of the tokens of a script
  is what the grammar comes to with any fuel that is enough.
-/

namespace ProductionRates
namespace Script

/-! ## What follows -/

/-- The next token, if there is one, is of a kind. -/
def Before (follows : Token → Prop) (rest : List PlacedToken) : Prop :=
  ∀ next ∈ rest.head?, follows next.token

@[simp] theorem before_nil {follows : Token → Prop} : Before follows [] := by simp [Before]

@[simp] theorem before_cons {follows : Token → Prop} {next : PlacedToken}
    {rest : List PlacedToken} : Before follows (next :: rest) ↔ follows next.token := by
  simp [Before]

theorem Before.mono {follows weaker : Token → Prop} {rest : List PlacedToken}
    (h : Before follows rest) (himp : ∀ token, follows token → weaker token) :
    Before weaker rest :=
  fun next hnext => himp _ (h next hnext)

/-- Tokens that begin a member or a call of what is before them. -/
def Token.beginsSuffix : Token → Bool
  | .symbol .dot | .symbol .leftBracket | .symbol .colon | .symbol .leftParen
  | .symbol .leftBrace | .quoted _ => true
  | _ => false

/-- Keywords at which a block ends. -/
def Token.endsBlock : Token → Bool
  | .keyword word =>
    word == .endWord || word == .elseWord || word == .elseifWord || word == .untilWord
  | _ => false

/-- Tokens that are no suffix of what is before them. -/
def StopsSuffixes (token : Token) : Prop := token.beginsSuffix = false

/-- Tokens at which a list of targets or of names stops. -/
def ClosesTarget (token : Token) : Prop :=
  token.beginsSuffix = false ∧ token ≠ .symbol .comma

/-- Tokens at which expressions, lists of them and fields stop. -/
def Closes (token : Token) : Prop :=
  ClosesTarget token ∧ Connective.ofToken? token = none ∧ token ≠ .symbol .semicolon ∧
    token ≠ .symbol .assign

/-- Tokens at which statements and blocks stop. -/
def ClosesBlock (token : Token) : Prop := token.endsBlock = true

/-- Tokens of any kind. -/
def AnyToken (_ : Token) : Prop := True

/-- No token at all, so that nothing may follow. -/
def NoToken (_ : Token) : Prop := False

theorem Closes.target (token : Token) (h : Closes token) : ClosesTarget token := h.1

theorem AnyToken.intro (token : Token) : AnyToken token := trivial

theorem ClosesBlock.closes (token : Token) (h : ClosesBlock token) : Closes token := by
  cases token with
  | keyword word =>
    cases word <;> first
      | exact ⟨⟨rfl, by simp⟩, rfl, by simp, by simp⟩
      | cases h
  | _ => cases h

theorem ClosesBlock.target (token : Token) (h : ClosesBlock token) : ClosesTarget token :=
  h.closes.target

/-- Whether reading failed because the tokens ended. -/
def ParseError.isEnd : ParseError → Bool
  | .unexpectedEnd _ => true
  | _ => false

theorem ParseError.isEnd_iff {error : ParseError} :
    error.isEnd = true ↔ ∃ expected, error = .unexpectedEnd expected := by
  cases error <;> simp [isEnd]

namespace Parser

variable {α β : Type} {fuel more : Nat} {limit : Nat} {p q : Parser α} {f g : α → Parser β}
  {follows mid : Token → Prop} {tokens rest : List PlacedToken} {next : PlacedToken}

/-! ## Two steps -/

theorem bind_eq_done_iff {b : β} :
    (p >>= f) tokens = .done b rest ↔
      ∃ a left, p tokens = .done a left ∧ f a left = .done b rest := by
  rw [bind_run]
  cases p tokens <;> simp [and_assoc]

theorem bind_eq_failed_iff {error : ParseError} :
    (p >>= f) tokens = .failed error ↔
      p tokens = .failed error ∨ ∃ a left, p tokens = .done a left ∧ f a left = .failed error := by
  rw [bind_run]
  cases p tokens <;> simp [and_assoc]

theorem bind_failed {error : ParseError} (h : p tokens = .failed error) :
    (p >>= f) tokens = .failed error := by
  rw [bind_run, h]

/-! ## Without tokens -/

/-- Without tokens the reader fails, and because there is none. -/
def Demands (p : Parser α) : Prop :=
  match p [] with
  | .done _ _ => False
  | .failed error => error.isEnd = true
  | .exhausted => True

/-- Without tokens the reader does without. -/
def Rests (p : Parser α) : Prop :=
  match p [] with
  | .done _ rest => rest = []
  | .failed _ => False
  | .exhausted => True

theorem Demands.not_done (h : Demands p) (a : α) : p [] ≠ .done a rest := by
  intro hrun
  simp [Demands, hrun] at h

theorem Demands.isEnd (h : Demands p) {error : ParseError} (hrun : p [] = .failed error) :
    error.isEnd = true := by
  simpa [Demands, hrun] using h

theorem Rests.eq_nil (h : Rests p) {a : α} (hrun : p [] = .done a rest) : rest = [] := by
  simpa [Rests, hrun] using h

theorem Rests.not_failed (h : Rests p) (error : ParseError) : p [] ≠ .failed error := by
  intro hrun
  simp [Rests, hrun] at h

theorem Demands.bind (h : Demands p) : Demands (p >>= f) := by
  unfold Demands at *
  rw [bind_run]
  cases hrun : p [] with
  | done value rest => simp [hrun] at h
  | failed error => simpa [hrun] using h
  | exhausted => trivial

theorem Rests.bind (h : Rests p) (hf : ∀ value, Rests (f value)) : Rests (p >>= f) := by
  unfold Rests at h ⊢
  rw [bind_run]
  cases hrun : p [] with
  | done value rest =>
    obtain rfl : rest = [] := by simpa [hrun] using h
    exact hf value
  | failed error => simp [hrun] at h
  | exhausted => trivial

/-- A step that does without tokens before one that asks for one. -/
theorem Rests.andDemand (h : Rests p) (hf : ∀ value, Demands (f value)) : Demands (p >>= f) := by
  unfold Rests at h
  unfold Demands
  rw [bind_run]
  cases hrun : p [] with
  | done value rest =>
    obtain rfl : rest = [] := by simpa [hrun] using h
    exact hf value
  | failed error => simp [hrun] at h
  | exhausted => trivial

theorem rests_pure (value : α) : Rests (pure value) := rfl

theorem demands_expectSymbol (mark : Symbol) : Demands (expectSymbol mark) := rfl

theorem demands_expectKeyword (word : Keyword) : Demands (expectKeyword word) := rfl

theorem demands_unexpected (expected : Expected) : Demands (unexpected expected : Parser α) := rfl

theorem demands_eat {mark : Symbol} {f : Bool → Parser β} (h : Demands (f false)) :
    Demands (eat mark >>= f) := h

theorem rests_eat {mark : Symbol} {f : Bool → Parser β} (h : Rests (f false)) :
    Rests (eat mark >>= f) := h

theorem demands_peek {f : Option PlacedToken → Parser β} (h : Demands (f none)) :
    Demands (peek >>= f) := h

theorem rests_peek {f : Option PlacedToken → Parser β} (h : Rests (f none)) :
    Rests (peek >>= f) := h

theorem rests_atBlockEnd {f : Bool → Parser β} (h : Rests (f true)) :
    Rests (atBlockEnd >>= f) := h

theorem demands_exhausted : Demands (exhausted : Parser α) := trivial

theorem rests_exhausted : Rests (exhausted : Parser α) := trivial

theorem rests_moreNames : Rests (moreNames fuel) := by
  cases fuel with
  | zero => exact rests_exhausted
  | succ fuel => exact rests_eat (rests_pure _)

theorem rests_block : Rests (block fuel) := by
  cases fuel with
  | zero => exact rests_exhausted
  | succ fuel =>
    rw [block]
    exact rests_atBlockEnd (rests_pure [])

theorem rests_moreTargets : Rests (moreTargets fuel) := by
  cases fuel with
  | zero => exact rests_exhausted
  | succ fuel =>
    rw [moreTargets]
    exact rests_eat (rests_pure [])

theorem rests_moreExpressions : Rests (moreExpressions fuel) := by
  cases fuel with
  | zero => exact rests_exhausted
  | succ fuel =>
    rw [moreExpressions]
    exact rests_eat (rests_pure [])

theorem rests_connected (left : Expression) : Rests (connected fuel limit left) := by
  cases fuel with
  | zero => exact rests_exhausted
  | succ fuel =>
    rw [connected]
    exact rests_peek (rests_pure left)

theorem rests_suffixes (base : Expression) : Rests (suffixes fuel base) := by
  cases fuel with
  | zero => exact rests_exhausted
  | succ fuel =>
    rw [suffixes]
    exact rests_peek (rests_pure base)

theorem demands_expression : Demands (expression fuel limit) := by
  cases fuel with
  | zero => exact demands_exhausted
  | succ fuel =>
    rw [expression]
    exact demands_peek (demands_unexpected .expression)

theorem demands_statement : Demands (statement fuel) := by
  cases fuel with
  | zero => exact demands_exhausted
  | succ fuel =>
    rw [statement]
    exact demands_peek (demands_unexpected .statement)

theorem demands_expressions : Demands (expressions fuel) := by
  cases fuel with
  | zero => exact demands_exhausted
  | succ fuel =>
    rw [expressions]
    exact demands_expression.bind

theorem demands_callArguments : Demands (callArguments fuel) := by
  cases fuel with
  | zero => exact demands_exhausted
  | succ fuel =>
    rw [callArguments]
    exact demands_peek (demands_expectSymbol .leftParen).bind

theorem demands_moreArms : Demands (moreArms fuel) := by
  cases fuel with
  | zero => exact demands_exhausted
  | succ fuel =>
    rw [moreArms]
    exact demands_peek (demands_expectKeyword .endWord).bind

theorem demands_field : Demands (field fuel) := by
  cases fuel with
  | zero => exact demands_exhausted
  | succ fuel =>
    rw [field]
    exact demands_expression.bind

theorem demands_fields : Demands (fields fuel) := by
  cases fuel with
  | zero => exact demands_exhausted
  | succ fuel =>
    rw [fields]
    exact demands_peek demands_field.bind

/-! ## Carrying a reading over -/

/-- What the first reader makes of the tokens, the second makes of them when more tokens follow. -/
structure Carries (follows : Token → Prop) (p q : Parser α) (tokens : List PlacedToken) :
    Prop where
  /-- If the first stops before the end, or may stop before what follows, so does the second. -/
  done : ∀ {value rest} more, p tokens = .done value rest → rest ≠ [] ∨ Before follows more →
    q (tokens ++ more) = .done value (rest ++ more)
  /-- If the first fails because of a token, or nothing follows, the second fails alike. -/
  failed : ∀ {error} more, p tokens = .failed error → error.isEnd = false ∨ more = [] →
    q (tokens ++ more) = .failed error

theorem carries_exhausted : Carries follows exhausted q tokens where
  done _ h := nomatch h
  failed _ h := nomatch h

theorem carries_pure (value : α) : Carries follows (pure value) (pure value) tokens where
  done _ h _ := by
    cases h
    rfl
  failed _ h := nomatch h

theorem carries_fail (error : ParseError) :
    Carries follows (fail error : Parser α) (fail error) tokens where
  done _ h := nomatch h
  failed _ h _ := h

theorem Carries.mono (h : Carries mid p q tokens) (himp : ∀ token, follows token → mid token) :
    Carries follows p q tokens where
  done more hrun hrest := h.done more hrun (hrest.imp_right fun hbefore => hbefore.mono himp)
  failed := h.failed

/-- Before no further tokens the second reader comes to what the first has come to. -/
theorem Carries.run_eq (h : Carries follows p q tokens) (hne : p tokens ≠ .exhausted) :
    q tokens = p tokens := by
  cases hrun : p tokens with
  | done value rest => simpa using h.done [] hrun (.inr before_nil)
  | failed error => simpa using h.failed [] hrun (.inr rfl)
  | exhausted => exact absurd hrun hne

/-- Readers that go on in the same way as others do from tokens of their own. -/
theorem Carries.congr {p' q' : Parser α} {left : List PlacedToken} (h : Carries follows p' q' left)
    (hp : p tokens = p' left) (hq : ∀ more, q (tokens ++ more) = q' (left ++ more)) :
    Carries follows p q tokens where
  done := by
    intro value rest more hrun hrest
    rw [hp] at hrun
    rw [hq]
    exact h.done more hrun hrest
  failed := by
    intro error more hrun hcause
    rw [hp] at hrun
    rw [hq]
    exact h.failed more hrun hcause

/-- A second step is carried over after the first.  If the first step stops at the end, it has to
stop there before all that may follow the second, or the second has to ask for a token. -/
theorem Carries.bind (hp : Carries mid p q tokens)
    (hend : ∀ value, Demands (f value) ∨
      Rests (f value) ∧ ∀ token, follows token → mid token)
    (hf : ∀ value rest, Carries follows (f value) (g value) rest) :
    Carries follows (p >>= f) (q >>= g) tokens where
  done := by
    intro last left more hrun hleft
    obtain ⟨value, rest, hfirst, hsecond⟩ := bind_eq_done_iff.1 hrun
    have hgoes : rest ≠ [] ∨ Before mid more := by
      by_cases hrest : rest = []
      · subst hrest
        rcases hend value with hdemands | ⟨hrests, himp⟩
        · exact absurd hsecond (hdemands.not_done last)
        · -- nothing is left, so what follows is of the kind at which the first step stops
          have hbefore := hleft.resolve_left fun hne => hne (hrests.eq_nil hsecond)
          exact .inr (hbefore.mono himp)
      · exact .inl hrest
    exact bind_eq_done_iff.2
      ⟨value, _, hp.done more hfirst hgoes, (hf value rest).done more hsecond hleft⟩
  failed := by
    intro error more hrun hcause
    rcases bind_eq_failed_iff.1 hrun with hfirst | ⟨value, rest, hfirst, hsecond⟩
    · exact bind_failed (hp.failed more hfirst hcause)
    · have hgoes : rest ≠ [] ∨ Before mid more := by
        by_cases hrest : rest = []
        · subst hrest
          rcases hend value with hdemands | ⟨hrests, -⟩
          · obtain rfl := hcause.resolve_left fun hne => by simp [hdemands.isEnd hsecond] at hne
            exact .inr before_nil
          · exact absurd hsecond (hrests.not_failed error)
        · exact .inl hrest
      exact bind_eq_failed_iff.2 (.inr
        ⟨value, _, hp.done more hfirst hgoes, (hf value rest).failed more hsecond hcause⟩)

/-- A second step that asks for a token. -/
theorem Carries.andDemand (hp : Carries mid p q tokens) (hend : ∀ value, Demands (f value))
    (hf : ∀ value rest, Carries follows (f value) (g value) rest) :
    Carries follows (p >>= f) (q >>= g) tokens :=
  hp.bind (fun value => .inl (hend value)) hf

/-- A second step that does without a token. -/
theorem Carries.andRest (hp : Carries mid p q tokens) (hend : ∀ value, Rests (f value))
    (himp : ∀ token, follows token → mid token)
    (hf : ∀ value rest, Carries follows (f value) (g value) rest) :
    Carries follows (p >>= f) (q >>= g) tokens :=
  hp.bind (fun value => .inr ⟨hend value, himp⟩) hf

/-- What is answered after the first step does not matter. -/
theorem Carries.answer (hp : Carries follows p q tokens) (value : α → β) :
    Carries follows (p >>= fun a => pure (value a)) (q >>= fun a => pure (value a)) tokens :=
  hp.andRest (fun _ => rests_pure _) (fun _ h => h) fun _ _ => carries_pure _

/-- A reader that asks for a token when there is none, as the other does. -/
theorem carries_nil_of_demands (hp : Demands p)
    (hfailed : ∀ error, p [] = .failed error → q [] = .failed error) :
    Carries follows p q [] where
  done _ hrun := absurd hrun (hp.not_done _)
  failed := by
    rintro error more hrun (hcause | rfl)
    · rw [hp.isEnd hrun] at hcause
      cases hcause
    · exact hfailed error hrun

/-- A first step that asks for a token when there is none, as the other does. -/
theorem Carries.bindEnd (hp : Carries mid p q []) (hdemands : Demands p) :
    Carries follows (p >>= f) (q >>= g) [] := by
  refine carries_nil_of_demands hdemands.bind fun error hrun => ?_
  rcases bind_eq_failed_iff.1 hrun with hfirst | ⟨_, _, hfirst, _⟩
  · exact bind_failed (hp.failed [] hfirst (.inr rfl))
  · exact absurd hfirst (hdemands.not_done _)

/-- Readers that both ask for a token when there is none. -/
theorem carries_nil_of_end {expected : Expected} (hp : p [] = .failed (.unexpectedEnd expected))
    (hq : q [] = .failed (.unexpectedEnd expected)) : Carries follows p q [] := by
  refine carries_nil_of_demands ?_ fun error hrun => ?_
  · rw [Demands, hp]
    rfl
  · rw [hp] at hrun
    cases hrun
    exact hq

/-- A reader that asks for a token and decides by it alone. -/
theorem carries_of_next {expected : Expected}
    (hnil : p [] = .failed (.unexpectedEnd expected))
    (hcons : ∀ next, (∃ value, ∀ rest, p (next :: rest) = .done value rest) ∨
      ∃ error, ∀ rest, p (next :: rest) = .failed error) : Carries AnyToken p p tokens := by
  cases tokens with
  | nil => exact carries_nil_of_end hnil hnil
  | cons next rest =>
    rcases hcons next with ⟨value, hdone⟩ | ⟨error, hfailed⟩
    · constructor
      · intro last left more hrun _
        rw [hdone] at hrun
        cases hrun
        exact hdone _
      · intro error more hrun
        rw [hdone] at hrun
        cases hrun
    · constructor
      · intro value left more hrun
        rw [hfailed] at hrun
        cases hrun
      · intro cause more hrun _
        rw [hfailed] at hrun
        cases hrun
        exact hfailed _

theorem carries_unexpected (expected : Expected) :
    Carries AnyToken (unexpected expected : Parser α) (unexpected expected) tokens :=
  carries_of_next rfl fun _ => .inr ⟨_, fun _ => rfl⟩

theorem carries_expectSymbol (mark : Symbol) :
    Carries AnyToken (expectSymbol mark) (expectSymbol mark) tokens := by
  refine carries_of_next rfl fun next => ?_
  obtain ⟨token, location⟩ := next
  cases token with
  | symbol found =>
    by_cases hsame : found = mark
    · exact .inl ⟨location, fun rest => if_pos hsame⟩
    · exact .inr ⟨_, fun rest => if_neg hsame⟩
  | _ => exact .inr ⟨_, fun rest => rfl⟩

theorem carries_expectKeyword (word : Keyword) :
    Carries AnyToken (expectKeyword word) (expectKeyword word) tokens := by
  refine carries_of_next rfl fun next => ?_
  obtain ⟨token, location⟩ := next
  cases token with
  | keyword found =>
    by_cases hsame : found = word
    · exact .inl ⟨(), fun rest => if_pos hsame⟩
    · exact .inr ⟨_, fun rest => if_neg hsame⟩
  | _ => exact .inr ⟨_, fun rest => rfl⟩

theorem carries_expectName : Carries AnyToken expectName expectName tokens := by
  refine carries_of_next rfl fun next => ?_
  obtain ⟨token, location⟩ := next
  cases token with
  | name text => exact .inl ⟨text, fun rest => rfl⟩
  | _ => exact .inr ⟨_, fun rest => rfl⟩

/-- A symbol that may be there.  If it is not there at the end, it must not be what follows, unless
the next step asks for a token. -/
theorem carries_eat {mark : Symbol} {f g : Bool → Parser β}
    (hend : Demands (f false) ∨
      Rests (f false) ∧ ∀ token, follows token → token ≠ .symbol mark)
    (yes : ∀ rest, Carries follows (f true) (g true) rest)
    (no : Carries follows (f false) (g false) tokens) :
    Carries follows (eat mark >>= f) (eat mark >>= g) tokens := by
  cases tokens with
  | nil =>
    constructor
    · intro value rest more hrun hrest
      have hfalse : f false [] = .done value rest := hrun
      cases more with
      | nil => exact no.done [] hfalse hrest
      | cons next more =>
        rcases hend with hdemands | ⟨hrests, himp⟩
        · exact absurd hfalse (hdemands.not_done _)
        · have hbefore := hrest.resolve_left fun hne => hne (hrests.eq_nil hfalse)
          obtain ⟨token, location⟩ := next
          -- what may follow the reader is not the mark it looks for
          have hne : token ≠ .symbol mark := himp token (before_cons.1 hbefore)
          rw [List.nil_append, bind_done (eat_of_ne hne)]
          exact no.done _ hfalse hrest
    · intro error more hrun hcause
      have hfalse : f false [] = .failed error := hrun
      rcases hend with hdemands | ⟨hrests, -⟩
      · obtain rfl := hcause.resolve_left fun hne => by simp [hdemands.isEnd hfalse] at hne
        exact no.failed [] hfalse (.inr rfl)
      · exact absurd hfalse (hrests.not_failed error)
  | cons next rest =>
    obtain ⟨token, location⟩ := next
    by_cases hsame : token = .symbol mark
    · subst hsame
      exact (yes rest).congr (bind_done (eat_self mark)) fun more => bind_done (eat_self mark)
    · exact no.congr (bind_done (eat_of_ne hsame)) fun more => bind_done (eat_of_ne hsame)

theorem carries_atBlockEnd : Carries ClosesBlock atBlockEnd atBlockEnd tokens := by
  cases tokens with
  | nil =>
    constructor
    · rintro value rest more hrun hrest
      cases hrun
      cases more with
      | nil => rfl
      | cons next more =>
        have hends : ClosesBlock next.token := before_cons.1 (hrest.resolve_left fun h => h rfl)
        obtain ⟨token, location⟩ := next
        cases token with
        | keyword word => exact congrArg (Outcome.done · _) hends
        | _ => cases hends
    · intro error more hrun
      cases hrun
  | cons next rest =>
    obtain ⟨token, location⟩ := next
    constructor
    · intro value left more hrun _
      cases token <;>
        (cases hrun; rfl)
    · intro error more hrun
      cases token <;> cases hrun

/-- Whether a field has a name is decided by its first tokens, unless a name is the last of all. -/
theorem atNamedField_decided (tokens : List PlacedToken) :
    tokens = [] ∨ (∃ name location, tokens = [⟨.name name, location⟩]) ∨
      ∃ named, ∀ more, atNamedField (tokens ++ more) = .done named (tokens ++ more) := by
  match tokens with
  | [] => exact .inl rfl
  | ⟨token, location⟩ :: rest =>
    by_cases hname : ∃ text, token = .name text
    · obtain ⟨text, rfl⟩ := hname
      cases rest with
      | nil => exact .inr (.inl ⟨text, location, rfl⟩)
      | cons next rest =>
        obtain ⟨token, place⟩ := next
        cases token with
        | symbol mark => cases mark <;> exact .inr (.inr ⟨_, fun _ => rfl⟩)
        | _ => exact .inr (.inr ⟨_, fun _ => rfl⟩)
    · exact .inr (.inr ⟨false, fun more => atNamedField_of_ne fun text h => hname ⟨text, h⟩⟩)

theorem atNamedField_name {name : String} {location : Location}
    (h : Before (· ≠ .symbol .assign) rest) :
    atNamedField (⟨.name name, location⟩ :: rest) =
      .done false (⟨.name name, location⟩ :: rest) := by
  cases rest with
  | nil => rfl
  | cons next rest =>
    obtain ⟨token, place⟩ := next
    cases token with
    | symbol mark => cases mark <;> first | rfl | exact absurd rfl (before_cons.1 h)
    | _ => rfl

/-- Whether a field has a name.  That takes two tokens to decide, so a name that is the last of all
has to be read to the end, and no equals sign may follow. -/
theorem carries_atNamedField {f g : Bool → Parser β}
    (hlast : ∀ name location, f false [⟨.name name, location⟩] = .exhausted ∨
      ∃ value, f false [⟨.name name, location⟩] = .done value [])
    (hnil : Demands (f false)) (himp : ∀ token, follows token → token ≠ .symbol .assign)
    (yes : Carries follows (f true) (g true) tokens)
    (no : Carries follows (f false) (g false) tokens) :
    Carries follows (atNamedField >>= f) (atNamedField >>= g) tokens := by
  rcases atNamedField_decided tokens with rfl | ⟨name, location, rfl⟩ | ⟨named, hnamed⟩
  · exact carries_nil_of_demands hnil fun error hrun => no.failed [] hrun (.inr rfl)
  -- the name is the last token, and the next could be the equals sign after it
  · constructor
    · intro value left more hrun hleft
      have hfirst : f false [⟨.name name, location⟩] = .done value left := hrun
      obtain rfl : left = [] := by
        rcases hlast name location with hlast | ⟨last, hlast⟩
        · cases hfirst.symm.trans hlast
        · cases hfirst.symm.trans hlast
          rfl
      have hbefore : Before follows more := hleft.resolve_left fun hne => hne rfl
      rw [List.singleton_append, bind_done (atNamedField_name (hbefore.mono himp))]
      exact no.done more hfirst hleft
    · intro error more hrun
      have hfirst : f false [⟨.name name, location⟩] = .failed error := hrun
      rcases hlast name location with hlast | ⟨last, hlast⟩ <;> cases hfirst.symm.trans hlast
  · have hgoes : Carries follows (f named) (g named) tokens := by
      cases named with
      | true => exact yes
      | false => exact no
    have hnow : atNamedField tokens = .done named tokens := by simpa using hnamed []
    exact hgoes.congr (bind_done hnow) fun more => bind_done (hnamed more)

/-- Looking at the next token, when nothing may follow the last. -/
theorem carries_peek : Carries NoToken Parser.peek Parser.peek tokens where
  done := by
    rintro value rest more hrun hrest
    cases hrun
    cases tokens with
    | nil =>
      cases more with
      | nil => rfl
      | cons next more => exact (before_cons.1 (hrest.resolve_left fun h => h rfl)).elim
    | cons next rest => rfl
  failed _ hrun := nomatch hrun

/-- Looking at the next token, when there is one. -/
theorem Carries.peek {f g : Option PlacedToken → Parser β}
    (h : Carries follows (f (some next)) (g (some next)) (next :: rest)) :
    Carries follows (Parser.peek >>= f) (Parser.peek >>= g) (next :: rest) :=
  ⟨h.done, h.failed⟩

/-- Looking for the next token, when there is none and one is asked for. -/
theorem Carries.peekEnd {f g : Option PlacedToken → Parser β} (hdemands : Demands (f none))
    (h : Carries follows (f none) (g none) []) :
    Carries follows (Parser.peek >>= f) (Parser.peek >>= g) [] :=
  carries_nil_of_demands (demands_peek hdemands) fun _ hrun => h.failed [] hrun (.inr rfl)

/-- Passing over the next token, when there is one. -/
theorem Carries.advance {f g : Unit → Parser β} (h : Carries follows (f ()) (g ()) rest) :
    Carries follows (Parser.advance >>= f) (Parser.advance >>= g) (next :: rest) :=
  ⟨h.done, h.failed⟩

/-- Passing over the next token, when there is none and one is asked for afterwards. -/
theorem Carries.advanceEnd {f g : Unit → Parser β} (h : Carries follows (f ()) (g ()) [])
    (hdemands : Demands (f ())) :
    Carries follows (Parser.advance >>= f) (Parser.advance >>= g) [] :=
  carries_nil_of_demands hdemands fun _ hrun => h.failed [] hrun (.inr rfl)

/-- A reader that stops at the end stops before what follows too, if it does so at every token of
the kind. -/
theorem carries_nil_of_stop {value : α} (hp : p [] = .done value []) (hq : q [] = .done value [])
    (hstop : ∀ next rest, follows next.token → q (next :: rest) = .done value (next :: rest)) :
    Carries follows p q [] where
  done := by
    intro last rest more hrun hrest
    rw [hp] at hrun
    cases hrun
    cases more with
    | nil => exact hq
    | cons next more => exact hstop _ _ (before_cons.1 (hrest.resolve_left fun h => h rfl))
  failed := by
    intro error more hrun
    rw [hp] at hrun
    cases hrun

/-- A name alone is an expression. -/
theorem expression_name {name : String} {location : Location} :
    expression fuel limit [⟨.name name, location⟩] = .exhausted ∨
      expression fuel limit [⟨.name name, location⟩] =
        .done (.identifier location name) [] := by
  match fuel with
  | 0 | 1 | 2 | 3 => exact .inl rfl
  | fuel + 4 => exact .inr rfl

/-! ## All notions -/

/-- The readings of all notions with some fuel are carried over to others with more. -/
structure Continued (fuel more : Nat) : Prop where
  moreNames : ∀ tokens, Carries ClosesTarget (moreNames fuel) (moreNames more) tokens
  block : ∀ tokens, Carries ClosesBlock (block fuel) (block more) tokens
  statement : ∀ tokens, Carries ClosesBlock (statement fuel) (statement more) tokens
  returned : ∀ tokens, Carries ClosesBlock (returned fuel) (returned more) tokens
  conditionalArm : ∀ tokens,
    Carries ClosesBlock (conditionalArm fuel) (conditionalArm more) tokens
  moreArms : ∀ tokens, Carries AnyToken (moreArms fuel) (moreArms more) tokens
  assignmentOrCall : ∀ location tokens, Carries ClosesBlock (assignmentOrCall fuel location)
    (assignmentOrCall more location) tokens
  moreTargets : ∀ tokens, Carries ClosesTarget (moreTargets fuel) (moreTargets more) tokens
  expressions : ∀ tokens, Carries Closes (expressions fuel) (expressions more) tokens
  moreExpressions : ∀ tokens, Carries Closes (moreExpressions fuel) (moreExpressions more) tokens
  expression : ∀ limit tokens, Carries Closes (expression fuel limit) (expression more limit) tokens
  connected : ∀ limit left tokens, Carries Closes (connected fuel limit left)
    (connected more limit left) tokens
  operand : ∀ tokens, Carries StopsSuffixes (operand fuel) (operand more) tokens
  primary : ∀ tokens, Carries AnyToken (primary fuel) (primary more) tokens
  suffixed : ∀ tokens, Carries StopsSuffixes (suffixed fuel) (suffixed more) tokens
  suffixes : ∀ base tokens, Carries StopsSuffixes (suffixes fuel base) (suffixes more base) tokens
  callArguments : ∀ tokens, Carries AnyToken (callArguments fuel) (callArguments more) tokens
  table : ∀ tokens, Carries AnyToken (table fuel) (table more) tokens
  fields : ∀ tokens, Carries Closes (fields fuel) (fields more) tokens
  field : ∀ tokens, Carries Closes (field fuel) (field more) tokens

namespace Continued

theorem moreNames_succ (ih : Continued fuel more) :
    Carries ClosesTarget (Parser.moreNames (fuel + 1)) (Parser.moreNames (more + 1)) tokens := by
  unfold Parser.moreNames
  refine carries_eat (.inr ⟨rests_pure [], fun _ h => h.2⟩) (fun rest => ?_) (carries_pure [])
  refine carries_expectName.andRest (fun _ => rests_moreNames.bind fun _ => rests_pure _)
    (fun token _ => .intro token) fun name rest => ?_
  exact (ih.moreNames rest).answer _

/-- A block that neither ends nor begins with a semicolon needs a token for a statement. -/
theorem demands_firstStatement :
    Demands (Parser.peek >>= fun first => Parser.statement fuel >>= fun statement =>
      match first with
      | some ⟨.keyword .returnWord, _⟩ => pure [statement]
      | _ => Parser.block fuel >>= fun statements => pure (statement :: statements)) :=
  demands_peek demands_statement.bind

theorem block_succ (ih : Continued fuel more) :
    Carries ClosesBlock (Parser.block (fuel + 1)) (Parser.block (more + 1)) tokens := by
  unfold Parser.block
  refine carries_atBlockEnd.bind (fun ends => ?_) fun ends rest => ?_
  · cases ends with
    | true => exact .inr ⟨rests_pure [], fun _ h => h⟩
    | false => exact .inl (demands_eat demands_firstStatement)
  · cases ends with
    | true => exact carries_pure []
    | false =>
      refine carries_eat (.inl demands_firstStatement) (fun rest => ih.block rest) ?_
      refine carries_peek.andDemand (fun _ => demands_statement.bind) fun first rest => ?_
      refine (ih.statement rest).andRest (fun statement => ?_) (fun _ h => h)
        fun statement rest => ?_
      · split
        · exact rests_pure _
        · exact rests_block.bind fun _ => rests_pure _
      · split
        · exact carries_pure _
        · exact (ih.block rest).answer _

theorem statement_succ (ih : Continued fuel more) :
    Carries ClosesBlock (Parser.statement (fuel + 1)) (Parser.statement (more + 1)) tokens := by
  unfold Parser.statement
  cases tokens with
  | nil => exact carries_nil_of_end rfl rfl
  | cons next rest =>
    refine Carries.peek ?_
    split
    case h_1 absent => cases absent
    · refine Carries.advance ?_
      cases rest with
      | nil => exact carries_nil_of_end rfl rfl
      | cons next rest =>
        refine Carries.peek ?_
        split
        · exact carries_fail _
        refine carries_expectName.andRest (fun _ => rests_moreNames.bind fun _ =>
          rests_eat (rests_pure _)) (fun token _ => .intro token) fun name rest => ?_
        refine (ih.moreNames rest).andRest (fun _ => rests_eat (rests_pure _)) ClosesBlock.target
          fun names rest => ?_
        refine carries_eat (.inr ⟨rests_pure _, fun token h => (h.closes token).2.2.2⟩)
          (fun rest => ?_) (carries_pure _)
        exact ((ih.expressions rest).mono ClosesBlock.closes).answer _
    · refine Carries.advance ?_
      refine (ih.returned rest).andRest (fun _ => rests_eat (rests_pure _)) (fun _ h => h)
        fun values left => ?_
      exact carries_eat (.inr ⟨rests_pure _, fun token h => (h.closes token).2.2.1⟩)
        (fun _ => carries_pure _) (carries_pure _)
    · refine Carries.advance ?_
      refine (ih.block rest).andDemand (fun _ => (demands_expectKeyword .endWord).bind)
        fun body left => ?_
      exact ((carries_expectKeyword .endWord).mono fun token _ => .intro token).answer _
    · refine Carries.advance ?_
      refine (ih.expression 0 rest).andDemand (fun _ => (demands_expectKeyword .doWord).bind)
        fun condition rest => ?_
      refine (carries_expectKeyword .doWord).andDemand (fun _ => rests_block.andDemand fun _ =>
        (demands_expectKeyword .endWord).bind) fun _ rest => ?_
      refine (ih.block rest).andDemand (fun _ => (demands_expectKeyword .endWord).bind)
        fun body left => ?_
      exact ((carries_expectKeyword .endWord).mono fun token _ => .intro token).answer _
    · refine Carries.advance ?_
      refine (ih.conditionalArm rest).andDemand (fun _ => demands_moreArms.bind)
        fun first rest => ?_
      exact ((ih.moreArms rest).mono fun token _ => .intro token).answer _
    · exact Carries.advance (carries_pure _)
    · exact carries_fail _
    · exact carries_fail _
    · exact carries_fail _
    · exact carries_fail _
    · exact carries_fail _
    · exact ih.assignmentOrCall _ _

theorem returned_succ (ih : Continued fuel more) :
    Carries ClosesBlock (Parser.returned (fuel + 1)) (Parser.returned (more + 1)) tokens := by
  unfold Parser.returned
  refine carries_atBlockEnd.bind (fun ends => ?_) fun ends rest => ?_
  · cases ends with
    | true => exact .inr ⟨rests_pure [], fun _ h => h⟩
    | false => exact .inl (demands_peek demands_expressions)
  · cases ends with
    | true => exact carries_pure []
    | false =>
      cases rest with
      | nil =>
        exact Carries.peekEnd demands_expressions ((ih.expressions []).mono ClosesBlock.closes)
      | cons next rest =>
        refine Carries.peek ?_
        split
        · exact carries_pure []
        · exact (ih.expressions _).mono ClosesBlock.closes

theorem conditionalArm_succ (ih : Continued fuel more) :
    Carries ClosesBlock (Parser.conditionalArm (fuel + 1)) (Parser.conditionalArm (more + 1))
      tokens := by
  unfold Parser.conditionalArm
  refine (ih.expression 0 tokens).andDemand (fun _ => (demands_expectKeyword .thenWord).bind)
    fun condition rest => ?_
  refine (carries_expectKeyword .thenWord).andRest
    (fun _ => rests_block.bind fun _ => rests_pure _) (fun token _ => .intro token)
    fun _ rest => ?_
  exact (ih.block rest).answer _

theorem moreArms_succ (ih : Continued fuel more) :
    Carries AnyToken (Parser.moreArms (fuel + 1)) (Parser.moreArms (more + 1)) tokens := by
  unfold Parser.moreArms
  cases tokens with
  | nil => exact carries_nil_of_end rfl rfl
  | cons next rest =>
    refine Carries.peek ?_
    split
    · refine Carries.advance ?_
      refine (ih.conditionalArm rest).andDemand (fun _ => demands_moreArms.bind)
        fun arm rest => ?_
      exact (ih.moreArms rest).answer _
    · refine Carries.advance ?_
      refine (ih.block rest).andDemand (fun _ => (demands_expectKeyword .endWord).bind)
        fun body rest => ?_
      exact (carries_expectKeyword .endWord).answer _
    · exact (carries_expectKeyword .endWord).answer _

theorem moreTargets_succ (ih : Continued fuel more) :
    Carries ClosesTarget (Parser.moreTargets (fuel + 1)) (Parser.moreTargets (more + 1))
      tokens := by
  unfold Parser.moreTargets
  refine carries_eat (.inr ⟨rests_pure [], fun _ h => h.2⟩) (fun rest => ?_) (carries_pure [])
  refine (ih.suffixed rest).andRest (fun _ => rests_moreTargets.bind fun _ => rests_pure _)
    (fun _ h => h.1) fun target rest => ?_
  exact (ih.moreTargets rest).answer _

theorem expressions_succ (ih : Continued fuel more) :
    Carries Closes (Parser.expressions (fuel + 1)) (Parser.expressions (more + 1)) tokens := by
  unfold Parser.expressions
  refine (ih.expression 0 tokens).andRest (fun _ => rests_moreExpressions.bind fun _ =>
    rests_pure _) (fun _ h => h) fun first rest => ?_
  exact (ih.moreExpressions rest).answer _

theorem moreExpressions_succ (ih : Continued fuel more) :
    Carries Closes (Parser.moreExpressions (fuel + 1)) (Parser.moreExpressions (more + 1))
      tokens := by
  unfold Parser.moreExpressions
  refine carries_eat (.inr ⟨rests_pure [], fun _ h => h.1.2⟩) (fun rest => ?_) (carries_pure [])
  refine (ih.expression 0 rest).andRest (fun _ => rests_moreExpressions.bind fun _ =>
    rests_pure _) (fun _ h => h) fun next rest => ?_
  exact (ih.moreExpressions rest).answer _

theorem expression_succ (ih : Continued fuel more) (limit : Nat) :
    Carries Closes (Parser.expression (fuel + 1) limit) (Parser.expression (more + 1) limit)
      tokens := by
  unfold Parser.expression
  cases tokens with
  | nil => exact carries_nil_of_end rfl rfl
  | cons next rest =>
    refine Carries.peek ?_
    dsimp only
    split
    · refine Carries.advance ?_
      exact (ih.expression _ rest).andRest (fun _ => rests_connected _) (fun _ h => h)
        fun argument rest => ih.connected _ _ rest
    · exact (ih.operand _).andRest (fun _ => rests_connected _) (fun _ h => h.target.1)
        fun first rest => ih.connected _ _ rest

theorem connected_succ (ih : Continued fuel more) (limit : Nat) (left : Expression) :
    Carries Closes (Parser.connected (fuel + 1) limit left)
      (Parser.connected (more + 1) limit left) tokens := by
  cases tokens with
  | nil =>
    exact carries_nil_of_stop (connected_of_ends ends_nil left) (connected_of_ends ends_nil left)
      fun next rest h => connected_of_ends (ends_cons.2 h.2.1) left
  | cons next rest =>
    unfold Parser.connected
    refine Carries.peek ?_
    dsimp only
    split
    · exact carries_pure left
    · split
      · exact carries_pure left
      · refine Carries.advance ?_
        exact (ih.expression _ rest).andRest (fun _ => rests_connected _) (fun _ h => h)
          fun right rest => ih.connected _ _ rest

theorem operand_succ (ih : Continued fuel more) :
    Carries StopsSuffixes (Parser.operand (fuel + 1)) (Parser.operand (more + 1)) tokens := by
  unfold Parser.operand
  cases tokens with
  | nil => exact carries_nil_of_end rfl rfl
  | cons next rest =>
    refine Carries.peek ?_
    split
    case h_1 absent => cases absent
    case h_8 => exact (ih.table _).mono fun token _ => .intro token
    case h_9 => exact carries_fail _
    case h_10 => exact carries_fail _
    case h_11 => exact ih.suffixed _
    all_goals exact Carries.advance (carries_pure _)

theorem primary_succ (ih : Continued fuel more) :
    Carries AnyToken (Parser.primary (fuel + 1)) (Parser.primary (more + 1)) tokens := by
  unfold Parser.primary
  cases tokens with
  | nil => exact carries_nil_of_end rfl rfl
  | cons next rest =>
    refine Carries.peek ?_
    split
    · exact Carries.advance (carries_pure _)
    · refine Carries.advance ?_
      refine (ih.expression 0 rest).andDemand (fun _ => (demands_expectSymbol .rightParen).bind)
        fun inner rest => ?_
      exact (carries_expectSymbol .rightParen).answer _
    · exact carries_unexpected _

theorem suffixed_succ (ih : Continued fuel more) :
    Carries StopsSuffixes (Parser.suffixed (fuel + 1)) (Parser.suffixed (more + 1)) tokens := by
  unfold Parser.suffixed
  exact (ih.primary tokens).andRest (fun _ => rests_suffixes _) (fun token _ => .intro token)
    fun base rest => ih.suffixes base rest

theorem assignmentOrCall_succ (ih : Continued fuel more) (location : Location) :
    Carries ClosesBlock (Parser.assignmentOrCall (fuel + 1) location)
      (Parser.assignmentOrCall (more + 1) location) tokens := by
  unfold Parser.assignmentOrCall
  refine (ih.suffixed tokens).bind (fun first => ?_) fun first rest => ?_
  · cases first with
    | call place base arguments => exact .inr ⟨rests_peek (rests_pure _), fun _ h => h.target.1⟩
    | _ => exact .inl (demands_peek (demands_unexpected _))
  · cases rest with
    | nil =>
      cases first with
      | call place base arguments =>
        refine carries_nil_of_stop rfl rfl fun next rest h => ?_
        obtain ⟨token, place⟩ := next
        cases token with
        | keyword word => rfl
        | _ => cases h
      | _ => exact carries_nil_of_end rfl rfl
    | cons next rest =>
      have hassign (place : Location) (rest : List PlacedToken) :
          Carries ClosesBlock
            (Parser.moreTargets fuel >>= fun others => Parser.expectSymbol .assign >>= fun _ =>
              Parser.expressions fuel >>= fun values =>
              pure (Statement.assignment place (first :: others) values))
            (Parser.moreTargets more >>= fun others => Parser.expectSymbol .assign >>= fun _ =>
              Parser.expressions more >>= fun values =>
              pure (Statement.assignment place (first :: others) values)) rest := by
        refine (ih.moreTargets rest).andDemand
          (fun _ => (demands_expectSymbol .assign).bind) fun others rest => ?_
        refine (carries_expectSymbol .assign).andDemand (fun _ => demands_expressions.bind)
          fun _ rest => ?_
        exact ((ih.expressions rest).mono ClosesBlock.closes).answer _
      refine Carries.peek ?_
      split
      · exact hassign location _
      · exact hassign location _
      · split
        · exact carries_pure _
        · exact (carries_unexpected _).mono fun token _ => .intro token

theorem suffixes_succ (ih : Continued fuel more) (base : Expression) :
    Carries StopsSuffixes (Parser.suffixes (fuel + 1) base) (Parser.suffixes (more + 1) base)
      tokens := by
  unfold Parser.suffixes
  cases tokens with
  | nil =>
    refine carries_nil_of_stop rfl rfl fun next rest h => ?_
    obtain ⟨token, place⟩ := next
    have hbegins : token.beginsSuffix = false := h
    cases token with
    | symbol mark => cases mark <;> first | rfl | cases hbegins
    | quoted raw => cases hbegins
    | _ => rfl
  | cons next rest =>
    refine Carries.peek ?_
    split
    · refine Carries.advance ?_
      exact carries_expectName.andRest (fun _ => rests_suffixes _) (fun token _ => .intro token)
        fun name rest => ih.suffixes _ rest
    · refine Carries.advance ?_
      refine (ih.expression 0 rest).andDemand (fun _ => (demands_expectSymbol .rightBracket).bind)
        fun index rest => ?_
      exact (carries_expectSymbol .rightBracket).andRest (fun _ => rests_suffixes _)
        (fun token _ => .intro token) fun _ rest => ih.suffixes _ rest
    · refine Carries.advance ?_
      refine carries_expectName.andDemand (fun _ => demands_callArguments.bind) fun name rest => ?_
      exact (ih.callArguments rest).andRest (fun _ => rests_suffixes _)
        (fun token _ => .intro token) fun values rest => ih.suffixes _ rest
    · exact (ih.callArguments _).andRest (fun _ => rests_suffixes _)
        (fun token _ => .intro token) fun values rest => ih.suffixes _ rest
    · exact (ih.callArguments _).andRest (fun _ => rests_suffixes _)
        (fun token _ => .intro token) fun values rest => ih.suffixes _ rest
    · exact (ih.callArguments _).andRest (fun _ => rests_suffixes _)
        (fun token _ => .intro token) fun values rest => ih.suffixes _ rest
    · exact carries_pure base

theorem callArguments_succ (ih : Continued fuel more) :
    Carries AnyToken (Parser.callArguments (fuel + 1)) (Parser.callArguments (more + 1))
      tokens := by
  unfold Parser.callArguments
  cases tokens with
  | nil => exact carries_nil_of_end rfl rfl
  | cons next rest =>
    refine Carries.peek ?_
    split
    · exact (ih.table _).answer _
    · exact Carries.advance (carries_pure _)
    · refine (carries_expectSymbol .leftParen).andDemand
        (fun _ => demands_eat demands_expressions.bind) fun _ rest => ?_
      refine carries_eat (.inl demands_expressions.bind) (fun rest => carries_pure []) ?_
      refine (ih.expressions rest).andDemand (fun _ => (demands_expectSymbol .rightParen).bind)
        fun values rest => ?_
      exact (carries_expectSymbol .rightParen).answer _

theorem table_succ (ih : Continued fuel more) :
    Carries AnyToken (Parser.table (fuel + 1)) (Parser.table (more + 1)) tokens := by
  unfold Parser.table
  refine (carries_expectSymbol .leftBrace).andDemand (fun _ => demands_fields.bind)
    fun place rest => ?_
  refine (ih.fields rest).andDemand (fun _ => (demands_expectSymbol .rightBrace).bind)
    fun fields rest => ?_
  exact (carries_expectSymbol .rightBrace).answer _

theorem fields_succ (ih : Continued fuel more) :
    Carries Closes (Parser.fields (fuel + 1)) (Parser.fields (more + 1)) tokens := by
  unfold Parser.fields
  cases tokens with
  | nil =>
    exact Carries.peekEnd demands_field.bind ((ih.field []).bindEnd demands_field)
  | cons next rest =>
    refine Carries.peek ?_
    split
    · exact carries_pure []
    · refine (ih.field _).andRest (fun field => rests_peek (rests_pure _)) (fun _ h => h)
        fun field rest => ?_
      cases rest with
      | nil =>
        refine carries_nil_of_stop rfl rfl fun next rest h => ?_
        obtain ⟨token, place⟩ := next
        cases token with
        | symbol mark =>
          cases mark with
          | comma => exact absurd rfl h.1.2
          | semicolon => exact absurd rfl h.2.2.1
          | _ => rfl
        | _ => rfl
      | cons next rest =>
        refine Carries.peek ?_
        split
        · exact Carries.advance ((ih.fields rest).answer _)
        · exact Carries.advance ((ih.fields rest).answer _)
        · exact carries_pure _

theorem field_succ (ih : Continued fuel more) :
    Carries Closes (Parser.field (fuel + 1)) (Parser.field (more + 1)) tokens := by
  unfold Parser.field
  have hvalue (tokens : List PlacedToken) : Carries Closes
      (Parser.expression fuel 0 >>= fun value => pure (Field.positional value))
      (Parser.expression more 0 >>= fun value => pure (Field.positional value)) tokens :=
    (ih.expression 0 tokens).answer _
  refine carries_eat (.inl demands_expression.bind) (fun rest => ?_) ?_
  · refine (ih.expression 0 rest).andDemand (fun _ => (demands_expectSymbol .rightBracket).bind)
      fun key rest => ?_
    refine (carries_expectSymbol .rightBracket).andDemand
      (fun _ => (demands_expectSymbol .assign).bind) fun _ rest => ?_
    refine (carries_expectSymbol .assign).andDemand (fun _ => demands_expression.bind)
      fun _ rest => ?_
    exact (ih.expression 0 rest).answer _
  · refine carries_atNamedField (fun name location => ?_) demands_expression.bind
      (fun token h => h.2.2.2) ?_ (hvalue tokens)
    · rcases expression_name with hrun | hrun
      · exact .inl (by rw [if_neg (by decide), bind_run, hrun])
      · exact .inr ⟨_, bind_done hrun⟩
    · refine carries_expectName.andDemand (fun _ => demands_expression.bind) fun name rest => ?_
      cases rest with
      | nil => exact Carries.advanceEnd ((ih.expression 0 []).answer _) demands_expression.bind
      | cons next rest => exact Carries.advance ((ih.expression 0 rest).answer _)

/-- **Whatever is read is read alike with more fuel and before more tokens.** -/
theorem all : ∀ fuel more, fuel ≤ more → Continued fuel more := by
  intro fuel
  induction fuel with
  | zero =>
    intro more _
    constructor <;> intros <;> exact carries_exhausted
  | succ fuel ih =>
    intro more hmore
    obtain ⟨more, rfl⟩ : ∃ less, more = less + 1 := ⟨more - 1, by omega⟩
    have hless : Continued fuel more := ih more (by omega)
    exact
      { moreNames := fun _ => moreNames_succ hless
        block := fun _ => block_succ hless
        statement := fun _ => statement_succ hless
        returned := fun _ => returned_succ hless
        conditionalArm := fun _ => conditionalArm_succ hless
        moreArms := fun _ => moreArms_succ hless
        assignmentOrCall := fun location _ => assignmentOrCall_succ hless location
        moreTargets := fun _ => moreTargets_succ hless
        expressions := fun _ => expressions_succ hless
        moreExpressions := fun _ => moreExpressions_succ hless
        expression := fun limit _ => expression_succ hless limit
        connected := fun limit left _ => connected_succ hless limit left
        operand := fun _ => operand_succ hless
        primary := fun _ => primary_succ hless
        suffixed := fun _ => suffixed_succ hless
        suffixes := fun base _ => suffixes_succ hless base
        callArguments := fun _ => callArguments_succ hless
        table := fun _ => table_succ hless
        fields := fun _ => fields_succ hless
        field := fun _ => field_succ hless }

end Continued

/-! ## Whole scripts -/

/-- **The reading of a script is carried over** to more fuel, and its failure because of a token to
more tokens. -/
theorem carries_chunk (h : fuel ≤ more) : Carries NoToken (chunk fuel) (chunk more) tokens := by
  unfold chunk
  refine ((Continued.all fuel more h).block tokens).andRest (fun body => rests_peek (rests_pure _))
    (fun token h => h.elim) fun body rest => ?_
  cases rest with
  | nil => exact carries_nil_of_stop rfl rfl fun next rest h => h.elim
  | cons next rest => exact Carries.peek ((carries_unexpected _).mono fun token _ => .intro token)

/-- A script is read to its end. -/
theorem chunk_done {chunk : Chunk} (h : Parser.chunk fuel tokens = .done chunk rest) :
    rest = [] := by
  rw [Parser.chunk] at h
  obtain ⟨body, left, -, hlast⟩ := bind_eq_done_iff.1 h
  cases left with
  | nil =>
    cases hlast
    rfl
  | cons next left => cases hlast

/-- With more fuel the outcome is the same. -/
theorem run_of_le {outcome : Outcome Chunk} (hle : fuel ≤ more) (h : chunk fuel tokens = outcome)
    (hne : outcome ≠ .exhausted) : chunk more tokens = outcome := by
  subst h
  exact (carries_chunk hle).run_eq hne

/-- Any two bounds that are enough lead to the same outcome. -/
theorem run_unique (hfuel : chunk fuel tokens ≠ .exhausted)
    (hmore : chunk more tokens ≠ .exhausted) : chunk fuel tokens = chunk more tokens :=
  (Nat.le_total fuel more).elim (fun hle => (run_of_le hle rfl hfuel).symm)
    fun hle => run_of_le hle rfl hmore

end Parser

namespace Chunk

open ProductionRates.Script.Parser

theorem ofTokens_of_failed {tokens : List PlacedToken} {error : ParseError}
    (h : Parser.chunk (enoughFuel tokens) tokens = .failed error) :
    ofTokens tokens = .error error := by
  rw [ofTokens]
  split
  all_goals
    rename_i hrun
    rw [h] at hrun
    cases hrun
  rfl

/-- What is made of the tokens of a script does not depend on the bound that is enough for them. -/
theorem ofTokens_eq_ok_iff {tokens : List PlacedToken} {chunk : Chunk} :
    ofTokens tokens = .ok chunk ↔ ∃ fuel, Parser.chunk fuel tokens = .done chunk [] := by
  constructor
  · intro h
    rw [ofTokens] at h
    split at h
    · rename_i rest hrun
      cases h
      obtain rfl := chunk_done hrun
      exact ⟨_, hrun⟩
    · cases h
    · rename_i hrun
      exact absurd hrun (chunk_ne_exhausted tokens)
  · rintro ⟨fuel, hrun⟩
    refine ofTokens_of_done ?_
    rw [← hrun]
    exact run_unique (chunk_ne_exhausted tokens) (by simp [hrun])

theorem ofTokens_eq_error_iff {tokens : List PlacedToken} {error : ParseError} :
    ofTokens tokens = .error error ↔ ∃ fuel, Parser.chunk fuel tokens = .failed error := by
  constructor
  · intro h
    rw [ofTokens] at h
    split at h
    · cases h
    · rename_i hrun
      cases h
      exact ⟨_, hrun⟩
    · rename_i hrun
      exact absurd hrun (chunk_ne_exhausted tokens)
  · rintro ⟨fuel, hrun⟩
    refine ofTokens_of_failed ?_
    rw [← hrun]
    exact run_unique (chunk_ne_exhausted tokens) (by simp [hrun])

end Chunk
end Script
end ProductionRates
