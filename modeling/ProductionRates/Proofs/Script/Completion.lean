import ProductionRates.Proofs.Script.Phrases

/-!
# Tokens that end too early

Reading fails at the end of the tokens just when they are the beginning of something that can be
read.  That an error because of a token stays whatever follows is known from `Parser.Continued`.
Here the converse is shown: whatever is pending when the tokens end can be completed, because every
notion of the grammar can be written with a few tokens, and so can what comes after it.

* `Parser.Fills` — tokens that are read as anything of a notion;
* `Parser.Completes` — a reader that fails at the end of the tokens reads on after some more;
* `Parser.Completable` — it does so, and its readings are carried over to more tokens;
* `Parser.Completable.andDemand`, `Parser.Completable.andRest` — one reader after the other;
* `Parser.Completed.all` — all notions can be completed;
* `unexpectedEnd_iff` — the tokens end too early just when they begin a script but are none.
-/

namespace ProductionRates
namespace Script
namespace Parser

variable {α β : Type} {fuel limit : Nat} {follows mid : Token → Prop} {p : Nat → Parser α}
  {f : Nat → α → Parser β} {token : Token} {others : List Token}
  {next : PlacedToken} {tokens rest : List PlacedToken}

/-! ## Completing a reading -/

/-- The tokens are read as anything, wherever they stand before tokens of a kind. -/
def Fills (p : Nat → Parser α) (tokens : List Token) (follows : Token → Prop) : Prop :=
  Takes p tokens follows fun _ => True

/-- If the reader fails at the end of the tokens, there are tokens with which it reads on, before
whatever of a kind follows. -/
def Completes (follows : Token → Prop) (p : Nat → Parser α) (fuel : Nat)
    (tokens : List PlacedToken) : Prop :=
  ∀ error, p fuel tokens = .failed error → error.isEnd = true →
    ∃ extension : List PlacedToken, ∀ more, Before follows more →
      ∃ value bound, ∀ fuel', bound ≤ fuel' →
        p fuel' (tokens ++ (extension ++ more)) = .done value more

/-- A reader that can be completed, and whose readings are carried over to more tokens. -/
structure Completable (follows : Token → Prop) (p : Nat → Parser α) (fuel : Nat)
    (tokens : List PlacedToken) : Prop where
  /-- What is read with some fuel is read alike with more, and before more tokens. -/
  carries : ∀ more, fuel ≤ more → Carries follows (p fuel) (p more) tokens
  /-- A reading that failed at the end goes on after some more tokens. -/
  completes : Completes follows p fuel tokens

theorem Completes.mono (h : Completes mid p fuel tokens)
    (himp : ∀ token, follows token → mid token) : Completes follows p fuel tokens := by
  intro error hrun hend
  obtain ⟨extension, hextension⟩ := h error hrun hend
  exact ⟨extension, fun more hmore => hextension more (hmore.mono himp)⟩

theorem Completable.mono (h : Completable mid p fuel tokens)
    (himp : ∀ token, follows token → mid token) : Completable follows p fuel tokens where
  carries more hmore := (h.carries more hmore).mono himp
  completes := h.completes.mono himp

theorem completes_of_succeeds (h : ∀ error, p fuel tokens ≠ .failed error) :
    Completes follows p fuel tokens :=
  fun error hrun => absurd hrun (h error)

theorem completes_of_done {value : α} {rest : List PlacedToken}
    (h : p fuel tokens = .done value rest) : Completes follows p fuel tokens := by
  refine completes_of_succeeds fun error hrun => ?_
  rw [h] at hrun
  cases hrun

theorem completes_of_exhausted (h : p fuel tokens = .exhausted) :
    Completes follows p fuel tokens := by
  refine completes_of_succeeds fun error hrun => ?_
  rw [h] at hrun
  cases hrun

theorem completes_fail {error : ParseError} (h : error.isEnd = false) :
    Completes follows (fun _ => (fail error : Parser α)) fuel tokens := by
  intro cause hrun hend
  cases hrun
  rw [h] at hend
  cases hend

theorem completes_pure (value : α) : Completes follows (fun _ => pure value) fuel tokens :=
  completes_of_done rfl

/-- One more unit of fuel does not matter. -/
theorem Completes.succ (h : Completes follows (fun fuel => p (fuel + 1)) fuel tokens) :
    Completes follows p (fuel + 1) tokens := by
  intro error hrun hend
  obtain ⟨extension, hextension⟩ := h error hrun hend
  refine ⟨extension, fun more hmore => ?_⟩
  obtain ⟨value, bound, hread⟩ := hextension more hmore
  refine ⟨value, bound + 1, fun fuel' hfuel => ?_⟩
  obtain ⟨fuel', rfl⟩ : ∃ less, fuel' = less + 1 := ⟨fuel' - 1, by omega⟩
  exact hread fuel' (by omega)

/-- Tokens to read when there are none. -/
theorem completes_nil {tokens : List Token} (h : Fills p tokens follows) :
    Completes follows p fuel [] := by
  intro error _ _
  obtain ⟨placed, rfl⟩ := exists_placed tokens
  refine ⟨placed, fun more hmore => ?_⟩
  obtain ⟨value, -, hread⟩ := h placed rfl more hmore
  exact ⟨value, hread⟩

/-- **Completing one reader after the other.**  What completes the second may have to stand where
the tokens ended, which is where the first stopped. -/
theorem Completable.bind {others : List Token} (hp : Completable mid p fuel tokens)
    (hfill : ∀ value, Fills (fun fuel => f fuel value) others follows)
    (hleads : Leads mid others follows)
    (hf : ∀ value next rest, Completes follows (fun fuel => f fuel value) fuel (next :: rest)) :
    Completes follows (fun fuel => p fuel >>= f fuel) fuel tokens := by
  intro error hrun hend
  obtain ⟨placed, rfl⟩ := exists_placed others
  rcases bind_eq_failed_iff.1 hrun with hfirst | ⟨value, left, hfirst, hsecond⟩
  · -- the first reader is completed, and then the second is filled
    obtain ⟨extension, hextension⟩ := hp.completes error hfirst hend
    refine ⟨extension ++ placed, fun more hmore => ?_⟩
    obtain ⟨value, bound, hread⟩ := hextension (placed ++ more) (hleads.before hmore)
    obtain ⟨result, -, bound', hrest⟩ := hfill value placed rfl more hmore
    refine ⟨result, max bound bound', fun fuel' hfuel => ?_⟩
    dsimp only
    rw [List.append_assoc, bind_done (hread fuel' (by omega))]
    exact hrest fuel' (by omega)
  cases left with
  | nil =>
    -- the first reader stopped at the end, and does so before what fills the second
    refine ⟨placed, fun more hmore => ?_⟩
    obtain ⟨result, -, bound, hrest⟩ := hfill value placed rfl more hmore
    refine ⟨result, max fuel bound, fun fuel' hfuel => ?_⟩
    have hread := (hp.carries fuel' (by omega)).done (placed ++ more) hfirst
      (.inr (hleads.before hmore))
    dsimp only
    rw [bind_done hread, List.nil_append]
    exact hrest fuel' (by omega)
  | cons next left =>
    obtain ⟨extension, hextension⟩ := hf value next left error hsecond hend
    refine ⟨extension, fun more hmore => ?_⟩
    obtain ⟨result, bound, hread⟩ := hextension more hmore
    refine ⟨result, max fuel bound, fun fuel' hfuel => ?_⟩
    have hcarried := (hp.carries fuel' (by omega)).done (extension ++ more) hfirst (.inl (by simp))
    dsimp only
    rw [bind_done hcarried]
    exact hread fuel' (by omega)

/-- A second reader that asks for tokens. -/
theorem Completable.andDemand (hp : Completable mid p fuel tokens) (token : Token)
    (others : List Token) (hmid : mid token)
    (hfill : ∀ value, Fills (fun fuel => f fuel value) (token :: others) follows)
    (hf : ∀ value next rest, Completes follows (fun fuel => f fuel value) fuel (next :: rest)) :
    Completes follows (fun fuel => p fuel >>= f fuel) fuel tokens :=
  hp.bind hfill (.cons hmid) hf

/-- A second reader that does without tokens. -/
theorem Completable.andRest (hp : Completable mid p fuel tokens)
    (himp : ∀ token, follows token → mid token)
    (hfill : ∀ value, Fills (fun fuel => f fuel value) [] follows)
    (hf : ∀ value next rest, Completes follows (fun fuel => f fuel value) fuel (next :: rest)) :
    Completes follows (fun fuel => p fuel >>= f fuel) fuel tokens :=
  hp.bind hfill himp hf

theorem Completable.answer {result : α → β} (hp : Completable follows p fuel tokens) :
    Completes follows (fun fuel => p fuel >>= fun value => pure (result value)) fuel tokens :=
  hp.andRest (fun _ h => h) (fun _ => takes_pure trivial) fun _ _ _ => completes_pure _

/-- Looking at tokens before they are read. -/
theorem Completes.look {γ : Type} {q : Parser γ} {f : Nat → γ → Parser β} {answer : γ}
    (hlook : ∀ more, q (tokens ++ more) = .done answer (tokens ++ more))
    (h : Completes follows (fun fuel => f fuel answer) fuel tokens) :
    Completes follows (fun fuel => q >>= f fuel) fuel tokens := by
  have hrun (fuel : Nat) (more : List PlacedToken) :
      (q >>= f fuel) (tokens ++ more) = f fuel answer (tokens ++ more) := bind_done (hlook more)
  intro error hfailed hend
  have hnow := hrun fuel []
  rw [List.append_nil] at hnow
  obtain ⟨extension, hextension⟩ := h error (hnow.symm.trans hfailed) hend
  exact ⟨extension, by simpa only [hrun] using hextension⟩

/-- Looking at the next token, when there is one. -/
theorem Completes.peek {f : Nat → Option PlacedToken → Parser β}
    (h : Completes follows (fun fuel => f fuel (some next)) fuel (next :: rest)) :
    Completes follows (fun fuel => Parser.peek >>= f fuel) fuel (next :: rest) := h

/-- Passing over the next token, when there is one. -/
theorem Completes.advance {f : Nat → Unit → Parser β}
    (h : Completes follows (fun fuel => f fuel ()) fuel rest) :
    Completes follows (fun fuel => Parser.advance >>= f fuel) fuel (next :: rest) := h

/-- A reader that asks for one token. -/
theorem completable_one {q : Parser α} (hfill : Fills (fun _ => q) [token] AnyToken)
    (hcarries : ∀ tokens, Carries AnyToken q q tokens)
    (hcons : ∀ next rest error, q (next :: rest) = .failed error → error.isEnd = false) :
    Completable AnyToken (fun _ => q) fuel tokens where
  carries _ _ := hcarries tokens
  completes := by
    cases tokens with
    | nil => exact completes_nil hfill
    | cons next rest =>
      intro error hrun hend
      rw [hcons next rest error hrun] at hend
      cases hend

theorem unexpected_not_end {expected : Expected} {error : ParseError}
    (h : (unexpected expected : Parser α) (next :: rest) = .failed error) :
    error.isEnd = false := by
  cases h
  rfl

theorem completes_unexpected {expected : Expected} :
    Completes follows (fun _ => (unexpected expected : Parser α)) fuel (next :: rest) := by
  intro error hrun hend
  rw [unexpected_not_end hrun] at hend
  cases hend

theorem completable_expectSymbol (mark : Symbol) :
    Completable AnyToken (fun _ => expectSymbol mark) fuel tokens := by
  refine completable_one (takes_expectSymbol mark) (fun _ => carries_expectSymbol mark)
    fun next rest error hrun => ?_
  rw [expectSymbol.eq_def] at hrun
  split at hrun
  · split at hrun
    · cases hrun
    · exact unexpected_not_end hrun
  · exact unexpected_not_end hrun

theorem completable_expectKeyword (word : Keyword) :
    Completable AnyToken (fun _ => expectKeyword word) fuel tokens := by
  refine completable_one (takes_expectKeyword word) (fun _ => carries_expectKeyword word)
    fun next rest error hrun => ?_
  rw [expectKeyword.eq_def] at hrun
  split at hrun
  · split at hrun
    · cases hrun
    · exact unexpected_not_end hrun
  · exact unexpected_not_end hrun

theorem completable_expectName : Completable AnyToken (fun _ => expectName) fuel tokens := by
  refine completable_one ((takes_expectName "").imp fun _ _ => trivial)
    (fun _ => carries_expectName) fun next rest error hrun => ?_
  rw [expectName.eq_def] at hrun
  split at hrun
  · cases hrun
  · exact unexpected_not_end hrun

/-- The keyword at the end of a statement. -/
theorem completes_end {value : α} : Completes follows
    (fun _ => expectKeyword .endWord >>= fun _ => pure value) fuel tokens :=
  (completable_expectKeyword .endWord).answer.mono fun token _ => .intro token

/-- A symbol that may be there. -/
theorem completes_eat {mark : Symbol} {f : Nat → Bool → Parser β}
    (hnil : tokens = [] → Completes follows (fun fuel => eat mark >>= f fuel) fuel [])
    (yes : ∀ rest, Completes follows (fun fuel => f fuel true) fuel rest)
    (no : ∀ next rest, Completes follows (fun fuel => f fuel false) fuel (next :: rest)) :
    Completes follows (fun fuel => eat mark >>= f fuel) fuel tokens := by
  cases tokens with
  | nil => exact hnil rfl
  | cons next rest =>
    obtain ⟨found, location⟩ := next
    by_cases hsame : found = .symbol mark
    · subst hsame
      have hrun (fuel : Nat) (tokens : List PlacedToken) :
          (eat mark >>= f fuel) (⟨.symbol mark, location⟩ :: tokens) = f fuel true tokens :=
        bind_done (eat_self mark)
      intro error h hend
      dsimp only at h
      rw [hrun] at h
      simpa only [List.cons_append, hrun] using yes rest error h hend
    · exact Completes.look (fun more => eat_of_ne hsame) (no _ rest)

theorem atBlockEnd_cons (next : PlacedToken) (rest : List PlacedToken) :
    Parser.atBlockEnd (next :: rest) = .done next.token.endsBlock (next :: rest) := by
  obtain ⟨token, location⟩ := next
  cases token <;> rfl

/-! ## All notions -/

/-- The reader of every notion with some fuel can be completed. -/
structure Completed (fuel : Nat) : Prop where
  moreNames : ∀ tokens, Completable ClosesTarget moreNames fuel tokens
  block : ∀ tokens, Completable ClosesBlock block fuel tokens
  statement : ∀ tokens, Completable ClosesBlock statement fuel tokens
  returned : ∀ tokens, Completable ClosesBlock returned fuel tokens
  conditionalArm : ∀ tokens, Completable ClosesBlock conditionalArm fuel tokens
  moreArms : ∀ tokens, Completable AnyToken moreArms fuel tokens
  assignmentOrCall : ∀ location tokens,
    Completable ClosesBlock (fun fuel => assignmentOrCall fuel location) fuel tokens
  moreTargets : ∀ tokens, Completable ClosesTarget moreTargets fuel tokens
  expressions : ∀ tokens, Completable Closes expressions fuel tokens
  moreExpressions : ∀ tokens, Completable Closes moreExpressions fuel tokens
  expression : ∀ limit tokens, Completable Closes (fun fuel => expression fuel limit) fuel tokens
  connected : ∀ limit left tokens,
    Completable Closes (fun fuel => connected fuel limit left) fuel tokens
  operand : ∀ tokens, Completable ClosesTarget operand fuel tokens
  primary : ∀ tokens, Completable AnyToken primary fuel tokens
  suffixed : ∀ tokens, Completable ClosesTarget suffixed fuel tokens
  suffixes : ∀ base tokens, Completable ClosesTarget (fun fuel => suffixes fuel base) fuel tokens
  callArguments : ∀ tokens, Completable AnyToken callArguments fuel tokens
  table : ∀ tokens, Completable AnyToken table fuel tokens
  fields : ∀ tokens, Completable Closes fields fuel tokens
  field : ∀ tokens, Completable Closes field fuel tokens

/-! ### How notions are filled -/

theorem fills_nil : Fills operand [.keyword .nilWord] AnyToken :=
  takes_operand (fun _ => trivial) fun _ _ _ => rfl

theorem fills_expression : Fills (fun fuel => expression fuel limit) [.keyword .nilWord] Closes :=
  (Takes.expression (fills_nil.mono fun token _ => .intro token)).mono fun _ h => ⟨h.1.1, h.2.1⟩

theorem fills_expressions : Fills expressions [.keyword .nilWord] Closes := by
  let parts : Parts := [([.keyword .nilWord], fun _ => True)]
  have hparts : Takes expressions parts.tokens StopsList parts.Found := by
    refine takes_expressions (by simp [parts]) fun part hpart => ?_
    obtain rfl := List.mem_singleton.1 hpart
    exact (fills_nil.mono fun token _ => .intro token).expression
  exact (hparts.mono fun _ h => ⟨⟨h.1.1, h.2.1⟩, h.1.2⟩).imp fun _ _ => trivial

theorem fills_moreExpressions : Fills moreExpressions [] Closes :=
  ((takes_moreExpressions (fun _ h => nomatch h) : Takes _ (Parts.further []) _ _).mono
    fun _ h => ⟨⟨h.1.1, h.2.1⟩, h.1.2⟩).imp fun _ _ => trivial

theorem fills_moreTargets : Fills moreTargets [] ClosesTarget :=
  (takes_moreTargets (fun _ h => nomatch h) : Takes _ (Parts.further []) _ _).imp fun _ _ => trivial

theorem fills_field : Takes field [.keyword .nilWord] StopsField fun _ => True :=
  Takes.positional (fills_nil.mono fun token _ => .intro token).expression fun _ _ => trivial

theorem fills_fields : Fills fields [.keyword .nilWord] Closes :=
  (fills_field.onlyField fun _ _ => trivial).mono
    fun _ h => ⟨⟨⟨h.1.1, h.2.1⟩, h.2.2.2⟩, h.1.2, h.2.2.1⟩

theorem fills_block : Fills block [] ClosesBlock := takes_block trivial

/-- A block and the keyword that ends it. -/
theorem fills_closedBlock {make : List Statement → α} :
    Fills (fun fuel => block fuel >>= fun body => expectKeyword .endWord >>= fun _ =>
      pure (make body)) [.keyword .endWord] AnyToken :=
  fills_block.bind (.cons rfl) fun _ _ => (takes_expectKeyword .endWord).answer fun _ _ => trivial

theorem fills_noArms : Fills moreArms [.keyword .endWord] AnyToken := takes_noArms trivial

theorem fills_suffixes (base : Expression) :
    Fills (fun fuel => suffixes fuel base) [] ClosesTarget :=
  (takes_suffixes base trivial).mono fun _ h => h.1

theorem fills_connected (left : Expression) :
    Fills (fun fuel => connected fuel limit left) [] Closes :=
  takes_connected (fun _ h => h.2.1) trivial

theorem fills_noArguments :
    Fills callArguments [.symbol .leftParen, .symbol .rightParen] AnyToken :=
  takes_noArguments trivial

/-- The closing mark after something. -/
theorem fills_closing {mark : Symbol} {value : α} :
    Fills (fun _ => expectSymbol mark >>= fun _ => pure value) [.symbol mark] follows :=
  (takes_expectSymbol mark).answer fun _ _ => trivial

theorem closes_rightParen : Closes (.symbol .rightParen) := ⟨⟨rfl, by simp⟩, rfl, by simp, by simp⟩

theorem closes_rightBracket : Closes (.symbol .rightBracket) :=
  ⟨⟨rfl, by simp⟩, rfl, by simp, by simp⟩

theorem closes_rightBrace : Closes (.symbol .rightBrace) := ⟨⟨rfl, by simp⟩, rfl, by simp, by simp⟩

theorem closes_keyword {word : Keyword} (h : Connective.ofToken? (.keyword word) = none) :
    Closes (.keyword word) := ⟨⟨rfl, by simp⟩, h, by simp, by simp⟩

namespace Completed

theorem moreNames_succ (ih : Completed fuel) :
    Completes ClosesTarget Parser.moreNames (fuel + 1) tokens := by
  refine Completes.succ ?_
  simp only [Parser.moreNames]
  refine completes_eat ?_ (fun rest => ?_) fun next rest => completes_pure []
  · exact fun _ => completes_of_done rfl
  · refine completable_expectName.andRest (fun token _ => .intro token) (fun name => ?_)
      fun name next rest => (ih.moreNames _).answer
    exact (takes_moreNames []).answer fun _ _ => trivial

theorem block_succ (ih : Completed fuel) :
    Completes ClosesBlock Parser.block (fuel + 1) tokens := by
  refine Completes.succ ?_
  simp only [Parser.block]
  cases tokens with
  | nil => exact completes_of_done rfl
  | cons next rest =>
    refine Completes.look (fun more => atBlockEnd_cons next (rest ++ more)) ?_
    cases next.token.endsBlock with
    | true => exact completes_pure []
    | false =>
      refine completes_eat (by simp) (fun rest => (ih.block rest).completes) fun next rest => ?_
      refine Completes.peek ?_
      refine (ih.statement _).andRest (fun _ h => h) (fun statement => ?_)
        fun statement next rest => ?_
      · split
        · exact takes_pure trivial
        · exact fills_block.answer fun _ _ => trivial
      · split
        · exact completes_pure _
        · exact (ih.block _).answer

theorem statement_succ (ih : Completed fuel) :
    Completes ClosesBlock Parser.statement (fuel + 1) tokens := by
  cases tokens with
  | nil => exact completes_nil ((takes_break fun _ => trivial).mono fun token _ => .intro token)
  | cons next rest =>
    refine Completes.succ ?_
    simp only [Parser.statement]
    refine Completes.peek ?_
    split
    case h_1 absent => cases absent
    · have hvalues (location : Location) (names : List String) : Fills (fun fuel =>
          eat .assign >>= fun given => if given = true then
            Parser.expressions fuel >>= fun values =>
              pure (Statement.localNames location names values)
          else pure (Statement.localNames location names [])) [] ClosesBlock := by
        refine (takes_eat_nil fun token h => (ClosesBlock.closes token h).2.2.2).stop
          (fun _ h => h) ?_
        rintro _ rfl
        exact takes_pure trivial
      refine Completes.advance ?_
      cases rest with
      | nil =>
        refine completes_nil (?_ : Fills _ [.name ""] _)
        refine Takes.peek fun _ => (takes_expectName "").cons fun name _ => ?_
        exact (takes_moreNames []).stop ClosesBlock.target fun names _ => hvalues _ _
      | cons next rest =>
        refine Completes.peek ?_
        split
        · exact completes_fail rfl
        refine completable_expectName.andRest (fun token _ => .intro token) (fun name => ?_)
          fun name next rest => ?_
        · exact (takes_moreNames []).stop ClosesBlock.target fun names _ => hvalues _ _
        refine (ih.moreNames _).andRest ClosesBlock.target (fun names => hvalues _ _)
          fun names next rest => ?_
        refine completes_eat (by simp) (fun rest => ?_) fun _ _ => completes_pure _
        exact ((ih.expressions rest).mono ClosesBlock.closes).answer
    · refine Completes.advance ?_
      refine (ih.returned rest).andRest (fun _ h => h) (fun values => ?_) fun values next rest => ?_
      · exact (takes_eat_nil ClosesBlock.not_semicolon).answer fun _ _ => trivial
      · exact completes_eat (by simp) (fun _ => completes_pure _) fun _ _ => completes_pure _
    · refine Completes.advance ?_
      refine (ih.block rest).andDemand (.keyword .endWord) [] rfl (fun body => ?_)
        fun body next rest => completes_end
      exact (takes_expectKeyword .endWord).answer fun _ _ => trivial
    · refine Completes.advance ?_
      refine (ih.expression 0 rest).andDemand (.keyword .doWord) [.keyword .endWord]
        (closes_keyword rfl) (fun condition => ?_) fun condition next rest => ?_
      · exact (takes_expectKeyword .doWord).cons fun _ _ =>
          fills_closedBlock.mono fun token _ => .intro token
      refine (completable_expectKeyword .doWord).andDemand (.keyword .endWord) [] (.intro _)
        (fun _ => fills_closedBlock.mono fun token _ => .intro token) fun _ next rest => ?_
      refine (ih.block _).andDemand (.keyword .endWord) [] rfl (fun body => ?_)
        fun body next rest => completes_end
      exact (takes_expectKeyword .endWord).answer fun _ _ => trivial
    · refine Completes.advance ?_
      refine (ih.conditionalArm rest).andDemand (.keyword .endWord) [] rfl (fun first => ?_)
        fun first next rest => ?_
      · exact (fills_noArms.mono fun token _ => .intro token).answer fun _ _ => trivial
      · exact ((ih.moreArms _).mono fun token _ => .intro token).answer
    · exact Completes.advance (completes_pure _)
    · exact completes_fail rfl
    · exact completes_fail rfl
    · exact completes_fail rfl
    · exact completes_fail rfl
    · exact completes_fail rfl
    · exact (ih.assignmentOrCall _ _).completes

theorem returned_succ (ih : Completed fuel) :
    Completes ClosesBlock Parser.returned (fuel + 1) tokens := by
  refine Completes.succ ?_
  simp only [Parser.returned]
  cases tokens with
  | nil => exact completes_of_done rfl
  | cons next rest =>
    refine Completes.look (fun more => atBlockEnd_cons next (rest ++ more)) ?_
    cases next.token.endsBlock with
    | true => exact completes_pure []
    | false =>
      refine Completes.peek ?_
      split
      · exact completes_pure []
      · exact (ih.expressions _).completes.mono ClosesBlock.closes

theorem conditionalArm_succ (ih : Completed fuel) :
    Completes ClosesBlock Parser.conditionalArm (fuel + 1) tokens := by
  refine Completes.succ ?_
  simp only [Parser.conditionalArm]
  refine (ih.expression 0 tokens).andDemand (.keyword .thenWord) [] (closes_keyword rfl)
    (fun condition => ?_) fun condition next rest => ?_
  · exact (takes_expectKeyword .thenWord).cons fun _ _ => fills_block.answer fun _ _ => trivial
  · refine (completable_expectKeyword .thenWord).andRest (fun token _ => .intro token) (fun _ => ?_)
      fun _ next rest => (ih.block _).answer
    exact fills_block.answer fun _ _ => trivial

theorem moreArms_succ (ih : Completed fuel) :
    Completes AnyToken Parser.moreArms (fuel + 1) tokens := by
  cases tokens with
  | nil => exact completes_nil fills_noArms
  | cons next rest =>
    refine Completes.succ ?_
    simp only [Parser.moreArms]
    refine Completes.peek ?_
    split
    · refine Completes.advance ?_
      refine (ih.conditionalArm rest).andDemand (.keyword .endWord) [] rfl (fun arm => ?_)
        fun arm next rest => (ih.moreArms _).answer
      exact fills_noArms.answer fun _ _ => trivial
    · refine Completes.advance ?_
      refine (ih.block rest).andDemand (.keyword .endWord) [] rfl (fun body => ?_)
        fun body next rest => (completable_expectKeyword .endWord).answer
      exact (takes_expectKeyword .endWord).answer fun _ _ => trivial
    · exact (completable_expectKeyword .endWord).answer

theorem expressions_succ (ih : Completed fuel) :
    Completes Closes Parser.expressions (fuel + 1) tokens := by
  refine Completes.succ ?_
  simp only [Parser.expressions]
  refine (ih.expression 0 tokens).andRest (fun _ h => h) (fun first => ?_)
    fun first next rest => (ih.moreExpressions _).answer
  exact fills_moreExpressions.answer fun _ _ => trivial

theorem moreExpressions_succ (ih : Completed fuel) :
    Completes Closes Parser.moreExpressions (fuel + 1) tokens := by
  refine Completes.succ ?_
  simp only [Parser.moreExpressions]
  refine completes_eat ?_ (fun rest => ?_) fun next rest => completes_pure []
  · exact fun _ => completes_of_done rfl
  · refine (ih.expression 0 rest).andRest (fun _ h => h) (fun value => ?_)
      fun value next rest => (ih.moreExpressions _).answer
    exact fills_moreExpressions.answer fun _ _ => trivial

theorem moreTargets_succ (ih : Completed fuel) :
    Completes ClosesTarget Parser.moreTargets (fuel + 1) tokens := by
  refine Completes.succ ?_
  simp only [Parser.moreTargets]
  refine completes_eat ?_ (fun rest => ?_) fun next rest => completes_pure []
  · exact fun _ => completes_of_done rfl
  · refine (ih.suffixed rest).andRest (fun _ h => h) (fun value => ?_)
      fun value next rest => (ih.moreTargets _).answer
    exact fills_moreTargets.answer fun _ _ => trivial

theorem expression_succ (ih : Completed fuel) (limit : Nat) :
    Completes Closes (fun fuel => Parser.expression fuel limit) (fuel + 1) tokens := by
  cases tokens with
  | nil => exact completes_nil fills_expression
  | cons next rest =>
    refine Completes.succ ?_
    simp only [Parser.expression]
    refine Completes.peek ?_
    dsimp only
    split
    · refine Completes.advance ?_
      exact (ih.expression _ rest).andRest (fun _ h => h) (fun _ => fills_connected _)
        fun argument next rest => (ih.connected _ _ _).completes
    · exact (ih.operand _).andRest Closes.target (fun _ => fills_connected _)
        fun first next rest => (ih.connected _ _ _).completes

theorem connected_succ (ih : Completed fuel) (limit : Nat) (left : Expression) :
    Completes Closes (fun fuel => Parser.connected fuel limit left) (fuel + 1) tokens := by
  cases tokens with
  | nil => exact completes_of_done rfl
  | cons next rest =>
    refine Completes.succ ?_
    simp only [Parser.connected]
    refine Completes.peek ?_
    dsimp only
    split
    · exact completes_pure left
    · split
      · exact completes_pure left
      · refine Completes.advance ?_
        exact (ih.expression _ rest).andRest (fun _ h => h) (fun _ => fills_connected _)
          fun right next rest => (ih.connected _ _ _).completes

theorem operand_succ (ih : Completed fuel) :
    Completes ClosesTarget Parser.operand (fuel + 1) tokens := by
  cases tokens with
  | nil => exact completes_nil (fills_nil.mono fun token _ => .intro token)
  | cons next rest =>
    refine Completes.succ ?_
    simp only [Parser.operand]
    refine Completes.peek ?_
    split
    case h_1 absent => cases absent
    case h_8 => exact (ih.table _).completes.mono fun token _ => .intro token
    case h_9 => exact completes_fail rfl
    case h_10 => exact completes_fail rfl
    case h_11 => exact (ih.suffixed _).completes
    all_goals exact Completes.advance (completes_pure _)

theorem primary_succ (ih : Completed fuel) :
    Completes AnyToken Parser.primary (fuel + 1) tokens := by
  cases tokens with
  | nil => exact completes_nil (takes_name fun _ => trivial : Takes _ [.name ""] _ _)
  | cons next rest =>
    refine Completes.succ ?_
    simp only [Parser.primary]
    refine Completes.peek ?_
    split
    · exact Completes.advance (completes_pure _)
    · refine Completes.advance ?_
      exact (ih.expression 0 rest).andDemand (.symbol .rightParen) [] closes_rightParen
        (fun inner => fills_closing) fun inner next rest =>
          (completable_expectSymbol .rightParen).answer
    · exact completes_unexpected

theorem suffixed_succ (ih : Completed fuel) :
    Completes ClosesTarget Parser.suffixed (fuel + 1) tokens := by
  refine Completes.succ ?_
  simp only [Parser.suffixed]
  exact (ih.primary tokens).andRest (fun token _ => .intro token) fills_suffixes
    fun base next rest => (ih.suffixes _ _).completes

theorem suffixes_succ (ih : Completed fuel) (base : Expression) :
    Completes ClosesTarget (fun fuel => Parser.suffixes fuel base) (fuel + 1) tokens := by
  cases tokens with
  | nil => exact completes_of_done rfl
  | cons next rest =>
    refine Completes.succ ?_
    simp only [Parser.suffixes]
    refine Completes.peek ?_
    have hcall (place : Location) (rest : List PlacedToken) (base : Expression) :
        Completes ClosesTarget (fun fuel => Parser.callArguments fuel >>= fun values =>
          Parser.suffixes fuel (.call place base values)) fuel rest :=
      (ih.callArguments rest).andRest (fun token _ => .intro token) (fun _ => fills_suffixes _)
        fun values next rest => (ih.suffixes _ _).completes
    split
    · refine Completes.advance ?_
      exact completable_expectName.andRest (fun token _ => .intro token) (fun _ => fills_suffixes _)
        fun name next rest => (ih.suffixes _ _).completes
    · refine Completes.advance ?_
      refine (ih.expression 0 rest).andDemand (.symbol .rightBracket) [] closes_rightBracket
        (fun index => ?_) fun index next rest => ?_
      · exact (takes_expectSymbol .rightBracket).cons fun _ _ => fills_suffixes _
      · exact (completable_expectSymbol .rightBracket).andRest (fun token _ => .intro token)
          (fun _ => fills_suffixes _) fun _ next rest => (ih.suffixes _ _).completes
    · refine Completes.advance ?_
      refine completable_expectName.andDemand (.symbol .leftParen) [.symbol .rightParen] (.intro _)
        (fun name => ?_) fun name next rest => hcall _ _ _
      exact fills_noArguments.stop (fun token _ => .intro token) fun _ _ => fills_suffixes _
    · exact hcall _ _ base
    · exact hcall _ _ base
    · exact hcall _ _ base
    · exact completes_pure base

theorem callArguments_succ (ih : Completed fuel) :
    Completes AnyToken Parser.callArguments (fuel + 1) tokens := by
  cases tokens with
  | nil => exact completes_nil fills_noArguments
  | cons next rest =>
    refine Completes.succ ?_
    simp only [Parser.callArguments]
    refine Completes.peek ?_
    split
    · exact (ih.table _).answer
    · exact Completes.advance (completes_pure _)
    · refine (completable_expectSymbol .leftParen).andDemand (.symbol .rightParen) [] (.intro _)
        (fun _ => ?_) fun _ next rest => ?_
      · refine (takes_eat .rightParen).cons ?_
        rintro _ rfl
        exact takes_pure trivial
      refine completes_eat (by simp) (fun _ => completes_pure []) fun next rest => ?_
      exact (ih.expressions _).andDemand (.symbol .rightParen) [] closes_rightParen
        (fun values => fills_closing) fun values next rest =>
          (completable_expectSymbol .rightParen).answer

theorem table_succ (ih : Completed fuel) :
    Completes AnyToken Parser.table (fuel + 1) tokens := by
  refine Completes.succ ?_
  simp only [Parser.table]
  refine (completable_expectSymbol .leftBrace).andDemand (.symbol .rightBrace) [] (.intro _)
    (fun location => ?_) fun location next rest => ?_
  · exact (takesFields_nil trivial : TakesFields [] fun _ => True).closed fun _ _ => trivial
  · exact (ih.fields _).andDemand (.symbol .rightBrace) [] closes_rightBrace
      (fun fields => fills_closing) fun fields next rest =>
        (completable_expectSymbol .rightBrace).answer

theorem fields_succ (ih : Completed fuel) :
    Completes Closes Parser.fields (fuel + 1) tokens := by
  cases tokens with
  | nil => exact completes_nil fills_fields
  | cons next rest =>
    refine Completes.succ ?_
    simp only [Parser.fields]
    refine Completes.peek ?_
    split
    · exact completes_pure []
    · refine (ih.field _).andRest (fun _ h => h) (fun field => ?_) fun field next rest => ?_
      · exact (takes_separator trivial).mono
          fun _ h => ⟨⟨⟨h.1.1, h.2.1⟩, h.2.2.2⟩, h.1.2, h.2.2.1⟩
      refine Completes.peek ?_
      split
      · exact Completes.advance (ih.fields _).answer
      · exact Completes.advance (ih.fields _).answer
      · exact completes_pure _

theorem field_succ (ih : Completed fuel) :
    Completes Closes Parser.field (fuel + 1) tokens := by
  cases tokens with
  | nil => exact completes_nil (fills_field.mono fun _ h => ⟨⟨h.1.1, h.2.1⟩, h.2.2.2⟩)
  | cons next rest =>
    refine Completes.succ ?_
    simp only [Parser.field]
    refine completes_eat (by simp) (fun rest => ?_) fun next rest => ?_
    · refine (ih.expression 0 rest).andDemand (.symbol .rightBracket)
        [.symbol .assign, .keyword .nilWord] closes_rightBracket (fun key => ?_)
        fun key next rest => ?_
      · exact (takes_expectSymbol .rightBracket).cons fun _ _ =>
          (takes_expectSymbol .assign).cons fun _ _ => fills_expression.answer fun _ _ => trivial
      refine (completable_expectSymbol .rightBracket).andDemand (.symbol .assign)
        [.keyword .nilWord] (.intro _) (fun _ => ?_) fun _ next rest => ?_
      · exact (takes_expectSymbol .assign).cons fun _ _ =>
          fills_expression.answer fun _ _ => trivial
      refine (completable_expectSymbol .assign).andDemand (.keyword .nilWord) [] (.intro _)
        (fun _ => ?_) fun _ next rest => (ih.expression 0 _).answer
      exact fills_expression.answer fun _ _ => trivial
    · rcases atNamedField_decided (next :: rest) with hnil | ⟨name, location, hname⟩ |
        ⟨named, hnamed⟩
      · cases hnil
      · -- a name alone is a value
        rw [hname]
        refine completes_of_succeeds fun error hrun => ?_
        have hvalue : (Parser.expression fuel 0 >>= fun value => pure (Field.positional value))
            [⟨.name name, location⟩] = .failed error := hrun
        rcases bind_eq_failed_iff.1 hvalue with hfirst | ⟨_, _, -, hsecond⟩
        · rcases expression_name with hread | hread <;> cases hread.symm.trans hfirst
        · cases hsecond
      · refine Completes.look hnamed ?_
        cases named with
        | true =>
          refine completable_expectName.andDemand (.symbol .assign) [.keyword .nilWord] (.intro _)
            (fun name => ?_) fun name next rest => Completes.advance (ih.expression 0 _).answer
          exact takes_advance.cons fun _ _ => fills_expression.answer fun _ _ => trivial
        | false => exact (ih.expression 0 _).answer

theorem assignmentOrCall_succ (ih : Completed fuel) (location : Location) :
    Completes ClosesBlock (fun fuel => Parser.assignmentOrCall fuel location) (fuel + 1)
      tokens := by
  refine Completes.succ ?_
  simp only [Parser.assignmentOrCall]
  have hvalues (place : Location) (targets : List Expression) :
      Fills (fun fuel => expectSymbol .assign >>= fun _ => Parser.expressions fuel >>= fun values =>
        pure (Statement.assignment place targets values)) [.symbol .assign, .keyword .nilWord]
        ClosesBlock :=
    (takes_expectSymbol .assign).cons fun _ _ =>
      (fills_expressions.mono ClosesBlock.closes).answer fun _ _ => trivial
  have hassign (first : Expression) (rest : List PlacedToken) :
      Completes ClosesBlock (fun fuel => Parser.moreTargets fuel >>= fun others =>
        expectSymbol .assign >>= fun _ => Parser.expressions fuel >>= fun values =>
        pure (Statement.assignment location (first :: others) values)) fuel rest := by
    refine (ih.moreTargets rest).andDemand (.symbol .assign) [.keyword .nilWord] ⟨rfl, by simp⟩
      (fun others => hvalues _ _) fun others next rest => ?_
    refine (completable_expectSymbol .assign).andDemand (.keyword .nilWord) [] (.intro _)
      (fun _ => ?_) fun _ next rest => ((ih.expressions _).mono ClosesBlock.closes).answer
    exact (fills_expressions.mono ClosesBlock.closes).answer fun _ _ => trivial
  refine (ih.suffixed tokens).andDemand (.symbol .assign) [.keyword .nilWord] ⟨rfl, by simp⟩
    (fun first => ?_) fun first next rest => Completes.peek ?_
  · exact Takes.peek fun _ => fills_moreTargets.bind (.cons ⟨rfl, by simp⟩) fun others _ =>
      hvalues _ _
  · split
    · exact hassign first _
    · exact hassign first _
    · split
      · exact completes_pure _
      · exact completes_unexpected

/-- **The reader of every notion can be completed.** -/
theorem all : ∀ fuel, Completed fuel := by
  intro fuel
  induction fuel with
  | zero =>
    constructor <;> intros <;>
      exact ⟨fun _ _ => carries_exhausted, completes_of_exhausted rfl⟩
  | succ fuel ih =>
    have hcarried (more : Nat) (h : fuel + 1 ≤ more) := Continued.all (fuel + 1) more h
    exact
      { moreNames := fun tokens => ⟨fun _ h => (hcarried _ h).moreNames tokens, moreNames_succ ih⟩
        block := fun tokens => ⟨fun _ h => (hcarried _ h).block tokens, block_succ ih⟩
        statement := fun tokens => ⟨fun _ h => (hcarried _ h).statement tokens, statement_succ ih⟩
        returned := fun tokens => ⟨fun _ h => (hcarried _ h).returned tokens, returned_succ ih⟩
        conditionalArm := fun tokens =>
          ⟨fun _ h => (hcarried _ h).conditionalArm tokens, conditionalArm_succ ih⟩
        moreArms := fun tokens => ⟨fun _ h => (hcarried _ h).moreArms tokens, moreArms_succ ih⟩
        assignmentOrCall := fun location tokens =>
          ⟨fun _ h => (hcarried _ h).assignmentOrCall location tokens,
            assignmentOrCall_succ ih location⟩
        moreTargets := fun tokens =>
          ⟨fun _ h => (hcarried _ h).moreTargets tokens, moreTargets_succ ih⟩
        expressions := fun tokens =>
          ⟨fun _ h => (hcarried _ h).expressions tokens, expressions_succ ih⟩
        moreExpressions := fun tokens =>
          ⟨fun _ h => (hcarried _ h).moreExpressions tokens, moreExpressions_succ ih⟩
        expression := fun limit tokens =>
          ⟨fun _ h => (hcarried _ h).expression limit tokens, expression_succ ih limit⟩
        connected := fun limit left tokens =>
          ⟨fun _ h => (hcarried _ h).connected limit left tokens, connected_succ ih limit left⟩
        operand := fun tokens =>
          ⟨fun _ h => ((hcarried _ h).operand tokens).mono fun _ hcloses => hcloses.1,
            operand_succ ih⟩
        primary := fun tokens => ⟨fun _ h => (hcarried _ h).primary tokens, primary_succ ih⟩
        suffixed := fun tokens =>
          ⟨fun _ h => ((hcarried _ h).suffixed tokens).mono fun _ hcloses => hcloses.1,
            suffixed_succ ih⟩
        suffixes := fun base tokens =>
          ⟨fun _ h => ((hcarried _ h).suffixes base tokens).mono fun _ hcloses => hcloses.1,
            suffixes_succ ih base⟩
        callArguments := fun tokens =>
          ⟨fun _ h => (hcarried _ h).callArguments tokens, callArguments_succ ih⟩
        table := fun tokens => ⟨fun _ h => (hcarried _ h).table tokens, table_succ ih⟩
        fields := fun tokens => ⟨fun _ h => (hcarried _ h).fields tokens, fields_succ ih⟩
        field := fun tokens => ⟨fun _ h => (hcarried _ h).field tokens, field_succ ih⟩ }

end Completed
/-! ## Whole scripts -/

/-- A script that failed at the end of its tokens goes on after some more tokens. -/
theorem completes_chunk : Completes NoToken chunk fuel tokens := by
  unfold chunk
  refine ((Completed.all fuel).block tokens).andRest (fun _ h => h.elim) (fun body => ?_)
    fun body next rest => Completes.peek completes_unexpected
  refine Takes.imp (?_ : Takes _ [] NoToken (· = body)) fun _ _ => trivial
  refine takes_nil rfl fun _ rest hrest => ?_
  cases rest with
  | nil => rfl
  | cons next rest => exact (before_cons.1 hrest).elim

end Parser

/-- An error because of a token is the same whatever follows. -/
theorem Chunk.ofTokens_append_of_error {tokens : List PlacedToken} {error : ParseError}
    (h : Chunk.ofTokens tokens = .error error) (hend : error.isEnd = false)
    (more : List PlacedToken) : Chunk.ofTokens (tokens ++ more) = .error error := by
  obtain ⟨fuel, hrun⟩ := Chunk.ofTokens_eq_error_iff.1 h
  have hmore := (Parser.carries_chunk (Nat.le_refl fuel)).failed more hrun (.inl hend)
  exact Chunk.ofTokens_eq_error_iff.2 ⟨fuel, hmore⟩

/-- Tokens that end too early go on to a script. -/
theorem Chunk.exists_ofTokens_append {tokens : List PlacedToken} {error : ParseError}
    (h : Chunk.ofTokens tokens = .error error) (hend : error.isEnd = true) :
    ∃ more, more ≠ [] ∧ ∃ chunk, Chunk.ofTokens (tokens ++ more) = .ok chunk := by
  obtain ⟨fuel, hrun⟩ := Chunk.ofTokens_eq_error_iff.1 h
  obtain ⟨more, hmore⟩ := Parser.completes_chunk error hrun hend
  obtain ⟨chunk, bound, hread⟩ := hmore [] before_nil
  have hscript : Chunk.ofTokens (tokens ++ more) = .ok chunk := by
    refine Chunk.ofTokens_eq_ok_iff.2 ⟨bound, ?_⟩
    simpa using hread bound (Nat.le_refl bound)
  refine ⟨more, ?_, chunk, hscript⟩
  rintro rfl
  rw [List.append_nil, h] at hscript
  cases hscript

/-- **The tokens end too early just when they are no script but the beginning of one.**  An error
because of a token is the same whatever follows. -/
theorem unexpectedEnd_iff (tokens : List PlacedToken) :
    ((∃ expected, Chunk.ofTokens tokens = .error (.unexpectedEnd expected)) ↔
      (∀ chunk, Chunk.ofTokens tokens ≠ .ok chunk) ∧
        ∃ more, more ≠ [] ∧ ∃ chunk, Chunk.ofTokens (tokens ++ more) = .ok chunk) ∧
      ∀ error, Chunk.ofTokens tokens = .error error →
        (∀ expected, error ≠ .unexpectedEnd expected) →
          ∀ more, Chunk.ofTokens (tokens ++ more) = .error error := by
  refine ⟨⟨?_, ?_⟩, fun error h hne more => ?_⟩
  · rintro ⟨expected, h⟩
    refine ⟨fun chunk hchunk => ?_, Chunk.exists_ofTokens_append h rfl⟩
    rw [h] at hchunk
    cases hchunk
  · rintro ⟨hnone, more, -, chunk, hmore⟩
    cases h : Chunk.ofTokens tokens with
    | ok chunk => exact absurd h (hnone chunk)
    | error error =>
      cases hend : error.isEnd with
      | true =>
        obtain ⟨expected, rfl⟩ := ParseError.isEnd_iff.1 hend
        exact ⟨expected, rfl⟩
      | false =>
        rw [Chunk.ofTokens_append_of_error h hend more] at hmore
        cases hmore
  · refine Chunk.ofTokens_append_of_error h ?_ more
    rw [Bool.eq_false_iff, Ne, ParseError.isEnd_iff]
    rintro ⟨expected, rfl⟩
    exact hne expected rfl

/-- A keyword that ends a block which was never begun is refused, whatever follows it. -/
theorem unexpectedEnd_iff_stray_end :
    Chunk.ofTokens ([⟨.keyword .endWord, .start⟩] ++ [⟨.name "ore", ⟨1, 5⟩⟩]) =
      .error (.unexpectedToken (.keyword .endWord) .statement .start) :=
  (unexpectedEnd_iff [⟨.keyword .endWord, .start⟩]).2 _ rfl (by simp) _

end Script
end ProductionRates
