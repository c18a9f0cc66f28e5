import ProductionRates.Proofs.Script.Continuation

/-!
# Readings move on and come to an end

A reading begins at a position of a list of tokens, which is the number of tokens before it.  It
never goes back behind that position, and most notions of the grammar take at least one token, so
that no notion can call itself forever without reading on.  How deep the calls can get is counted by
the tokens that are left and a rank of the notion, which is above the ranks of all notions that it
begins with.

* `EndsFrom` — where a reading that began at a position may have stopped;
* `Terminates` — a notion comes to an end from every position, whatever the bound on its calls;
* `terminates_of_leaves` — that is so if it leaves an end of the tokens and goes on alike with more
  fuel;
* `NotionsEnd` — all notions of the grammar come to an end, each with its rank and with the tokens
  that it takes at least;
* `readings_end` — so does the reading of a script, with a chunk or an error.
-/

namespace ProductionRates
namespace Script
namespace Parser

variable {α : Type} {rank step : Nat} {follows : Token → Prop}

/-! ## Positions -/

/-- A reading that began at a position has come to an end: unless it failed it has stopped at least
`step` tokens further on, and not past the last token.  A reading that failed has no position, since
nothing is read after it. -/
def EndsFrom (tokens : List PlacedToken) (position step : Nat) : Outcome α → Prop
  | .done _ rest => ∃ stop, position + step ≤ stop ∧ stop ≤ tokens.length ∧
      rest = tokens.drop stop
  | .failed _ => True
  | .exhausted => False

/-- From every position of every list of tokens the reader comes to an end, at least `step` tokens
further on.  Its calls get no deeper than eight for each token that is left and its rank, and what
it comes to is the same under every bound on their depth that is not met. -/
def Terminates (rank step : Nat) (p : Nat → Parser α) : Prop :=
  ∀ (tokens : List PlacedToken) (position : Nat), position ≤ tokens.length →
    ∃ outcome : Outcome α, EndsFrom tokens position step outcome ∧ ∀ fuel,
      (8 * (tokens.length - position) + rank ≤ fuel →
        p fuel (tokens.drop position) = outcome) ∧
      (p fuel (tokens.drop position) ≠ .exhausted → p fuel (tokens.drop position) = outcome)

/-- An end of what is left from a position is what is left from a later one. -/
theorem exists_stop {tokens rest : List PlacedToken} {position : Nat}
    (hposition : position ≤ tokens.length) (hrest : rest <:+ tokens.drop position)
    (hfewer : rest.length < tokens.length - position + 1 - step) :
    ∃ stop, position + step ≤ stop ∧ stop ≤ tokens.length ∧ rest = tokens.drop stop := by
  refine ⟨tokens.length - rest.length, by omega, Nat.sub_le .., ?_⟩
  have hdrop := List.suffix_iff_eq_drop.1 hrest
  rw [List.length_drop, List.drop_drop] at hdrop
  have hsame : position + (tokens.length - position - rest.length) =
      tokens.length - rest.length := by omega
  rwa [hsame] at hdrop

/-- What a reading leaves of the tokens from a position is at a later position. -/
theorem LeavesFewer.endsFrom {p : Parser α} {tokens : List PlacedToken} {position : Nat}
    (hposition : position ≤ tokens.length)
    (h : LeavesFewer p (tokens.drop position) ((tokens.drop position).length + 1 - step)) :
    EndsFrom tokens position step (p (tokens.drop position)) := by
  unfold LeavesFewer at h
  cases hrun : p (tokens.drop position) with
  | done value rest =>
    simp only [hrun, List.length_drop] at h
    exact exists_stop hposition h.1 h.2
  | failed error => trivial
  | exhausted => simp [hrun] at h

/-- A reader comes to an end if it leaves an end of the tokens under a bound on its calls, and goes
on alike under larger ones. -/
theorem terminates_of_leaves {p : Nat → Parser α}
    (hleaves : ∀ fuel tokens, 8 * tokens.length + rank ≤ fuel →
      LeavesFewer (p fuel) tokens (tokens.length + 1 - step))
    (hcarries : ∀ fuel more, fuel ≤ more → ∀ tokens, Carries follows (p fuel) (p more) tokens) :
    Terminates rank step p := by
  intro tokens position hposition
  have hleft : (tokens.drop position).length = tokens.length - position := List.length_drop
  generalize hbound : 8 * (tokens.length - position) + rank = bound
  have hends (fuel : Nat) (hfuel : bound ≤ fuel) :
      EndsFrom tokens position step (p fuel (tokens.drop position)) :=
    (hleaves fuel _ (by omega)).endsFrom hposition
  have hmet : p bound (tokens.drop position) ≠ .exhausted := by
    intro hexhausted
    have hbounded := hends bound (Nat.le_refl bound)
    rwa [hexhausted] at hbounded
  refine ⟨_, hends bound (Nat.le_refl bound), fun fuel => ⟨fun hfuel => ?_, fun hne => ?_⟩⟩
  · exact (hcarries bound fuel hfuel _).run_eq hmet
  · rcases Nat.le_total fuel bound with hle | hle
    · exact ((hcarries fuel bound hle _).run_eq hne).symm
    · exact (hcarries bound fuel hle _).run_eq hmet

/-- A reader that makes no calls comes to an end if it leaves an end of the tokens. -/
theorem terminates_of_single {p : Parser α}
    (hleaves : ∀ tokens, LeavesFewer p tokens (tokens.length + 1 - step)) :
    Terminates 0 step fun _ => p := by
  intro tokens position hposition
  exact ⟨_, (hleaves _).endsFrom hposition, fun fuel => ⟨fun _ => rfl, fun _ => rfl⟩⟩

/-! ## Single tokens -/

/-- The readers of single tokens end where they began or behind one token. -/
structure TokensEnd : Prop where
  peek : Terminates 0 0 fun _ => peek
  advance : Terminates 0 0 fun _ => advance
  eat : ∀ mark, Terminates 0 0 fun _ => eat mark
  atBlockEnd : Terminates 0 0 fun _ => atBlockEnd
  atNamedField : Terminates 0 0 fun _ => atNamedField
  expectSymbol : ∀ mark, Terminates 0 1 fun _ => expectSymbol mark
  expectKeyword : ∀ word, Terminates 0 1 fun _ => expectKeyword word
  expectName : Terminates 0 1 fun _ => expectName

/-- A reader leaves what it leaves when nothing is done with its answer. -/
theorem leavesFewer_of_answer {p : Parser α} {tokens : List PlacedToken} {n : Nat}
    (h : LeavesFewer (p >>= fun value => pure value) tokens n) : LeavesFewer p tokens n := by
  refine h.after ?_ List.suffix_rfl
  rw [bind_run]
  cases p tokens <;> rfl

theorem tokensEnd : TokensEnd where
  peek := terminates_of_single fun _ =>
    leavesFewer_of_answer (leavesFewer_peek (leavesFewer_pure (Nat.lt_succ_self _)))
  advance := terminates_of_single fun tokens => by
    cases tokens with
    | nil => exact ⟨List.suffix_rfl, Nat.lt_succ_self _⟩
    | cons next rest =>
      have hfewer : rest.length < (next :: rest).length + 1 - 0 := by
        rw [List.length_cons]
        omega
      exact leavesFewer_of_answer (leavesFewer_advance (leavesFewer_pure hfewer))
  eat mark := terminates_of_single fun _ => leavesFewer_of_answer <|
    leavesFewer_eat (fun _ hrest => leavesFewer_pure (by omega))
      (leavesFewer_pure (Nat.lt_succ_self _))
  atBlockEnd := terminates_of_single fun _ => leavesFewer_of_answer <|
    leavesFewer_atBlockEnd fun _ => leavesFewer_pure (Nat.lt_succ_self _)
  atNamedField := terminates_of_single fun _ => leavesFewer_of_answer <|
    leavesFewer_atNamedField (fun _ _ _ _ _ => leavesFewer_pure (Nat.lt_succ_self _))
      (leavesFewer_pure (Nat.lt_succ_self _))
  expectSymbol _ := terminates_of_single fun _ => leavesFewer_expectSymbol
  expectKeyword _ := terminates_of_single fun _ => leavesFewer_expectKeyword
  expectName := terminates_of_single fun _ => leavesFewer_expectName

/-! ## All notions -/

/-- All notions of the grammar come to an end.  Those that go on with a list or an expression may
take no token; each of the others takes at least one. -/
structure NotionsEnd : Prop where
  statement : Terminates 6 1 statement
  expression : ∀ limit, Terminates 4 1 fun fuel => expression fuel limit
  suffixed : Terminates 2 1 suffixed
  table : Terminates 1 1 table
  field : Terminates 5 1 field
  conditionalArm : Terminates 5 1 conditionalArm
  assignmentOrCall : ∀ location, Terminates 3 1 fun fuel => assignmentOrCall fuel location
  expressions : Terminates 5 1 expressions
  operand : Terminates 3 1 operand
  primary : Terminates 1 1 primary
  callArguments : Terminates 2 1 callArguments
  /-- The arms after the first take the keyword that ends them. -/
  moreArms : Terminates 1 1 moreArms
  block : Terminates 7 0 block
  returned : Terminates 6 0 returned
  moreNames : Terminates 1 0 moreNames
  moreTargets : Terminates 1 0 moreTargets
  moreExpressions : Terminates 1 0 moreExpressions
  connected : ∀ limit left, Terminates 1 0 fun fuel => connected fuel limit left
  suffixes : ∀ base, Terminates 3 0 fun fuel => suffixes fuel base
  fields : Terminates 6 0 fields
  chunk : Terminates 7 0 chunk

theorem notionsEnd : NotionsEnd where
  statement := terminates_of_leaves (fun fuel => (Progress.all fuel).statement)
    fun fuel more hle => (Continued.all fuel more hle).statement
  expression limit := terminates_of_leaves (fun fuel => (Progress.all fuel).expression limit)
    fun fuel more hle => (Continued.all fuel more hle).expression limit
  suffixed := terminates_of_leaves (fun fuel => (Progress.all fuel).suffixed)
    fun fuel more hle => (Continued.all fuel more hle).suffixed
  table := terminates_of_leaves (fun fuel => (Progress.all fuel).table)
    fun fuel more hle => (Continued.all fuel more hle).table
  field := terminates_of_leaves (fun fuel => (Progress.all fuel).field)
    fun fuel more hle => (Continued.all fuel more hle).field
  conditionalArm := terminates_of_leaves (fun fuel => (Progress.all fuel).conditionalArm)
    fun fuel more hle => (Continued.all fuel more hle).conditionalArm
  assignmentOrCall location :=
    terminates_of_leaves (fun fuel => (Progress.all fuel).assignmentOrCall location)
      fun fuel more hle => (Continued.all fuel more hle).assignmentOrCall location
  expressions := terminates_of_leaves (fun fuel => (Progress.all fuel).expressions)
    fun fuel more hle => (Continued.all fuel more hle).expressions
  operand := terminates_of_leaves (fun fuel => (Progress.all fuel).operand)
    fun fuel more hle => (Continued.all fuel more hle).operand
  primary := terminates_of_leaves (fun fuel => (Progress.all fuel).primary)
    fun fuel more hle => (Continued.all fuel more hle).primary
  callArguments := terminates_of_leaves (fun fuel => (Progress.all fuel).callArguments)
    fun fuel more hle => (Continued.all fuel more hle).callArguments
  moreArms := terminates_of_leaves (fun fuel => (Progress.all fuel).moreArms)
    fun fuel more hle => (Continued.all fuel more hle).moreArms
  block := terminates_of_leaves (fun fuel => (Progress.all fuel).block)
    fun fuel more hle => (Continued.all fuel more hle).block
  returned := terminates_of_leaves (fun fuel => (Progress.all fuel).returned)
    fun fuel more hle => (Continued.all fuel more hle).returned
  moreNames := terminates_of_leaves (fun fuel => (Progress.all fuel).moreNames)
    fun fuel more hle => (Continued.all fuel more hle).moreNames
  moreTargets := terminates_of_leaves (fun fuel => (Progress.all fuel).moreTargets)
    fun fuel more hle => (Continued.all fuel more hle).moreTargets
  moreExpressions := terminates_of_leaves (fun fuel => (Progress.all fuel).moreExpressions)
    fun fuel more hle => (Continued.all fuel more hle).moreExpressions
  connected limit left :=
    terminates_of_leaves (fun fuel => (Progress.all fuel).connected limit left)
      fun fuel more hle => (Continued.all fuel more hle).connected limit left
  suffixes base := terminates_of_leaves (fun fuel => (Progress.all fuel).suffixes base)
    fun fuel more hle => (Continued.all fuel more hle).suffixes base
  fields := terminates_of_leaves (fun fuel => (Progress.all fuel).fields)
    fun fuel more hle => (Continued.all fuel more hle).fields
  chunk := terminates_of_leaves (fun _ _ => leavesFewer_chunk)
    fun _ _ hle _ => carries_chunk hle

end Parser

/-! ## Whole scripts -/

/-- With a bound that is enough for the tokens of a script, what the grammar comes to is what is
made of them. -/
theorem Chunk.run_of_ofTokens (tokens : List PlacedToken) {fuel : Nat}
    (hfuel : enoughFuel tokens ≤ fuel) :
    Parser.chunk fuel tokens = match ofTokens tokens with
      | .ok chunk => .done chunk []
      | .error error => .failed error := by
  have hmet := Parser.chunk_ne_exhausted tokens
  cases hmade : ofTokens tokens with
  | ok chunk =>
    obtain ⟨bound, hrun⟩ := ofTokens_eq_ok_iff.1 hmade
    have hsame := Parser.run_unique hmet (by rw [hrun]; exact nofun)
    exact Parser.run_of_le hfuel (hsame.trans hrun) nofun
  | error error =>
    obtain ⟨bound, hrun⟩ := ofTokens_eq_error_iff.1 hmade
    have hsame := Parser.run_unique hmet (by rw [hrun]; exact nofun)
    exact Parser.run_of_le hfuel (hsame.trans hrun) nofun

/-- **Every reading moves on and comes to an end.**  From any position of any tokens, the notions of
the grammar and the readers of single tokens stop behind it or where they began, and never past the
last token; a statement, an expression of any limit, a suffixed expression, a table and a field take
at least one token.  No bound on the depth of calls matters that is large enough for the tokens that
are left, so a script comes to a chunk or to an error, whatever its text. -/
theorem readings_end : Parser.NotionsEnd ∧ Parser.TokensEnd ∧ ∀ source : String,
    (∃ error, Token.scan source = .error error ∧ Chunk.parse source = .error error) ∨
    ∃ tokens, Token.scan source = .ok tokens ∧
      ((∃ chunk, Chunk.parse source = .ok chunk ∧
          ∀ fuel, enoughFuel tokens ≤ fuel → Parser.chunk fuel tokens = .done chunk []) ∨
        ∃ error, Chunk.parse source = .error error ∧
          ∀ fuel, enoughFuel tokens ≤ fuel → Parser.chunk fuel tokens = .failed error) := by
  refine ⟨Parser.notionsEnd, Parser.tokensEnd, fun source => ?_⟩
  cases hscan : Token.scan source with
  | error error => exact .inl ⟨error, rfl, by rw [Chunk.parse, hscan]; rfl⟩
  | ok tokens =>
    have hparse : Chunk.parse source = Chunk.ofTokens tokens := by
      rw [Chunk.parse, hscan]
      rfl
    refine .inr ⟨tokens, rfl, ?_⟩
    rw [hparse]
    cases hmade : Chunk.ofTokens tokens with
    | ok chunk =>
      refine .inl ⟨chunk, rfl, fun fuel hfuel => ?_⟩
      rw [Chunk.run_of_ofTokens tokens hfuel, hmade]
    | error error =>
      refine .inr ⟨error, rfl, fun fuel hfuel => ?_⟩
      rw [Chunk.run_of_ofTokens tokens hfuel, hmade]

end Script
end ProductionRates
