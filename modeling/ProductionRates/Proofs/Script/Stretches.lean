import ProductionRates.Proofs.Script.LexicalRules

/-!
# What a script is cut into

A script that is scanned is nothing but stretches one after the other: blanks, comments, and the
lexemes of its tokens.  Each is the longest match at its place, and the token of a lexeme stands
where the text before it ends.

* `Location.Precedes`, `Location.after_precedes` — the order of lines and columns;
* `Stretch`, `Stretch.Fits`, `Fit` — stretches, and whether they fit the text that they begin;
* `exists_stretch` — a stretch is cut off the head of a text, unless the text there is no token;
* `placedTokens` — the tokens of stretches, with their places;
* `scan_stretches` — a script is the stretches that its tokens are in, and these stand in order.
-/

namespace ProductionRates
namespace Script

variable {c : Char} {cs before more rest : List Char}

/-! ## The order of locations -/

/-- The location comes earlier in a text. -/
def Location.Precedes (location other : Location) : Prop :=
  location.line < other.line ∨ location.line = other.line ∧ location.column < other.column

/-- Counting on from the location after a text. -/
theorem Location.pastAll_after (before cs : List Char) :
    (Location.after before).pastAll cs = .after (before ++ cs) := by
  rw [← pastAll_start, ← pastAll_start, pastAll_append]

/-- Further on in a text, the location is a later one. -/
theorem Location.after_precedes (before : List Char) (hne : more ≠ []) :
    (Location.after before).Precedes (.after (before ++ more)) := by
  by_cases hfeed : '\n' ∈ more
  · left
    show before.count '\n' + 1 < (before ++ more).count '\n' + 1
    have hpos : 0 < more.count '\n' := List.count_pos_iff.2 hfeed
    rw [List.count_append]
    omega
  · right
    have hall : ∀ d ∈ more.reverse, (decide (d ≠ '\n')) = true := by
      intro d hd
      refine decide_eq_true ?_
      rintro rfl
      exact hfeed (List.mem_reverse.1 hd)
    have hpos : 0 < more.length := List.length_pos_of_ne_nil hne
    refine ⟨?_, ?_⟩
    · show before.count '\n' + 1 = (before ++ more).count '\n' + 1
      rw [List.count_append, List.count_eq_zero.2 hfeed, Nat.add_zero]
    · show (before.reverse.takeWhile (· ≠ '\n')).length + 1 <
        ((before ++ more).reverse.takeWhile (· ≠ '\n')).length + 1
      rw [List.reverse_append, List.takeWhile_append_of_pos hall, List.length_append,
        List.length_reverse]
      omega

/-! ## Stretches -/

/-- A stretch of a script. -/
inductive Stretch where
  /-- Blanks. -/
  | blanks (chars : List Char)
  /-- A comment, without its dashes. -/
  | comment (body : List Char)
  /-- The lexeme of a token, by its rule. -/
  | lexeme (rule : LexicalRule) (chars : List Char) (token : Token)

variable {stretch : Stretch} {stretches : List Stretch}

namespace Stretch

/-- The characters of a stretch. -/
def chars : Stretch → List Char
  | .blanks chars | .lexeme _ chars _ => chars
  | .comment body => '-' :: '-' :: body

/-- The token of a stretch, if it has one. -/
def token? : Stretch → Option Token
  | .lexeme _ _ token => some token
  | .blanks _ | .comment _ => none

/-- What stands there before the rest of the text: the longest match of any rule, which the token
comes from; after the dashes of a comment, the comment. -/
def Fits : Stretch → List Char → Prop
  | .blanks chars, rest => IsLexeme .blanks chars rest
  | .comment body, rest => IsLexeme .dashes ['-', '-'] (body ++ rest) ∧ IsCommentBody body rest
  | .lexeme rule chars token, rest => rule.token? chars = some token ∧ IsLexeme rule chars rest

theorem Fits.chars_ne_nil (h : stretch.Fits rest) : stretch.chars ≠ [] := by
  have hne {rule : LexicalRule} {lexeme : List Char} (h : rule.Matches lexeme) : lexeme ≠ [] := by
    obtain ⟨c, tail, rfl⟩ := h.exists_cons
    exact List.cons_ne_nil c tail
  cases stretch with
  | blanks chars => exact hne h.fits
  | comment body => exact List.cons_ne_nil _ _
  | lexeme rule chars token => exact hne h.2.fits

/-- The piece that a stretch is. -/
def piece (stretch : Stretch) : Piece :=
  match stretch.token? with
  | some token => .token token
  | none => .skipped

end Stretch

/-- Only blanks and comments are skipped. -/
theorem isBlank_of_skipped {length : Nat} (hdashes : ¬ ['-', '-'] <+: c :: cs)
    (h : Piece.atHead (c :: cs) = (.skipped, length)) : isBlank c = true := by
  have hword (text : List Char) : Piece.word text ≠ (.skipped, length) := by
    rw [Piece.word]
    split <;> simp
  have hquoted (quote : Char) (text : List Char) : Piece.quoted quote text ≠ (.skipped, length) := by
    rw [Piece.quoted]
    dsimp only
    split <;> simp
  have hbracket (text : List Char) : Piece.bracket text ≠ (.skipped, length) := by
    rw [Piece.bracket]
    split
    · simp
    · split <;> simp
  have hnumeral (text : List Char) : Piece.numeral? text ≠ some (.skipped, length) := by
    rw [Piece.numeral?]
    split
    · split <;> simp
    · dsimp only
      split <;> simp
  have hsymbol (text : List Char) : Piece.symbol text ≠ (.skipped, length) := by
    rw [Piece.symbol]
    split <;> simp
  rw [Piece.atHead.eq_def] at h
  split at h
  · exact absurd ‹c :: cs = []› (List.cons_ne_nil c cs)
  · rename_i tail heq
    exact absurd ⟨tail, heq.symm⟩ hdashes
  · rename_i heq
    cases heq
    split at h
    · assumption
    · split at h
      · exact absurd h (hword _)
      · split at h
        · exact absurd h (hquoted _ _)
        · split at h
          · exact absurd h (hbracket _)
          · split at h
            · rename_i hsome
              exact absurd (h ▸ hsome) (hnumeral _)
            · exact absurd h (hsymbol _)

/-- **A stretch is cut off the head of a text**, unless the text there is no token. -/
theorem exists_stretch (h : (Piece.atHead (c :: cs)).1 ≠ .unrecognised) :
    ∃ (stretch : Stretch) (rest : List Char), c :: cs = stretch.chars ++ rest ∧
      stretch.Fits rest ∧ Piece.atHead (c :: cs) = (stretch.piece, stretch.chars.length) := by
  by_cases hdashes : ['-', '-'] <+: c :: cs
  · obtain ⟨tail, htail⟩ := hdashes
    rw [← htail]
    have hbody := isCommentBody_commentLength tail
    have hlength : (tail.take (commentLength tail)).length = commentLength tail := by
      rw [← commentLength_append hbody, List.take_append_drop]
    refine ⟨.comment (tail.take (commentLength tail)), tail.drop (commentLength tail), ?_,
      ⟨isLexeme_dashes _, hbody⟩, ?_⟩
    · exact congrArg ('-' :: '-' :: ·) (List.take_append_drop _ tail).symm
    · show Piece.atHead ('-' :: '-' :: tail) =
        (.skipped, (tail.take (commentLength tail)).length + 2)
      rw [hlength, Piece.atHead]
  · cases hhead : Piece.atHead (c :: cs) with
    | mk piece length =>
      cases piece with
      | unrecognised => exact absurd (congrArg Prod.fst hhead) h
      | skipped =>
        obtain ⟨blanks, rest, hcs, hskipped, hlexeme⟩ :=
          exists_isLexeme_of_blank (isBlank_of_skipped hdashes hhead) cs
        exact ⟨.blanks blanks, rest, hcs, hlexeme, hhead.symm.trans hskipped⟩
      | token token =>
        obtain ⟨rule, lexeme, rest, hcs, hlength, htoken, hlexeme⟩ :=
          exists_isLexeme_of_token hdashes hhead
        exact ⟨.lexeme rule lexeme token, rest, hcs, ⟨htoken, hlexeme⟩, by rw [← hlength]; rfl⟩

/-! ## Scripts -/

/-- Each of the stretches fits the text that it begins. -/
def Fit : List Stretch → Prop
  | [] => True
  | stretch :: stretches => stretch.Fits (stretches.flatMap Stretch.chars) ∧ Fit stretches

/-- The tokens of stretches that come after a text, each with the location after the text before
it. -/
def placedTokens (before : List Char) : List Stretch → List PlacedToken
  | [] => []
  | stretch :: stretches =>
    (stretch.token?.map fun token => (⟨token, .after before⟩ : PlacedToken)).toList ++
      placedTokens (before ++ stretch.chars) stretches

/-- Tokens stand no earlier than the first stretch. -/
theorem exists_location_of_mem {next : PlacedToken} (h : next ∈ placedTokens before stretches) :
    ∃ more, next.location = .after (before ++ more) := by
  induction stretches generalizing before with
  | nil => cases h
  | cons stretch stretches ih =>
    rcases List.mem_append.1 h with hfirst | hnext
    · obtain ⟨token, -, rfl⟩ := Option.map_eq_some_iff.1 (Option.mem_toList.1 hfirst)
      exact ⟨[], by rw [List.append_nil]⟩
    · obtain ⟨more, hmore⟩ := ih hnext
      exact ⟨stretch.chars ++ more, by rw [hmore, List.append_assoc]⟩

/-- **The tokens of a script stand one after the other.** -/
theorem pairwise_placedTokens (before : List Char) (h : Fit stretches) :
    (placedTokens before stretches).Pairwise (·.location.Precedes ·.location) := by
  induction stretches generalizing before with
  | nil => exact .nil
  | cons stretch stretches ih =>
    refine List.pairwise_append.2 ⟨?_, ih _ h.2, fun first hfirst next hnext => ?_⟩
    · cases stretch.token? with
      | none => exact .nil
      | some token => exact List.pairwise_singleton _ _
    · obtain ⟨token, -, rfl⟩ := Option.map_eq_some_iff.1 (Option.mem_toList.1 hfirst)
      obtain ⟨more, hmore⟩ := exists_location_of_mem hnext
      rw [hmore, List.append_assoc]
      refine Location.after_precedes before fun hnil => ?_
      exact h.1.chars_ne_nil (List.append_eq_nil_iff.1 hnil).1

/-- The scanner passes over a stretch and keeps its token. -/
theorem scanFrom_stretch (location : Location) (hne : stretch.chars ≠ [])
    (h : Piece.atHead (stretch.chars ++ rest) = (stretch.piece, stretch.chars.length)) :
    Token.scanFrom location 0 (stretch.chars ++ rest) =
      ((stretch.token?.map fun token => (⟨token, location⟩ : PlacedToken)).toList ++ ·) <$>
        Token.scanFrom (location.pastAll stretch.chars) 0 rest := by
  obtain ⟨c, tail, hchars⟩ := List.exists_cons_of_ne_nil hne
  rw [hchars] at h ⊢
  rw [Stretch.piece] at h
  cases htoken : stretch.token? with
  | some token =>
    rw [htoken] at h
    exact Token.scanFrom_token location h
  | none =>
    rw [htoken] at h
    rw [List.cons_append] at h ⊢
    rw [Token.scanFrom, h]
    dsimp only
    rw [List.length_cons, Nat.add_sub_cancel, Token.scanFrom_skip]
    exact (id_map _).symm

/-- What is scanned after a text is stretches, and its tokens are theirs. -/
theorem exists_stretches {tokens : List PlacedToken} (before : List Char)
    (h : Token.scanFrom (.after before) 0 cs = .ok tokens) :
    ∃ stretches : List Stretch, cs = stretches.flatMap Stretch.chars ∧ Fit stretches ∧
      tokens = placedTokens before stretches := by
  induction hlength : cs.length using Nat.strong_induction_on generalizing before cs tokens with
  | _ length ih =>
    subst hlength
    cases cs with
    | nil =>
      cases h
      exact ⟨[], rfl, trivial, rfl⟩
    | cons c cs =>
      have hpiece : (Piece.atHead (c :: cs)).1 ≠ .unrecognised := by
        intro hpiece
        rw [Token.scanFrom] at h
        split at h
        · rename_i hhead
          rw [hhead] at hpiece
          cases hpiece
        · rename_i hhead
          rw [hhead] at hpiece
          cases hpiece
        · cases h
      obtain ⟨stretch, rest, hcs, hfits, hhead⟩ := exists_stretch hpiece
      rw [hcs] at h hhead ⊢
      rw [scanFrom_stretch _ hfits.chars_ne_nil hhead, Location.pastAll_after] at h
      cases hrest : Token.scanFrom (.after (before ++ stretch.chars)) 0 rest with
      | error error =>
        rw [hrest] at h
        cases h
      | ok others =>
        rw [hrest] at h
        cases h
        have hshorter : rest.length < (stretch.chars ++ rest).length := by
          have hpos := List.length_pos_of_ne_nil hfits.chars_ne_nil
          rw [List.length_append]
          omega
        obtain ⟨stretches, rfl, hfit, rfl⟩ := ih _ (by rwa [hcs]) _ hrest rfl
        exact ⟨stretch :: stretches, rfl, ⟨hfits, hfit⟩, rfl⟩

/-- **A script is cut into blanks, comments and the lexemes of its tokens**, with nothing left out:
each is the longest match of any rule where it stands, a keyword before a name; and every token is
at the line and the column after the text before it, so that the tokens stand in order. -/
theorem scan_stretches {source : String} {tokens : List PlacedToken}
    (h : Token.scan source = .ok tokens) :
    ∃ stretches : List Stretch, source.toList = stretches.flatMap Stretch.chars ∧ Fit stretches ∧
      tokens = placedTokens [] stretches ∧
      tokens.Pairwise (·.location.Precedes ·.location) := by
  obtain ⟨stretches, hsource, hfit, rfl⟩ := exists_stretches [] h
  exact ⟨stretches, hsource, hfit, rfl, pairwise_placedTokens [] hfit⟩

/-- A keyword, the longer of two symbols, and a comment over two lines. -/
theorem scan_stretches_comment :
    Token.scan "a<=--[[\n]]end" =
        .ok [⟨.name "a", ⟨1, 1⟩⟩, ⟨.symbol .lessEqual, ⟨1, 2⟩⟩, ⟨.keyword .endWord, ⟨2, 3⟩⟩] ∧
      ∃ stretches : List Stretch,
        "a<=--[[\n]]end".toList = stretches.flatMap Stretch.chars ∧ Fit stretches ∧
          [⟨.name "a", ⟨1, 1⟩⟩, ⟨.symbol .lessEqual, ⟨1, 2⟩⟩, ⟨.keyword .endWord, ⟨2, 3⟩⟩] =
            placedTokens [] stretches := by
  have hscan : Token.scan "a<=--[[\n]]end" =
      .ok [⟨.name "a", ⟨1, 1⟩⟩, ⟨.symbol .lessEqual, ⟨1, 2⟩⟩, ⟨.keyword .endWord, ⟨2, 3⟩⟩] := rfl
  obtain ⟨stretches, hsource, hfit, htokens, -⟩ := scan_stretches hscan
  exact ⟨hscan, stretches, hsource, hfit, htokens⟩

end Script
end ProductionRates
