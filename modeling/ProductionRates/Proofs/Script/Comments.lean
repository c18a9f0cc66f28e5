import Mathlib.Data.List.TakeWhile
import ProductionRates.Proofs.Script.Lexing

/-!
# Comments leave no tokens

A comment runs to the end of its line, or to the closer of its own level if an opener follows the
two dashes at once.  Here is where it ends, in terms of the text alone, and that it is as if it were
not there: what comes after it is cut into the same tokens, at other places.

* `longOpener`, `ClosesFirst`, `IsCommentBody` — what may stand between the dashes of a comment and
  the text after it;
* `longBracketLevel?_eq_some_iff`, `lengthThrough_of_closesFirst` — openers and closers in a text;
* `commentLength_append`, `isCommentBody_commentLength` — the scanner finds just these comments;
* `Alike` — scans that come to the same tokens, or stop at the same text;
* `scan_past_comment` — comments that end leave what the text after them is cut into as it is, and
  a comment without an end takes all of the text.
-/

namespace ProductionRates
namespace Script

open Decimal

variable {level : Nat} {cs closer inside body rest : List Char} {location other : Location}

/-! ## Openers -/

/-- The opener of a long bracket. -/
def longOpener (level : Nat) : List Char := '[' :: (List.replicate level '=' ++ ['['])

theorem length_longOpener (level : Nat) : (longOpener level).length = level + 2 := by
  simp [longOpener]

theorem run_replicate_append (h : StopsAt (· = '=') rest) :
    run (· = '=') (List.replicate level '=' ++ rest) = level := by
  have hall : ∀ c ∈ List.replicate level '=', (decide (c = '=')) = true := by
    intro c hc
    exact decide_eq_true (List.eq_of_mem_replicate hc)
  rw [run, takeWhile_append_of_stop hall h, List.length_replicate]

/-- The level of a long bracket is that of the opener which the text begins with. -/
theorem longBracketLevel?_eq_some_iff :
    longBracketLevel? cs = some level ↔ ∃ rest, cs = longOpener level ++ rest := by
  constructor
  · intro h
    unfold longBracketLevel? at h
    split at h
    · rename_i body
      split at h
      · rename_i rest hrest
        cases h
        -- what is dropped before the second bracket are equals signs only
        have hsigns : body.takeWhile (· = '=') =
            List.replicate (run (· = '=') body) '=' := by
          refine List.eq_replicate_of_mem fun c hc => ?_
          simpa using List.mem_takeWhile_imp hc
        refine ⟨rest, ?_⟩
        have hbody := List.takeWhile_append_dropWhile (p := (· = '=')) (l := body)
        rw [hsigns, hrest] at hbody
        rw [longOpener, List.cons_append, List.append_assoc]
        exact congrArg _ hbody.symm
      · cases h
    · cases h
  · rintro ⟨rest, rfl⟩
    have hall : ∀ c ∈ List.replicate level '=', (decide (c = '=')) = true := by
      intro c hc
      exact decide_eq_true (List.eq_of_mem_replicate hc)
    have hstop : StopsAt (· = '=') ('[' :: rest) := by simp
    have hdrop : (List.replicate level '=' ++ '[' :: rest).dropWhile (· = '=') = '[' :: rest :=
      dropWhile_append_of_stop hall hstop
    rw [longOpener, List.cons_append, List.append_assoc, List.singleton_append, longBracketLevel?]
    simp only [hdrop]
    rw [run_replicate_append hstop]

theorem longBracketLevel?_eq_none_iff :
    longBracketLevel? cs = none ↔ ∀ level, ¬ longOpener level <+: cs := by
  rw [Option.eq_none_iff_forall_ne_some]
  refine forall_congr' fun level => not_congr ?_
  rw [longBracketLevel?_eq_some_iff]
  exact ⟨fun ⟨rest, h⟩ => ⟨rest, h.symm⟩, fun ⟨rest, h⟩ => ⟨rest, h.symm⟩⟩

/-! ## Closers -/

/-- With the closer put after it, the text holds that closer nowhere earlier. -/
def ClosesFirst (closer inside : List Char) : Prop :=
  ∀ before after, inside ++ closer = before ++ (closer ++ after) → after = []

theorem ClosesFirst.tail {c : Char} (h : ClosesFirst closer (c :: inside)) :
    ClosesFirst closer inside := by
  intro before after heq
  exact h (c :: before) after (congrArg (c :: ·) heq)

/-- A closer that comes first later does not stand at the head of the text. -/
theorem ClosesFirst.not_isPrefixOf {c : Char} (h : ClosesFirst closer (c :: inside)) :
    closer.isPrefixOf (c :: (inside ++ (closer ++ rest))) = false := by
  rw [Bool.eq_false_iff, Ne, List.isPrefixOf_iff_prefix]
  intro hleads
  have hwhole : c :: (inside ++ closer) <+: c :: (inside ++ (closer ++ rest)) :=
    ⟨rest, by simp⟩
  have hlength : closer.length ≤ (c :: (inside ++ closer)).length := by
    rw [List.length_cons, List.length_append]
    omega
  obtain ⟨after, hafter⟩ := List.prefix_of_prefix_length_le hleads hwhole hlength
  obtain rfl := h [] after hafter.symm
  have hsame := congrArg List.length hafter
  simp only [List.append_nil, List.length_cons, List.length_append] at hsame
  omega

/-- A text up to and with the first closer in it. -/
theorem lengthThrough_of_closesFirst (hcloser : closer ≠ []) (h : ClosesFirst closer inside) :
    lengthThrough closer (inside ++ (closer ++ rest)) = inside.length + closer.length := by
  induction inside with
  | nil =>
    obtain ⟨c, tail, rfl⟩ := List.exists_cons_of_ne_nil hcloser
    have hleads : (c :: tail).isPrefixOf (c :: (tail ++ rest)) = true :=
      List.isPrefixOf_iff_prefix.2 ⟨rest, rfl⟩
    rw [List.nil_append, List.cons_append, lengthThrough, if_pos hleads, List.length_nil,
      Nat.zero_add]
  | cons c inside ih =>
    rw [List.cons_append, lengthThrough, h.not_isPrefixOf, if_neg (by decide), ih h.tail,
      List.length_cons]
    omega

/-- Without a closer all of a text is taken. -/
theorem lengthThrough_of_not_infix (h : ¬ closer <:+: cs) : lengthThrough closer cs = cs.length := by
  induction cs with
  | nil => rfl
  | cons c cs ih =>
    have hleads : closer.isPrefixOf (c :: cs) = false := by
      rw [Bool.eq_false_iff, Ne, List.isPrefixOf_iff_prefix]
      exact fun hleads => h hleads.isInfix
    have htail : ¬ closer <:+: cs := fun htail => h (List.infix_cons htail)
    rw [lengthThrough, hleads, if_neg (by decide), ih htail, List.length_cons]

/-- A closer in a text has a first place. -/
theorem exists_closesFirst (hcloser : closer ≠ []) (h : closer <:+: cs) :
    ∃ inside rest, cs = inside ++ (closer ++ rest) ∧ ClosesFirst closer inside := by
  induction cs with
  | nil => exact absurd (List.infix_nil.1 h) hcloser
  | cons c cs ih =>
    by_cases hleads : closer <+: c :: cs
    · obtain ⟨rest, hrest⟩ := hleads
      refine ⟨[], rest, hrest.symm, fun before after heq => ?_⟩
      have hlength := congrArg List.length heq
      simp only [List.nil_append, List.length_append] at hlength
      exact List.eq_nil_of_length_eq_zero (by omega)
    · have htail : closer <:+: cs := (List.infix_cons_iff.1 h).resolve_left hleads
      obtain ⟨inside, rest, rfl, hfirst⟩ := ih htail
      refine ⟨c :: inside, rest, rfl, fun before after heq => ?_⟩
      cases before with
      | nil =>
        refine absurd ?_ hleads
        -- the closer would stand at the head already
        refine List.IsPrefix.trans ⟨after, ?_⟩ (⟨rest, ?_⟩ : c :: (inside ++ closer) <+: _)
        · exact heq.symm
        · simp
      | cons d before => exact hfirst before after (List.cons.inj heq).2

/-- Whether a closer comes first at the end can be seen by looking for it. -/
theorem closesFirst_iff (hcloser : closer ≠ []) :
    ClosesFirst closer inside ↔
      lengthThrough closer (inside ++ closer) = inside.length + closer.length := by
  constructor
  · intro h
    have hlength : lengthThrough closer (inside ++ (closer ++ [])) = _ :=
      lengthThrough_of_closesFirst hcloser h
    rwa [List.append_nil] at hlength
  · intro h
    obtain ⟨first, rest, hsame, hfirst⟩ :=
      exists_closesFirst hcloser (List.suffix_append inside closer).isInfix
    rw [hsame, lengthThrough_of_closesFirst hcloser hfirst] at h
    obtain ⟨rfl, -⟩ := List.append_inj hsame (by omega)
    exact hfirst

/-! ## Comments -/

/-- What stands after the dashes of a comment, before the rest of the text. -/
inductive IsCommentBody : List Char → List Char → Prop where
  /-- A block, up to and with the first closer of its level. -/
  | block (level : Nat) {inside : List Char} (h : ClosesFirst (longCloser level) inside)
      (rest : List Char) : IsCommentBody (longOpener level ++ (inside ++ longCloser level)) rest
  /-- A block that is never closed, up to the end of the text. -/
  | openBlock (level : Nat) {inside : List Char} (h : ¬ longCloser level <:+: inside) :
      IsCommentBody (longOpener level ++ inside) []
  /-- What is no block, up to the end of its line or of the text. -/
  | line {body rest : List Char} (hopener : ∀ level, ¬ longOpener level <+: body)
      (hfeed : '\n' ∉ body) (hrest : ∀ c ∈ rest.head?, c = '\n') : IsCommentBody body rest

theorem longCloser_ne_nil (level : Nat) : longCloser level ≠ [] := List.cons_ne_nil _ _

/-- The end of a line is in no opener. -/
theorem not_longOpener_before (hopener : ∀ level, ¬ longOpener level <+: body)
    (hrest : ∀ c ∈ rest.head?, c = '\n') (level : Nat) : ¬ longOpener level <+: body ++ rest := by
  rintro ⟨after, hafter⟩
  obtain ⟨more, hbody, -⟩ | ⟨bracket, hbracket, hmore⟩ := List.append_eq_append_iff.1 hafter
  · exact hopener level ⟨more, hbody.symm⟩
  · cases bracket with
    | nil =>
      rw [List.append_nil] at hbracket
      exact hopener level (hbracket ▸ List.prefix_rfl)
    | cons c bracket =>
      have hc : c = '\n' := hrest c (by simp [hmore])
      have hmem : c ∈ longOpener level := by
        rw [hbracket]
        exact List.mem_append_right _ (List.mem_cons_self ..)
      simp [longOpener, hc] at hmem

/-- **The scanner takes such a comment whole**, and nothing of what follows it. -/
theorem commentLength_append (h : IsCommentBody body rest) :
    commentLength (body ++ rest) = body.length := by
  cases h with
  | block level h rest =>
    rename_i inside
    have hlevel : longBracketLevel? (longOpener level ++ (inside ++ (longCloser level ++ rest))) =
        some level := longBracketLevel?_eq_some_iff.2 ⟨_, rfl⟩
    have hdrop : (longOpener level ++ (inside ++ (longCloser level ++ rest))).drop (level + 2) =
        inside ++ (longCloser level ++ rest) := by
      rw [← length_longOpener, List.drop_left]
    rw [List.append_assoc, List.append_assoc, commentLength, hlevel]
    dsimp only
    rw [hdrop, lengthThrough_of_closesFirst (longCloser_ne_nil level) h, List.length_append,
      List.length_append, length_longOpener]
  | openBlock level h =>
    rename_i inside
    have hlevel : longBracketLevel? (longOpener level ++ inside) = some level :=
      longBracketLevel?_eq_some_iff.2 ⟨_, rfl⟩
    have hdrop : (longOpener level ++ inside).drop (level + 2) = inside := by
      rw [← length_longOpener, List.drop_left]
    rw [List.append_nil, commentLength, hlevel]
    dsimp only
    rw [hdrop, lengthThrough_of_not_infix h, List.length_append, length_longOpener]
  | line hopener hfeed hrest =>
    have hlevel : longBracketLevel? (body ++ rest) = none :=
      longBracketLevel?_eq_none_iff.2 (not_longOpener_before hopener hrest)
    have hall : ∀ c ∈ body, (decide (c ≠ '\n')) = true := by
      intro c hc
      refine decide_eq_true ?_
      rintro rfl
      exact hfeed hc
    have hstop : StopsAt (· ≠ '\n') rest := by
      intro c hc
      simp [hrest c hc]
    rw [commentLength, hlevel]
    dsimp only
    rw [run, takeWhile_append_of_stop hall hstop]

/-- **What the scanner takes for a comment is one.** -/
theorem isCommentBody_commentLength (cs : List Char) :
    IsCommentBody (cs.take (commentLength cs)) (cs.drop (commentLength cs)) := by
  suffices h : ∃ body rest, cs = body ++ rest ∧ IsCommentBody body rest by
    obtain ⟨body, rest, rfl, hbody⟩ := h
    rw [commentLength_append hbody, List.take_left, List.drop_left]
    exact hbody
  cases hlevel : longBracketLevel? cs with
  | some level =>
    obtain ⟨more, rfl⟩ := longBracketLevel?_eq_some_iff.1 hlevel
    by_cases hcloser : longCloser level <:+: more
    · obtain ⟨inside, rest, rfl, hfirst⟩ :=
        exists_closesFirst (longCloser_ne_nil level) hcloser
      exact ⟨_, rest, by simp, .block level hfirst rest⟩
    · exact ⟨_, [], (List.append_nil _).symm, .openBlock level hcloser⟩
  | none =>
    have hopener := longBracketLevel?_eq_none_iff.1 hlevel
    refine ⟨_, _, (List.takeWhile_append_dropWhile (p := (· ≠ '\n'))).symm, .line ?_ ?_ ?_⟩
    · intro level hleads
      exact hopener level (hleads.trans (List.takeWhile_prefix _))
    · intro hmem
      simpa using List.mem_takeWhile_imp hmem
    · intro c hc
      have hstop := List.head?_dropWhile_not (· ≠ '\n') cs
      rw [Option.mem_def.1 hc] at hstop
      simpa using hstop

/-! ## Scanning past comments -/

/-- The scans come to the same tokens, or stop at the same text, wherever these stand. -/
inductive Alike : Except ParseError (List PlacedToken) → Except ParseError (List PlacedToken) → Prop
    where
  /-- The same tokens in the same order. -/
  | tokens {placed others : List PlacedToken}
      (h : placed.map PlacedToken.token = others.map PlacedToken.token) :
      Alike (.ok placed) (.ok others)
  /-- The same text that is no token. -/
  | stopped (text : String) (location other : Location) :
      Alike (.error (.unrecognised text location)) (.error (.unrecognised text other))

/-- What a text is cut into does not depend on where it stands. -/
theorem alike_scanFrom (location other : Location) (skip : Nat) (cs : List Char) :
    Alike (Token.scanFrom location skip cs) (Token.scanFrom other skip cs) := by
  induction cs generalizing location other skip with
  | nil =>
    rw [Token.scanFrom.eq_def, Token.scanFrom.eq_def]
    exact .tokens rfl
  | cons c cs ih =>
    cases skip with
    | succ skip => exact ih _ _ skip
    | zero =>
      rw [Token.scanFrom, Token.scanFrom]
      cases Piece.atHead (c :: cs) with
      | mk piece length =>
        cases piece with
        | skipped => exact ih _ _ _
        | unrecognised => exact .stopped _ _ _
        | token token =>
          dsimp only
          generalize hfirst : Token.scanFrom (location.past c) (length - 1) cs = first
          generalize hsecond : Token.scanFrom (other.past c) (length - 1) cs = second
          have hrest := ih (location.past c) (other.past c) (length - 1)
          rw [hfirst, hsecond] at hrest
          cases hrest with
          | tokens h => exact .tokens (congrArg (token :: ·) h)
          | stopped text place place' => exact .stopped text place place'

/-- A comment is passed over, wherever it stands. -/
theorem scanFrom_comment (location : Location) (h : IsCommentBody body rest) :
    Token.scanFrom location 0 ('-' :: '-' :: (body ++ rest)) =
      Token.scanFrom (location.pastAll ('-' :: '-' :: body)) 0 rest := by
  have hhead : Piece.atHead ('-' :: '-' :: (body ++ rest)) = (.skipped, body.length + 2) := by
    rw [Piece.atHead, commentLength_append h]
  rw [Token.scanFrom, hhead]
  dsimp only
  exact Token.scanFrom_skip (location.past '-') ('-' :: body) rest

/-- The line feed after a comment is a blank. -/
theorem scanFrom_lineFeed (location : Location) (rest : List Char) :
    Token.scanFrom location 0 ('\n' :: rest) = Token.scanFrom (location.past '\n') 0 rest := by
  have hrun : run isBlank ('\n' :: rest) = run isBlank rest + 1 := by
    rw [run, List.takeWhile_cons_of_pos (by decide), List.length_cons, run]
  rw [← scanFrom_run, hrun, Token.scanFrom, scanFrom_run]

/-- **Comments leave no tokens.**  After a block up to the first closer of its level, and after
another comment to the end of its line, a text is cut into the tokens that it is cut into alone, or
stops scanning at the same text; and a block without a closer, or a comment on the last line, takes
all that is left of the text. -/
theorem scan_past_comment (level : Nat) (body text : List Char) :
    (ClosesFirst (longCloser level) body →
        Alike (Token.scan (String.ofList
            ('-' :: '-' :: (longOpener level ++ (body ++ (longCloser level ++ text))))))
          (Token.scan (String.ofList text))) ∧
      (¬ longCloser level <:+: body →
        Piece.atHead ('-' :: '-' :: (longOpener level ++ body)) =
            (.skipped, ('-' :: '-' :: (longOpener level ++ body)).length) ∧
          Token.scan (String.ofList ('-' :: '-' :: (longOpener level ++ body))) = .ok []) ∧
      ('\n' ∉ body → (∀ level, ¬ longOpener level <+: body) →
        Alike (Token.scan (String.ofList ('-' :: '-' :: (body ++ '\n' :: text))))
            (Token.scan (String.ofList text)) ∧
          Piece.atHead ('-' :: '-' :: body) = (.skipped, ('-' :: '-' :: body).length) ∧
          Token.scan (String.ofList ('-' :: '-' :: body)) = .ok []) := by
  -- a comment with nothing after it is the whole piece, and leaves nothing to scan
  have hlast {body : List Char} (h : IsCommentBody body []) :
      Piece.atHead ('-' :: '-' :: body) = (.skipped, ('-' :: '-' :: body).length) ∧
        Token.scan (String.ofList ('-' :: '-' :: body)) = .ok [] := by
    have hlength := commentLength_append h
    have hscan := scanFrom_comment Location.start h
    rw [List.append_nil] at hlength hscan
    refine ⟨?_, ?_⟩
    · rw [Piece.atHead, hlength, List.length_cons, List.length_cons]
    · rw [Token.scan, String.toList_ofList, hscan]
      rfl
  refine ⟨fun hcloser => ?_, fun hcloser => hlast (.openBlock level hcloser),
    fun hfeed hopener => ⟨?_, hlast (.line hopener hfeed (by simp))⟩⟩
  · have hscan := scanFrom_comment Location.start (.block level hcloser text)
    rw [List.append_assoc, List.append_assoc] at hscan
    rw [Token.scan, Token.scan, String.toList_ofList, String.toList_ofList, hscan]
    exact alike_scanFrom _ _ 0 text
  · have hscan := scanFrom_comment Location.start
      (.line hopener hfeed (by simp) : IsCommentBody body ('\n' :: text))
    rw [Token.scan, Token.scan, String.toList_ofList, String.toList_ofList, hscan,
      scanFrom_lineFeed]
    exact alike_scanFrom _ _ 0 text

/-- A closer of another level is text like any other. -/
theorem scan_past_comment_otherLevel :
    (ClosesFirst (longCloser 1) ['o', 'r', 'e', ']', ']'] ∧
        Alike (Token.scan "--[=[ore]]]=]x = 1") (Token.scan "x = 1")) ∧
      (¬ longCloser 1 <:+: ['o', 'r', 'e', ']', ']'] ∧ Token.scan "--[=[ore]]" = .ok []) ∧
      '\n' ∉ ['o', 'r', 'e', ']', ']'] ∧
      (∀ level, ¬ longOpener level <+: ['o', 'r', 'e', ']', ']']) ∧
      Alike (Token.scan "--ore]]\nx = 1") (Token.scan "x = 1") := by
  have hfirst : ClosesFirst (longCloser 1) ['o', 'r', 'e', ']', ']'] :=
    (closesFirst_iff (longCloser_ne_nil 1)).2 rfl
  have hnone : ¬ longCloser 1 <:+: ['o', 'r', 'e', ']', ']'] := by decide
  have hfeed : '\n' ∉ ['o', 'r', 'e', ']', ']'] := by decide
  have hopener : ∀ level, ¬ longOpener level <+: ['o', 'r', 'e', ']', ']'] :=
    longBracketLevel?_eq_none_iff.1 rfl
  have h := scan_past_comment 1 ['o', 'r', 'e', ']', ']'] ['x', ' ', '=', ' ', '1']
  exact ⟨⟨hfirst, h.1 hfirst⟩, ⟨hnone, (h.2.1 hnone).2⟩, hfeed, hopener,
    (h.2.2 hfeed hopener).1⟩

end Script
end ProductionRates
