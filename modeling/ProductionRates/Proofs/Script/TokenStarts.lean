import Mathlib.Data.List.Induction
import ProductionRates.Proofs.Sequence
import ProductionRates.Script.Lexeme

/-!
# Where tokens begin

Scanning walks over the characters of a script and counts lines and columns as it goes.  Here is
what it finds without the walk: a script is cut at its head again and again, a whole piece at a
time, and where the piece that comes next is a token, a token begins.

* `Location.after` — the line and the column that come after a text, by its line feeds;
* `CutsTo` — whole pieces are cut off the head of a text;
* `IsTokenAt`, `IsUnrecognisedAt` — a token or text that is none begins at a location;
* `Token.scan_places` — every token that is scanned begins at its location, and so does the text
  that stops scanning.
-/

namespace ProductionRates
namespace Script

/-! ## Lines and columns -/

/-- The location after a text: one more line than it has line feeds, one more column than there are
characters after the last of them. -/
def Location.after (before : List Char) : Location :=
  ⟨before.count '\n' + 1, (before.reverse.takeWhile (· ≠ '\n')).length + 1⟩

theorem Location.pastAll_append (location : Location) (cs ds : List Char) :
    location.pastAll (cs ++ ds) = (location.pastAll cs).pastAll ds :=
  List.foldl_append ..

/-- Counting on from the start comes to the location after the text. -/
theorem Location.pastAll_start (before : List Char) : start.pastAll before = after before := by
  induction before using List.reverseRecOn with
  | nil => rfl
  | append_singleton before c ih =>
    rw [pastAll_append, ih, pastAll, List.foldl_cons, List.foldl_nil, past, after, after]
    by_cases hc : c = '\n'
    · simp [hc]
    · simp [hc]

/-! ## Pieces -/

namespace Piece

theorem run_pos {p : Char → Bool} {c : Char} {cs : List Char} (hc : p c = true) :
    0 < run p (c :: cs) := by
  simp [run, hc]

theorem isNameRest_of_isNameStart {c : Char} (hc : isNameStart c = true) : isNameRest c = true := by
  rw [isNameStart, Bool.or_eq_true] at hc
  rw [isNameRest, Char.isAlphanum, Bool.or_eq_true, Bool.or_eq_true]
  exact hc.imp_left .inl

theorem numeral?_pos {cs : List Char} {piece : Piece × Nat} (h : numeral? cs = some piece) :
    0 < piece.2 := by
  rw [numeral?] at h
  split at h
  · split at h
    · cases h
    · rename_i hlength
      cases h
      exact Nat.pos_of_ne_zero hlength
  · cases h
    exact Nat.succ_pos _

theorem symbol_pos (cs : List Char) : 0 < (symbol cs).2 := by
  rw [symbol]
  split
  · rename_i mark _
    cases mark <;> decide
  · exact Nat.one_pos

/-- A piece takes some characters. -/
theorem atHead_pos (c : Char) (cs : List Char) : 0 < (atHead (c :: cs)).2 := by
  rw [atHead.eq_def]
  split
  · exact absurd ‹c :: cs = []› nofun
  · exact Nat.succ_pos _
  · rename_i heq
    cases heq
    split
    · exact run_pos ‹_›
    · split
      · rw [word]
        have hrun : 0 < run isNameRest (c :: cs) :=
          run_pos (isNameRest_of_isNameStart ‹isNameStart c = true›)
        split <;> exact hrun
      · split
        · rw [quoted]
          dsimp only
          split <;> exact Nat.succ_pos _
        · split
          · rw [bracket]
            split
            · exact Nat.succ_pos _
            · split
              · exact Nat.one_pos
              · exact Nat.succ_pos _
          · split
            · exact numeral?_pos ‹_›
            · exact symbol_pos _

end Piece

/-! ## Token starts -/

/-- Whole pieces are cut off the head of a text until a text is left. -/
inductive CutsTo (cs : List Char) : List Char → Prop where
  /-- Nothing is cut off. -/
  | refl : CutsTo cs cs
  /-- One more piece is cut off. -/
  | piece {rest : List Char} (h : CutsTo cs rest) (hpiece : (Piece.atHead rest).1 ≠ .unrecognised) :
    CutsTo cs (rest.drop (Piece.atHead rest).2)

/-- In the text a token begins at a location. -/
def IsTokenAt (text : String) (token : Token) (location : Location) : Prop :=
  ∃ before rest, text.toList = before ++ rest ∧ CutsTo text.toList rest ∧
    (Piece.atHead rest).1 = .token token ∧ location = .after before

/-- In the text there is no token to begin at a location where one would. -/
def IsUnrecognisedAt (text lexeme : String) (location : Location) : Prop :=
  ∃ before rest length, text.toList = before ++ rest ∧ CutsTo text.toList rest ∧
    Piece.atHead rest = (.unrecognised, length) ∧ lexeme = String.ofList (rest.take length) ∧
    location = .after before

/-- What stops scanning is text that is no token, and stands where it is said to. -/
def ParseError.IsUnrecognised (text : String) : ParseError → Prop
  | .unrecognised lexeme location => IsUnrecognisedAt text lexeme location
  | _ => False

/-- Scanning on from a place of a text up to which whole pieces were cut off, but for some
characters of the last. -/
theorem Token.scanFrom_places {text : String} {cs : List Char} {skip : Nat} (before : List Char)
    (htext : text.toList = before ++ cs) (hcuts : CutsTo text.toList (cs.drop skip)) :
    match scanFrom (.after before) skip cs with
    | .ok tokens => ∀ next ∈ tokens, IsTokenAt text next.token next.location
    | .error error => error.IsUnrecognised text := by
  induction cs generalizing skip before with
  | nil => cases skip <;> simp [scanFrom]
  | cons c cs ih =>
    have hpast : (Location.after before).past c = .after (before ++ [c]) := by
      rw [← Location.pastAll_start, ← Location.pastAll_start, Location.pastAll_append]
      rfl
    have hnext : text.toList = (before ++ [c]) ++ cs := by simp [htext]
    cases skip with
    | succ skip =>
      -- inside the last piece: the text after it is still the same
      rw [scanFrom, hpast]
      exact ih _ hnext hcuts
    | zero =>
      have hcut : (Piece.atHead (c :: cs)).1 ≠ .unrecognised →
          CutsTo text.toList (cs.drop ((Piece.atHead (c :: cs)).2 - 1)) := by
        intro hpiece
        have hpos := Piece.atHead_pos c cs
        rw [← List.drop_succ_cons (a := c), Nat.sub_add_cancel hpos]
        exact hcuts.piece hpiece
      rw [scanFrom, hpast]
      cases hhead : Piece.atHead (c :: cs) with
      | mk piece length =>
        rw [hhead] at hcut
        cases piece with
        | skipped => exact ih _ hnext (hcut nofun)
        | unrecognised => exact ⟨before, c :: cs, length, htext, hcuts, hhead, rfl, rfl⟩
        | token token =>
          have hrest := ih _ hnext (hcut nofun)
          have hfirst : IsTokenAt text token (.after before) :=
            ⟨before, c :: cs, htext, hcuts, by rw [hhead], rfl⟩
          dsimp only
          cases hscan : scanFrom (.after (before ++ [c])) (length - 1) cs with
          | error error =>
            rw [hscan] at hrest
            exact hrest
          | ok tokens =>
            rw [hscan] at hrest
            exact List.forall_mem_cons.2 ⟨hfirst, hrest⟩

/-- **Every token that is scanned begins at its location**, and what stops scanning is text at its
location that is no token. -/
theorem Token.scan_places (text : String) :
    match scan text with
    | .ok tokens => ∀ next ∈ tokens, IsTokenAt text next.token next.location
    | .error error => error.IsUnrecognised text :=
  scanFrom_places [] rfl .refl

end Script
end ProductionRates
