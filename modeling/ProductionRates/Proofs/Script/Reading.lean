import ProductionRates.Script.Evaluation
import ProductionRates.Script.Parse

/-!
# Tokens that are read as data

`Reads` says that tokens are read as one expression wherever they stand, as long as no connective
comes next, and that the expression has a given value.  Tables are read field by field: each field
has a value, and a key unless it goes by position.

* `reads_nil`, `reads_boolean`, `reads_number`, `reads_text`, `Reads.negated` — values of one token
  or two;
* `ReadsField`, `Reads.positional`, `Reads.keyed` — the fields of a table;
* `reads_table` — a table from its fields;
* `Reads.assigned` — a script that assigns a value to one name.
-/

namespace ProductionRates
namespace Script

variable {fuel limit : Nat} {location : Location} {token : Token} {tokens : List Token}
  {rest more left : List PlacedToken}

/-- An expression ends before these tokens: the next one, if there is one, is no connective. -/
def Ends (rest : List PlacedToken) : Prop :=
  ∀ next ∈ rest.head?, Connective.ofToken? next.token = none

@[simp] theorem ends_nil : Ends [] := by simp [Ends]

@[simp] theorem ends_cons {next : PlacedToken} :
    Ends (next :: rest) ↔ Connective.ofToken? next.token = none := by simp [Ends]

/-! ## Steps of the readers -/

namespace Parser

variable {α β : Type}

theorem bind_done {p : Parser α} {f : α → Parser β} {a : α} (h : p rest = .done a left) :
    (p >>= f) rest = f a left := by
  rw [bind_run, h]

theorem eat_of_ne {mark : Symbol} (h : token ≠ .symbol mark) :
    eat mark (⟨token, location⟩ :: rest) = .done false (⟨token, location⟩ :: rest) := by
  rw [eat.eq_def]
  split
  · rename_i heq
    obtain ⟨⟨rfl, rfl⟩, rfl⟩ := by simpa using heq
    rw [if_neg fun hsame => h (congrArg Token.symbol hsame)]
  · rfl

theorem eat_self (mark : Symbol) :
    eat mark (⟨.symbol mark, location⟩ :: rest) = .done true rest := if_pos rfl

theorem expectSymbol_self (mark : Symbol) :
    expectSymbol mark (⟨.symbol mark, location⟩ :: rest) = .done location rest := if_pos rfl

theorem atNamedField_of_ne (h : ∀ text, token ≠ .name text) :
    atNamedField (⟨token, location⟩ :: rest) = .done false (⟨token, location⟩ :: rest) := by
  rw [atNamedField.eq_def]
  split
  · rename_i heq
    exact absurd (PlacedToken.mk.inj (List.cons.inj heq).1).1 (h _)
  · rfl

theorem connected_of_ends (h : Ends rest) (left : Expression) :
    connected (fuel + 1) limit left rest = .done left rest := by
  rw [connected]
  cases rest with
  | nil => rfl
  | cons next rest =>
    simp only [bind_run, peek, List.head?_cons, ends_cons.1 h]
    rfl

theorem expression_of_operand (h : UnaryOperator.ofToken? token = none) :
    expression (fuel + 1) limit (⟨token, location⟩ :: rest) =
      (operand fuel >>= connected fuel limit) (⟨token, location⟩ :: rest) := by
  rw [expression]
  simp only [bind_run, peek, List.head?_cons, h]

theorem operand_table : operand (fuel + 1) (⟨.symbol .leftBrace, location⟩ :: rest) =
    table fuel (⟨.symbol .leftBrace, location⟩ :: rest) := by
  rw [operand]
  rfl

theorem fields_close :
    fields (fuel + 1) (⟨.symbol .rightBrace, location⟩ :: rest) =
      .done [] (⟨.symbol .rightBrace, location⟩ :: rest) := by
  rw [fields]
  rfl

/-- A field before the closing brace is the last. -/
theorem fields_last {f : Field} {closing : Location} (h : token ≠ .symbol .rightBrace)
    (hfield : field fuel (⟨token, location⟩ :: rest) =
      .done f (⟨.symbol .rightBrace, closing⟩ :: left)) :
    fields (fuel + 1) (⟨token, location⟩ :: rest) =
      .done [f] (⟨.symbol .rightBrace, closing⟩ :: left) := by
  rw [fields, bind_done (rfl : peek _ = .done _ _)]
  simp only [List.head?_cons, Option.some.injEq, PlacedToken.mk.injEq, h, false_and, imp_self,
    implies_true]
  rw [bind_done hfield]
  rfl

/-- After a field and a separator the other fields are read. -/
theorem fields_more {f : Field} {fs : List Field} {separator : Symbol} {place : Location}
    (hseparator : separator = .comma ∨ separator = .semicolon) (h : token ≠ .symbol .rightBrace)
    (hfield : field fuel (⟨token, location⟩ :: rest) =
      .done f (⟨.symbol separator, place⟩ :: more))
    (hfields : fields fuel more = .done fs left) :
    fields (fuel + 1) (⟨token, location⟩ :: rest) = .done (f :: fs) left := by
  have hothers : (fields fuel >>= fun others => pure (f :: others)) more = .done (f :: fs) left := by
    rw [bind_done hfields]
    rfl
  rw [fields, bind_done (rfl : peek _ = .done _ _)]
  simp only [List.head?_cons, Option.some.injEq, PlacedToken.mk.injEq, h, false_and, imp_self,
    implies_true]
  rw [bind_done hfield]
  rcases hseparator with rfl | rfl
  · exact hothers
  · exact hothers

end Parser

/-! ## Expressions -/

/-- Tokens that begin a value and are not taken for the beginning of anything else in a table. -/
def BeginsValue (token : Token) : Prop :=
  token ≠ .symbol .leftBracket ∧ token ≠ .symbol .rightBrace ∧ ∀ text, token ≠ .name text

/-- Tokens are read as an expression of the given value, wherever it ends. -/
structure Reads (tokens : List Token) (value : Value) : Prop where
  /-- The first token is that of a value. -/
  begins : ∃ token others, tokens = token :: others ∧ BeginsValue token
  /-- The tokens are read as an expression. -/
  expression : ∀ placed : List PlacedToken, placed.map PlacedToken.token = tokens →
    ∀ rest, Ends rest → ∀ fuel limit, 8 * placed.length + 4 ≤ fuel →
      ∃ e, Parser.expression fuel limit (placed ++ rest) = .done e rest ∧
        ∀ source, e.evaluate source = .ok value

/-- One token that is an operand. -/
theorem reads_operand {value : Value} (e : Location → Expression) (hbegins : BeginsValue token)
    (hunary : UnaryOperator.ofToken? token = none)
    (hread : ∀ fuel location rest, Parser.operand (fuel + 1) (⟨token, location⟩ :: rest) =
      .done (e location) rest)
    (hvalue : ∀ source location, (e location).evaluate source = .ok value) :
    Reads [token] value where
  begins := ⟨token, [], rfl, hbegins⟩
  expression := by
    intro placed hplaced rest hrest fuel limit hfuel
    obtain ⟨⟨token, location⟩, rfl, rfl⟩ := List.map_eq_singleton_iff.1 hplaced
    obtain ⟨fuel, rfl⟩ : ∃ less, fuel = less + 2 := ⟨fuel - 2, by omega⟩
    refine ⟨e location, ?_, fun source => hvalue source location⟩
    rw [List.singleton_append, Parser.expression_of_operand hunary,
      Parser.bind_done (hread fuel location rest), Parser.connected_of_ends hrest]

theorem reads_nil : Reads [.keyword .nilWord] .nil := by
  refine reads_operand (fun location => .nil location) ?_ rfl (fun fuel location rest => ?_)
    fun _ _ => rfl
  · simp [BeginsValue]
  · rw [Parser.operand]
    rfl

theorem reads_boolean (b : Bool) :
    Reads [.keyword (if b then .trueWord else .falseWord)] (.boolean b) := by
  refine reads_operand (fun location => .boolean location b) ?_ ?_ (fun fuel location rest => ?_)
    fun _ _ => rfl
  · simp [BeginsValue]
  · cases b <;> rfl
  · rw [Parser.operand]
    cases b <;> rfl

theorem reads_number (x : Float) : Reads [.number x] (.number x) := by
  refine reads_operand (fun location => .number location x) ?_ rfl (fun fuel location rest => ?_)
    fun _ _ => rfl
  · simp [BeginsValue]
  · rw [Parser.operand]
    rfl

/-- A string in double quotes has what is between them as its value. -/
theorem reads_text (cs : List Char) :
    Reads [.quoted (String.ofList ('\x22' :: (cs ++ ['\x22'])))] (.text (String.ofList cs)) := by
  refine reads_operand
    (fun location => .string location (String.ofList ('\x22' :: (cs ++ ['\x22'])))) ?_ rfl
    (fun fuel location rest => ?_) fun source location => ?_
  · simp [BeginsValue]
  · rw [Parser.operand]
    rfl
  · simp [Expression.evaluate, contentsOf]

/-- **A minus before tokens that are read as a number negates it.** -/
theorem Reads.negated {x : Float} (h : Reads tokens (.number x)) :
    Reads (.symbol .minus :: tokens) (.number (-x)) where
  begins := ⟨_, _, rfl, by simp [BeginsValue]⟩
  expression := by
    intro placed hplaced rest hrest fuel limit hfuel
    obtain ⟨⟨token, location⟩, placed, rfl, rfl, hnumber⟩ := List.map_eq_cons_iff.1 hplaced
    obtain ⟨fuel, rfl⟩ : ∃ less, fuel = less + 2 := ⟨fuel - 2, by omega⟩
    rw [List.length_cons] at hfuel
    obtain ⟨e, hread, hvalue⟩ := h.expression placed hnumber rest hrest (fuel + 1)
      Connective.unaryPower (by omega)
    refine ⟨.unary location .negate e, ?_, fun source => ?_⟩
    · rw [Parser.expression]
      show (Parser.expression (fuel + 1) Connective.unaryPower >>= fun argument =>
        Parser.connected (fuel + 1) limit (.unary location .negate argument)) (placed ++ rest) = _
      rw [Parser.bind_done hread, Parser.connected_of_ends hrest]
    · rw [Expression.evaluate, if_pos (by rfl), hvalue]
      rfl

/-! ## Fields -/

/-- Tokens are read as a field of the given key and value. -/
structure ReadsField (tokens : List Token) (evaluated : EvaluatedField) : Prop where
  /-- The first token does not close the table. -/
  begins : ∃ token others, tokens = token :: others ∧ token ≠ .symbol .rightBrace
  /-- The tokens are read as a field. -/
  field : ∀ placed : List PlacedToken, placed.map PlacedToken.token = tokens →
    ∀ rest, Ends rest → ∀ fuel, 8 * placed.length + 5 ≤ fuel →
      ∃ f, Parser.field fuel (placed ++ rest) = .done f rest ∧
        ∀ source location, f.evaluate source location = .ok evaluated

/-- A value alone is a field that goes by position. -/
theorem Reads.positional {value : Value} (h : Reads tokens value) :
    ReadsField tokens (none, value) where
  begins := by
    obtain ⟨token, others, htokens, hbegins⟩ := h.begins
    exact ⟨token, others, htokens, hbegins.2.1⟩
  field := by
    intro placed hplaced rest hrest fuel hfuel
    obtain ⟨fuel, rfl⟩ : ∃ less, fuel = less + 1 := ⟨fuel - 1, by omega⟩
    obtain ⟨e, hread, hvalue⟩ := h.expression placed hplaced rest hrest fuel 0 (by omega)
    obtain ⟨token, others, rfl, hbracket, -, hname⟩ := h.begins
    obtain ⟨⟨token, location⟩, placed, rfl, rfl, -⟩ := List.map_eq_cons_iff.1 hplaced
    refine ⟨.positional e, ?_, fun source location => ?_⟩
    · rw [Parser.field, List.cons_append, Parser.bind_done (Parser.eat_of_ne hbracket),
        if_neg (by decide), Parser.bind_done (Parser.atNamedField_of_ne hname),
        if_neg (by decide)]
      rw [List.cons_append] at hread
      rw [Parser.bind_done hread]
      rfl
    · rw [Field.evaluate, hvalue]
      rfl

/-- A value after a key in brackets. -/
theorem Reads.keyed {keyTokens : List Token} {keyValue value : Value} {key : Key}
    (h : Reads tokens value) (hkey : Reads keyTokens keyValue) (hok : keyValue.key? = .ok key) :
    ReadsField (.symbol .leftBracket ::
      (keyTokens ++ .symbol .rightBracket :: .symbol .assign :: tokens)) (some key, value) where
  begins := ⟨_, _, rfl, by simp⟩
  field := by
    intro placed hplaced rest hrest fuel hfuel
    obtain ⟨⟨token, opening⟩, inner, rfl, rfl, hinner⟩ := List.map_eq_cons_iff.1 hplaced
    obtain ⟨before, after, rfl, hbefore, hafter⟩ := List.map_eq_append_iff.1 hinner
    obtain ⟨⟨token, closing⟩, last, rfl, rfl, hlast⟩ := List.map_eq_cons_iff.1 hafter
    obtain ⟨⟨token, assign⟩, values, rfl, rfl, hvalues⟩ := List.map_eq_cons_iff.1 hlast
    obtain ⟨fuel, rfl⟩ : ∃ less, fuel = less + 1 := ⟨fuel - 1, by omega⟩
    simp only [List.length_cons, List.length_append] at hfuel
    obtain ⟨keyed, hreadKey, hkeyed⟩ := hkey.expression before hbefore
      (⟨.symbol .rightBracket, closing⟩ :: ⟨.symbol .assign, assign⟩ :: (values ++ rest))
      (ends_cons.2 rfl) fuel 0 (by omega)
    obtain ⟨e, hread, hvalue⟩ := h.expression values hvalues rest hrest fuel 0 (by omega)
    refine ⟨.keyed keyed e, ?_, fun source location => ?_⟩
    · rw [Parser.field, List.cons_append, Parser.bind_done (Parser.eat_self _), if_pos rfl,
        List.append_assoc, List.cons_append, List.cons_append, Parser.bind_done hreadKey,
        Parser.bind_done (Parser.expectSymbol_self _),
        Parser.bind_done (Parser.expectSymbol_self _), Parser.bind_done hread]
      rfl
    · simp only [Field.evaluate, hkeyed, bind, Except.bind, hok, hvalue]
      rfl

/-! ## Tables -/

/-- Tokens with commas between them. -/
def separated (parts : List (List Token)) : List Token := [.symbol .comma].intercalate parts

variable {parts : List (List Token × EvaluatedField)}

/-- **Fields are read one after the other** up to the closing brace. -/
theorem fields_of_readsField (h : ∀ part ∈ parts, ReadsField part.1 part.2)
    {placed : List PlacedToken}
    (hplaced : placed.map PlacedToken.token = separated (parts.map Prod.fst))
    (hfuel : 8 * placed.length + 6 ≤ fuel) (location : Location) (rest : List PlacedToken) :
    ∃ fs, Parser.fields fuel (placed ++ ⟨.symbol .rightBrace, location⟩ :: rest) =
        .done fs (⟨.symbol .rightBrace, location⟩ :: rest) ∧
      ∀ source location, evaluateFields source location fs = .ok (parts.map Prod.snd) := by
  induction parts generalizing placed fuel with
  | nil =>
    obtain rfl : placed = [] := List.map_eq_nil_iff.1 hplaced
    obtain ⟨fuel, rfl⟩ : ∃ less, fuel = less + 1 := ⟨fuel - 1, by omega⟩
    exact ⟨[], Parser.fields_close, fun _ _ => rfl⟩
  | cons part parts ih =>
    obtain ⟨fuel, rfl⟩ : ∃ less, fuel = less + 1 := ⟨fuel - 1, by omega⟩
    have hpart := h part (List.mem_cons_self ..)
    obtain ⟨token, others, hfirst, hbrace⟩ := hpart.begins
    cases parts with
    | nil =>
      have honly : placed.map PlacedToken.token = part.1 :=
        hplaced.trans List.intercalate_singleton
      obtain ⟨f, hread, hvalue⟩ := hpart.field placed honly
        (⟨.symbol .rightBrace, location⟩ :: rest) (ends_cons.2 rfl) fuel (by omega)
      rw [hfirst] at honly
      obtain ⟨⟨token, opening⟩, inner, rfl, rfl, -⟩ := List.map_eq_cons_iff.1 honly
      refine ⟨[f], Parser.fields_last hbrace hread, fun source location => ?_⟩
      rw [evaluateFields, hvalue]
      rfl
    | cons next parts =>
      have hsplit : placed.map PlacedToken.token =
          part.1 ++ ([.symbol .comma] ++ separated ((next :: parts).map Prod.fst)) := by
        rw [hplaced, ← List.append_assoc]
        exact List.intercalate_cons_cons
      obtain ⟨before, after, rfl, hbefore, hafter⟩ := List.map_eq_append_iff.1 hsplit
      obtain ⟨⟨token, comma⟩, others, rfl, rfl, hothers⟩ := List.map_eq_cons_iff.1 hafter
      simp only [List.length_append, List.length_cons] at hfuel
      obtain ⟨f, hread, hvalue⟩ := hpart.field before hbefore
        (⟨.symbol .comma, comma⟩ :: (others ++ ⟨.symbol .rightBrace, location⟩ :: rest))
        (ends_cons.2 rfl) fuel (by omega)
      have hparts := fun other hother => h other (List.mem_cons_of_mem _ hother)
      obtain ⟨fs, hreads, hvalues⟩ := ih hparts hothers (show _ ≤ fuel by omega)
      rw [hfirst] at hbefore
      obtain ⟨⟨token, opening⟩, inner, rfl, rfl, -⟩ := List.map_eq_cons_iff.1 hbefore
      refine ⟨f :: fs, ?_, fun source location => ?_⟩
      · rw [List.append_assoc, List.cons_append]
        exact Parser.fields_more (.inl rfl) hbrace hread hreads
      · rw [evaluateFields, hvalue, hvalues]
        rfl

/-- **A table is read as the value of its fields.** -/
theorem reads_table (h : ∀ part ∈ parts, ReadsField part.1 part.2) :
    Reads (.symbol .leftBrace :: (separated (parts.map Prod.fst) ++ [.symbol .rightBrace]))
      (Value.ofFields (parts.map Prod.snd)) where
  begins := ⟨_, _, rfl, by simp [BeginsValue]⟩
  expression := by
    intro placed hplaced rest hrest fuel limit hfuel
    obtain ⟨⟨token, opening⟩, inner, rfl, rfl, hinner⟩ := List.map_eq_cons_iff.1 hplaced
    obtain ⟨between, after, rfl, hbetween, hafter⟩ := List.map_eq_append_iff.1 hinner
    obtain ⟨⟨token, closing⟩, rfl, rfl⟩ := List.map_eq_singleton_iff.1 hafter
    simp only [List.length_cons, List.length_append, List.length_nil] at hfuel
    obtain ⟨fuel, rfl⟩ : ∃ less, fuel = less + 3 := ⟨fuel - 3, by omega⟩
    obtain ⟨fs, hread, hvalues⟩ := fields_of_readsField h hbetween (show _ ≤ fuel by omega)
      closing rest
    refine ⟨.table opening fs, ?_, fun source => ?_⟩
    · have htable : Parser.operand (fuel + 2)
          (⟨.symbol .leftBrace, opening⟩ :: (between ++ ⟨.symbol .rightBrace, closing⟩ :: rest)) =
            .done (.table opening fs) rest := by
        rw [Parser.operand_table, Parser.table, Parser.bind_done (Parser.expectSymbol_self _),
          Parser.bind_done hread, Parser.bind_done (Parser.expectSymbol_self _)]
        rfl
      rw [List.cons_append, List.append_assoc, List.singleton_append,
        Parser.expression_of_operand rfl, Parser.bind_done htable, Parser.connected_of_ends hrest]
    · rw [Expression.evaluate, hvalues]
      rfl

/-! ## Scripts -/

namespace Parser

/-- An expression at the end of the tokens is the only one of a list. -/
theorem expressions_last {e : Expression} (h : expression (fuel + 1) 0 rest = .done e []) :
    expressions (fuel + 2) rest = .done [e] [] := by
  have hmore : moreExpressions (fuel + 1) [] = .done [] [] := by
    rw [moreExpressions]
    rfl
  rw [expressions, bind_done h, bind_done hmore]
  rfl

/-- A name before an equals sign has no suffixes. -/
theorem suffixed_name {name : String} {assign : Location} :
    suffixed (fuel + 2) (⟨.name name, location⟩ :: ⟨.symbol .assign, assign⟩ :: rest) =
      .done (.identifier location name) (⟨.symbol .assign, assign⟩ :: rest) := by
  have hprimary : primary (fuel + 1)
      (⟨.name name, location⟩ :: ⟨.symbol .assign, assign⟩ :: rest) =
        .done (.identifier location name) (⟨.symbol .assign, assign⟩ :: rest) := by
    rw [primary]
    rfl
  rw [suffixed, bind_done hprimary, suffixes]
  rfl

/-- A name, an equals sign and an expression are an assignment. -/
theorem statement_assignment {name : String} {assign : Location} {e : Expression}
    (h : expression (fuel + 1) 0 rest = .done e []) :
    statement (fuel + 4) (⟨.name name, location⟩ :: ⟨.symbol .assign, assign⟩ :: rest) =
      .done (.assignment location [.identifier location name] [e]) [] := by
  have htargets : moreTargets (fuel + 2) (⟨.symbol .assign, assign⟩ :: rest) =
      .done [] (⟨.symbol .assign, assign⟩ :: rest) := by
    rw [moreTargets]
    rfl
  rw [statement]
  show assignmentOrCall (fuel + 3) location
    (⟨.name name, location⟩ :: ⟨.symbol .assign, assign⟩ :: rest) = _
  rw [assignmentOrCall, bind_done suffixed_name]
  show (moreTargets (fuel + 2) >>= fun others => expectSymbol .assign >>= fun _ =>
    expressions (fuel + 2) >>= fun values =>
      pure (Statement.assignment location (.identifier location name :: others) values))
    (⟨.symbol .assign, assign⟩ :: rest) = _
  rw [bind_done htargets, bind_done (expectSymbol_self _), bind_done (expressions_last h)]
  rfl

/-- A script of one assignment. -/
theorem chunk_assignment {name : String} {assign : Location} {e : Expression}
    (h : expression (fuel + 1) 0 rest = .done e []) :
    chunk (fuel + 5) (⟨.name name, location⟩ :: ⟨.symbol .assign, assign⟩ :: rest) =
      .done [.assignment location [.identifier location name] [e]] [] := by
  have hend : block (fuel + 4) [] = .done [] [] := by
    rw [block]
    rfl
  have hblock : block (fuel + 5) (⟨.name name, location⟩ :: ⟨.symbol .assign, assign⟩ :: rest) =
      .done [.assignment location [.identifier location name] [e]] [] := by
    rw [block]
    show (statement (fuel + 4) >>= fun statement => block (fuel + 4) >>= fun statements =>
      pure (statement :: statements))
      (⟨.name name, location⟩ :: ⟨.symbol .assign, assign⟩ :: rest) = _
    rw [bind_done (statement_assignment h), bind_done hend]
    rfl
  rw [chunk, bind_done hblock]
  rfl

end Parser

theorem Chunk.ofTokens_of_done {placed : List PlacedToken} {chunk : Chunk}
    (h : Parser.chunk (enoughFuel placed) placed = .done chunk []) :
    Chunk.ofTokens placed = .ok chunk := by
  rw [Chunk.ofTokens]
  split
  · rename_i heq
    rw [h] at heq
    cases heq
    rfl
  · rename_i heq
    rw [h] at heq
    cases heq
  · rename_i heq
    rw [h] at heq
    cases heq

/-- **A script that assigns a value to one name** comes to the map of that name to the value. -/
theorem Reads.assigned {value : Value} (h : Reads tokens value) (name : String)
    {placed : List PlacedToken}
    (hplaced : placed.map PlacedToken.token = .name name :: .symbol .assign :: tokens) :
    ∃ chunk, Chunk.ofTokens placed = .ok chunk ∧
      ∀ source, chunk.evaluate source = .ok (.map [(.text name, value)]) := by
  obtain ⟨⟨token, location⟩, inner, rfl, rfl, hinner⟩ := List.map_eq_cons_iff.1 hplaced
  obtain ⟨⟨token, assign⟩, values, rfl, rfl, hvalues⟩ := List.map_eq_cons_iff.1 hinner
  obtain ⟨e, hread, hvalue⟩ := h.expression values hvalues [] ends_nil
    (8 * values.length + 20) 0 (by omega)
  rw [List.append_nil] at hread
  refine ⟨[.assignment location [.identifier location name] [e]],
    Chunk.ofTokens_of_done ?_, fun source => ?_⟩
  · have hfuel : enoughFuel (⟨.name name, location⟩ :: ⟨.symbol .assign, assign⟩ :: values) =
        8 * values.length + 19 + 5 := by
      simp only [enoughFuel, List.length_cons]
      omega
    rw [hfuel]
    exact Parser.chunk_assignment hread
  · rw [Chunk.evaluate, Chunk.run, Statement.assignments, List.mapM_cons, List.mapM_cons, hvalue]
    rfl

end Script
end ProductionRates
