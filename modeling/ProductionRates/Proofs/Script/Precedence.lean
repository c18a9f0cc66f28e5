import ProductionRates.Proofs.Script.Phrases

/-!
# Precedence

The reader of expressions compares how tightly operators hold on to their operands.  What it builds
is said without numbers by a grammar with one level for each group of operators, the loosest first:
a formula has exactly one tree in the grammar, and that is what is read.

* `Formula` — operands after unary operators, with connectives between them;
* `Level`, `Connective.level` — the levels of the grammar and those of connectives;
* `Derives` — the trees of the grammar;
* `Derives.exists_append`, `Formula.exists_derives` — every formula has a tree, as a tree can be
  continued with a connective and an operand;
* `Derives.yields` — a tree of any level is read, if the reader may take the connectives of the
  level and what follows is looser;
* `expression_of_formula` — every formula is read as its only tree.
-/

namespace ProductionRates
namespace Script

/-! ## Formulas -/

/-- Tokens that are read as a literal, a table or a suffixed expression. -/
structure Operand where
  /-- The tokens. -/
  tokens : List PlacedToken
  /-- What they are read as. -/
  value : Expression
  /-- They are read so, and none is left. -/
  reads : ∃ fuel, Parser.operand fuel tokens = .done value []

/-- What formulas consist of. -/
inductive Element where
  /-- An operator before an operand. -/
  | unary (operator : UnaryOperator) (location : Location)
  /-- An operand. -/
  | operand (operand : Operand)
  /-- An operator between two operands. -/
  | connective (connective : Connective) (location : Location)

/-- The tokens of an element. -/
def Element.tokens : Element → List PlacedToken
  | .unary operator location => [⟨operator.token, location⟩]
  | .operand base => base.tokens
  | .connective between location => [⟨between.token, location⟩]

/-- The tokens of elements, one after the other. -/
def tokensOf (elements : List Element) : List PlacedToken := elements.flatMap Element.tokens

@[simp] theorem tokensOf_nil : tokensOf [] = [] := rfl

theorem tokensOf_unary (operator : UnaryOperator) (location : Location) (elements : List Element) :
    tokensOf (.unary operator location :: elements) =
      ⟨operator.token, location⟩ :: tokensOf elements := rfl

theorem tokensOf_operand (base : Operand) (elements : List Element) :
    tokensOf (.operand base :: elements) = base.tokens ++ tokensOf elements := rfl

theorem tokensOf_connective (connective : Connective) (location : Location)
    (elements : List Element) : tokensOf (.connective connective location :: elements) =
      ⟨connective.token, location⟩ :: tokensOf elements := rfl

theorem tokensOf_append (elements others : List Element) :
    tokensOf (elements ++ others) = tokensOf elements ++ tokensOf others :=
  List.flatMap_append

/-- An operand and the operators before it. -/
structure Prefixed where
  /-- The operators, each with its place. -/
  operators : List (UnaryOperator × Location)
  /-- The operand. -/
  operand : Operand

/-- The operators and the operand in order. -/
def Prefixed.elements (operand : Prefixed) : List Element :=
  operand.operators.map (fun operator => .unary operator.1 operator.2) ++
    [.operand operand.operand]

/-- Operands after unary operators, with connectives between them. -/
structure Formula where
  /-- The first operand. -/
  first : Prefixed
  /-- The connectives, each with its place and the operand after it. -/
  others : List ((Connective × Location) × Prefixed)

namespace Formula

/-- The elements of connectives and the operands after them. -/
def further (others : List ((Connective × Location) × Prefixed)) : List Element :=
  others.flatMap fun next => .connective next.1.1 next.1.2 :: next.2.elements

/-- The elements in order. -/
def elements (formula : Formula) : List Element :=
  formula.first.elements ++ further formula.others

/-- The tokens in order. -/
def tokens (formula : Formula) : List PlacedToken := tokensOf formula.elements

end Formula

/-! ## The grammar -/

/-- The levels of the grammar, the loosest first. -/
inductive Level where
  | or
  | and
  | comparison
  | bitOr
  | bitXor
  | bitAnd
  | shift
  | concat
  | additive
  | multiplicative
  | unary
  | power

namespace Level

/-- The next tighter level. -/
def tighter? : Level → Option Level
  | .or => some .and
  | .and => some .comparison
  | .comparison => some .bitOr
  | .bitOr => some .bitXor
  | .bitXor => some .bitAnd
  | .bitAnd => some .shift
  | .shift => some .concat
  | .concat => some .additive
  | .additive => some .multiplicative
  | .multiplicative => some .unary
  | .unary => some .power
  | .power => none

/-- Whether the connectives of a level group to the left. -/
def groupsLeft : Level → Bool
  | .concat | .unary | .power => false
  | _ => true

end Level

/-- The level of a connective. -/
def Connective.level : Connective → Level
  | .logical .or => .or
  | .logical .and => .and
  | .binary .lt | .binary .gt | .binary .le | .binary .ge | .binary .ne | .binary .eq => .comparison
  | .binary .bitOr => .bitOr
  | .binary .bitXor => .bitXor
  | .binary .bitAnd => .bitAnd
  | .binary .shiftLeft | .binary .shiftRight => .shift
  | .binary .concat => .concat
  | .binary .add | .binary .sub => .additive
  | .binary .mul | .binary .div | .binary .floorDiv | .binary .mod => .multiplicative
  | .binary .pow => .power

/-- The elements have the tree at the level. -/
inductive Derives : Level → List Element → Expression → Prop where
  /-- What is of the next tighter level is of a level too. -/
  | tighter {level next : Level} {elements : List Element} {e : Expression}
      (hnext : level.tighter? = some next) (h : Derives next elements e) :
      Derives level elements e
  /-- A connective that groups to the left. -/
  | left {level next : Level} {elements others : List Element} {first second : Expression}
      (connective : Connective) (location : Location) (hlevel : connective.level = level)
      (hleft : level.groupsLeft = true) (hnext : level.tighter? = some next)
      (hfirst : Derives level elements first) (hsecond : Derives next others second) :
      Derives level (elements ++ .connective connective location :: others)
        (connective.node location first second)
  /-- A concatenation, which groups to the right. -/
  | concat {elements others : List Element} {first second : Expression} (location : Location)
      (hfirst : Derives .additive elements first) (hsecond : Derives .concat others second) :
      Derives .concat (elements ++ .connective (.binary .concat) location :: others)
        (.binary location .concat first second)
  /-- An operator before an operand. -/
  | unary {elements : List Element} {argument : Expression} (operator : UnaryOperator)
      (location : Location) (h : Derives .unary elements argument) :
      Derives .unary (.unary operator location :: elements) (.unary location operator argument)
  /-- A power of an operand, which may have an operator before its exponent. -/
  | power {others : List Element} {second : Expression} (base : Operand) (location : Location)
      (h : Derives .unary others second) :
      Derives .power (.operand base :: .connective (.binary .pow) location :: others)
        (.binary location .pow base.value second)
  /-- An operand. -/
  | operand (operand : Operand) : Derives .power [.operand operand] operand.value

/-! ## Every formula has a tree -/

namespace Level

/-- The number of looser levels. -/
def depth : Level → Nat
  | .or => 0
  | .and => 1
  | .comparison => 2
  | .bitOr => 3
  | .bitXor => 4
  | .bitAnd => 5
  | .shift => 6
  | .concat => 7
  | .additive => 8
  | .multiplicative => 9
  | .unary => 10
  | .power => 11

variable {level next other : Level}

theorem depth_of_tighter? (h : level.tighter? = some next) : next.depth = level.depth + 1 := by
  cases level <;> cases h <;> rfl

theorem exists_tighter (h : level.depth < other.depth) : ∃ next, level.tighter? = some next := by
  cases level with
  | power => exact absurd h (by cases other <;> decide)
  | _ => exact ⟨_, rfl⟩

theorem eq_of_depth_eq (h : level.depth = other.depth) : level = other := by
  cases level <;> cases other <;> first | rfl | cases h

end Level

variable {level next : Level} {elements others : List Element} {e first second : Expression}
  {connective : Connective}

theorem Connective.eq_concat (h : connective.level = .concat) : connective = .binary .concat := by
  cases connective with
  | binary operator => cases operator <;> first | rfl | cases h
  | logical operator => cases operator <;> cases h

theorem Connective.eq_pow (h : connective.level = .power) : connective = .binary .pow := by
  cases connective with
  | binary operator => cases operator <;> first | rfl | cases h
  | logical operator => cases operator <;> cases h

theorem Connective.level_ne_unary (connective : Connective) : connective.level ≠ .unary := by
  cases connective with
  | binary operator => cases operator <;> simp [level]
  | logical operator => cases operator <;> simp [level]

namespace Derives

/-- What is of a level is of all looser ones. -/
theorem loosen (h : Derives next elements e) (hle : level.depth ≤ next.depth) :
    Derives level elements e := by
  induction hbetween : next.depth - level.depth generalizing level with
  | zero =>
    obtain rfl : level = next := Level.eq_of_depth_eq (by omega)
    exact h
  | succ between ih =>
    obtain ⟨closer, hcloser⟩ := Level.exists_tighter (show level.depth < next.depth by omega)
    have hdepth := Level.depth_of_tighter? hcloser
    exact .tighter hcloser (ih (by omega) (by omega))

/-- The operand after a connective that groups to the left. -/
theorem loosen_next (h : Derives .unary elements e) (hleft : level.groupsLeft = true)
    (hnext : level.tighter? = some next) : Derives next elements e := by
  refine h.loosen ?_
  cases level <;> cases hnext <;> first | decide | cases hleft

/-- **A tree can be continued with a connective of its level or a tighter one and an operand.**  The
connective goes to where its own level is on the right edge of the tree. -/
theorem exists_append (connective : Connective) (location : Location)
    (h : Derives level elements e)
    (hlevel : level.depth ≤ connective.level.depth) (hothers : Derives .unary others second) :
    ∃ last, Derives level (elements ++ .connective connective location :: others) last := by
  induction h with
  | @tighter level next elements e hnext h ih =>
    rcases Nat.lt_or_eq_of_le hlevel with hlt | heq
    · obtain ⟨last, hlast⟩ := ih (Level.depth_of_tighter? hnext ▸ hlt)
      exact ⟨last, .tighter hnext hlast⟩
    · obtain rfl := Level.eq_of_depth_eq heq
      cases hleft : connective.level.groupsLeft with
      | true =>
        exact ⟨_, .left connective location rfl hleft hnext (.tighter hnext h)
          (hothers.loosen_next hleft hnext)⟩
      | false =>
        -- only concatenations do not group to the left and have a tighter level
        have hconcat : connective.level = .concat := by
          cases hown : connective.level with
          | concat => rfl
          | unary => exact absurd hown connective.level_ne_unary
          | power => rw [hown] at hnext; cases hnext
          | _ => rw [hown] at hleft; cases hleft
        rw [hconcat] at hnext ⊢
        cases hnext
        obtain rfl := Connective.eq_concat hconcat
        exact ⟨_, .concat location h (hothers.loosen (by decide))⟩
  | left own place hown hleft hnext hfirst hsecond _ ih =>
    rcases Nat.lt_or_eq_of_le hlevel with hlt | heq
    · obtain ⟨last, hlast⟩ := ih (Level.depth_of_tighter? hnext ▸ hlt)
      rw [List.append_assoc, List.cons_append]
      exact ⟨_, .left own place hown hleft hnext hfirst hlast⟩
    · have hsame := Level.eq_of_depth_eq heq
      exact ⟨_, .left connective location hsame.symm hleft hnext
        (.left own place hown hleft hnext hfirst hsecond) (hothers.loosen_next hleft hnext)⟩
  | concat place hfirst hsecond _ ih =>
    obtain ⟨last, hlast⟩ := ih hlevel
    rw [List.append_assoc, List.cons_append]
    exact ⟨_, .concat place hfirst hlast⟩
  | unary operator place h ih =>
    obtain ⟨last, hlast⟩ := ih hlevel
    exact ⟨_, .unary operator place hlast⟩
  | power base place h ih =>
    obtain ⟨last, hlast⟩ := ih (Nat.le_trans (by decide) hlevel)
    exact ⟨_, .power base place hlast⟩
  | operand base =>
    have hpower : connective.level = .power := by
      cases hown : connective.level <;> rw [hown] at hlevel <;>
        first | rfl | exact absurd hlevel (by decide)
    obtain rfl := Connective.eq_pow hpower
    exact ⟨_, .power base location hothers⟩

end Derives

/-- An operand after unary operators has a tree. -/
theorem Prefixed.exists_derives (operand : Prefixed) :
    ∃ e, Derives .unary operand.elements e := by
  obtain ⟨operators, base⟩ := operand
  induction operators with
  | nil => exact ⟨_, .tighter rfl (.operand base)⟩
  | cons operator operators ih =>
    obtain ⟨e, he⟩ := ih
    exact ⟨_, .unary operator.1 operator.2 he⟩

/-- **Every formula has a tree.** -/
theorem Formula.exists_derives (formula : Formula) : ∃ e, Derives .or formula.elements e := by
  have hfurther (others : List ((Connective × Location) × Prefixed)) {elements : List Element}
      {e : Expression} (h : Derives .or elements e) :
      ∃ last, Derives .or (elements ++ further others) last := by
    induction others generalizing elements e with
    | nil => exact ⟨e, by simpa [further] using h⟩
    | cons next others ih =>
      obtain ⟨operand, hoperand⟩ := next.2.exists_derives
      obtain ⟨more, hmore⟩ := h.exists_append next.1.1 next.1.2 (Nat.zero_le _) hoperand
      obtain ⟨last, hlast⟩ := ih hmore
      exact ⟨last, by simpa [further] using hlast⟩
  obtain ⟨e, he⟩ := formula.first.exists_derives
  exact hfurther formula.others (he.loosen (Nat.zero_le _))

/-! ## Reading -/

/-- Tokens at which an expression stops if only connectives are taken that hold on to their left
more tightly than `limit`. -/
def StopsOver (limit : Nat) (token : Token) : Prop :=
  StopsSuffixes token ∧
    ∀ connective, Connective.ofToken? token = some connective → connective.leftPower ≤ limit

theorem StopsOver.mono {limit other : Nat} {token : Token} (h : StopsOver limit token)
    (hle : limit ≤ other) : StopsOver other token :=
  ⟨h.1, fun connective hconnective => Nat.le_trans (h.2 connective hconnective) hle⟩

theorem StopsExpression.stopsOver {token : Token} (h : StopsExpression token) (limit : Nat) :
    StopsOver limit token := by
  refine ⟨h.1, fun connective hconnective => ?_⟩
  rw [h.2] at hconnective
  cases hconnective

theorem stopsOver_token {limit : Nat} (h : connective.leftPower ≤ limit) :
    StopsOver limit connective.token := by
  refine ⟨connective.beginsSuffix_token, fun other hother => ?_⟩
  rw [connective.ofToken?_token] at hother
  cases hother
  exact h

namespace Parser

variable {α : Type} {p : Nat → Parser α} {value : α} {tokens rest left : List PlacedToken}
  {limit : Nat} {result : Expression}

/-- A reader comes to one value. -/
theorem Yields.unique {other : α} {more : List PlacedToken} (h : Yields p tokens value rest)
    (hother : Yields p tokens other more) : value = other := by
  obtain ⟨bound, hrun⟩ := h
  obtain ⟨enough, hmore⟩ := hother
  have hsame := (hrun (max bound enough) (by omega)).symm.trans (hmore _ (by omega))
  cases hsame
  rfl

/-- What is made of an expression with any fuel is made with that of its tokens. -/
theorem Yields.expression_eq {fuel : Nat}
    (h : Yields (fun fuel => expression fuel limit) tokens e rest)
    (hfuel : 8 * tokens.length + 4 ≤ fuel) : expression fuel limit tokens = .done e rest := by
  obtain ⟨bound, hrun⟩ := h
  have hcarry := (Continued.all fuel (max bound fuel) (by omega)).expression limit tokens
  have hmore : expression (max bound fuel) limit (tokens ++ []) = .done e rest := by
    rw [List.append_nil]
    exact hrun _ (by omega)
  have hprogress : LeavesFewer (expression fuel limit) tokens tokens.length :=
    (Progress.all fuel).expression limit tokens hfuel
  cases hown : expression fuel limit tokens with
  | done other left =>
    rw [hcarry.done [] hown (.inr before_nil), List.append_nil] at hmore
    exact hmore
  | failed error =>
    rw [hcarry.failed [] hown (.inr rfl)] at hmore
    cases hmore
  | exhausted => simp [LeavesFewer, hown] at hprogress

/-- An operand and what goes on from it. -/
theorem yields_operand (operand : Operand) (hrest : Before StopsSuffixes rest)
    (h : Yields (fun fuel => connected fuel limit operand.value) rest result left) :
    Yields (fun fuel => expression fuel limit) (operand.tokens ++ rest) result left := by
  obtain ⟨fuel, hrun⟩ := operand.reads
  obtain ⟨⟨token, location⟩, tokens, htokens, hbegins⟩ := operand_begins hrun
  have hread : Yields Parser.operand (operand.tokens ++ rest) operand.value rest :=
    ⟨fuel, fun more hmore =>
      ((Continued.all fuel more hmore).operand operand.tokens).done rest hrun (.inr hrest)⟩
  obtain ⟨bound, hgo⟩ := hread.bind (f := fun fuel => connected fuel limit) h
  refine yields_succ_iff.1 ⟨bound, fun fuel hfuel => ?_⟩
  have hgo := hgo fuel hfuel
  rw [htokens, List.cons_append] at hgo ⊢
  exact (expression_of_operand (ofToken?_of_beginsOperand hbegins)).trans hgo

/-- An operator before an expression, and what goes on from it. -/
theorem yields_unary {argument : Expression} (operator : UnaryOperator) (location : Location)
    (h : Yields (fun fuel => expression fuel Connective.unaryPower) tokens argument rest)
    (hgo : Yields (fun fuel => connected fuel limit (.unary location operator argument)) rest result
      left) :
    Yields (fun fuel => expression fuel limit) (⟨operator.token, location⟩ :: tokens) result
      left := by
  have hoperator : UnaryOperator.ofToken? operator.token = some operator :=
    UnaryOperator.ofToken?_eq_some_iff.2 rfl
  obtain ⟨bound, hrun⟩ := h.bind
    (f := fun fuel argument => connected fuel limit (.unary location operator argument)) hgo
  refine yields_succ_iff.1 ⟨bound, fun fuel hfuel => ?_⟩
  simp only [expression, bind_run, peek, List.head?_cons, hoperator]
  exact hrun fuel hfuel

/-- A connective that is taken, and what goes on from it. -/
theorem yields_connective (connective : Connective) (location : Location)
    (hlimit : limit < connective.leftPower)
    (h : Yields (fun fuel => expression fuel connective.rightPower) tokens second rest)
    (hgo : Yields (fun fuel => connected fuel limit (connective.node location first second)) rest
      result left) :
    Yields (fun fuel => connected fuel limit first) (⟨connective.token, location⟩ :: tokens) result
      left := by
  obtain ⟨bound, hrun⟩ := h.bind
    (f := fun fuel second => connected fuel limit (connective.node location first second)) hgo
  refine yields_succ_iff.1 ⟨bound, fun fuel hfuel => ?_⟩
  simp only [connected, bind_run, peek, List.head?_cons, connective.ofToken?_token,
    if_neg (Nat.not_le.2 hlimit)]
  exact hrun fuel hfuel

/-- Nothing goes on from an expression. -/
theorem yields_stop (hrest : Before (StopsOver limit) rest) :
    Yields (fun fuel => connected fuel limit e) rest e rest := by
  refine yields_of_succ fun fuel => ?_
  cases rest with
  | nil => rfl
  | cons next rest =>
    have hstops : StopsOver limit next.token := before_cons.1 hrest
    simp only [connected, bind_run, peek, List.head?_cons]
    cases hconnective : Connective.ofToken? next.token with
    | none => rfl
    | some connective =>
      simp only [if_pos (hstops.2 connective hconnective)]
      rfl

end Parser

namespace Level

/-- The largest limit with which all connectives of a level are taken. -/
def limit : Level → Nat
  | .or => 0
  | .and => 1
  | .comparison => 2
  | .bitOr => 3
  | .bitXor => 4
  | .bitAnd => 5
  | .shift => 6
  | .concat => 8
  | .additive => 9
  | .multiplicative => 10
  | .unary | .power => 13

/-- How tightly a connective after an expression of a level may hold on to its left. -/
def follow : Level → Nat
  | .or => 1
  | .and => 2
  | .comparison => 3
  | .bitOr => 4
  | .bitXor => 5
  | .bitAnd => 6
  | .shift => 7
  | .concat => 8
  | .additive => 10
  | .multiplicative => 11
  | .unary | .power => 12

/-- Where a level is read, the next tighter one is. -/
theorem le_of_tighter? (h : level.tighter? = some next) :
    level.limit ≤ next.limit ∧ level.follow ≤ next.follow := by
  cases level <;> cases h <;> decide

end Level

/-- A connective that groups to the left is taken, and its level goes on before and after it. -/
theorem Connective.powers_of_groupsLeft (hleft : connective.level.groupsLeft = true)
    (hnext : connective.level.tighter? = some next) :
    connective.level.limit < connective.leftPower ∧
      connective.leftPower = connective.level.follow ∧
      connective.rightPower = connective.level.follow ∧ connective.rightPower ≤ next.limit := by
  cases connective with
  | binary operator =>
    cases operator <;> cases hleft <;> cases hnext <;> decide
  | logical operator => cases operator <;> cases hnext <;> decide

/-- **A tree is read, and then what goes on from it**, if the connectives of its level are taken and
those that follow are looser. -/
theorem Derives.yields {limit : Nat} {rest left : List PlacedToken} {result : Expression}
    (h : Derives level elements e) (hlimit : limit ≤ level.limit)
    (hrest : Before (StopsOver level.follow) rest)
    (hgo : Parser.Yields (fun fuel => Parser.connected fuel limit e) rest result left) :
    Parser.Yields (fun fuel => Parser.expression fuel limit) (tokensOf elements ++ rest) result
      left := by
  -- what goes on is read last, so the first of two parts is read with the second in what goes on
  induction h generalizing limit rest left result with
  | tighter hnext h ih =>
    obtain ⟨hlimits, hfollows⟩ := Level.le_of_tighter? hnext
    exact ih (Nat.le_trans hlimit hlimits) (hrest.mono fun _ hstops => hstops.mono hfollows) hgo
  | left connective location hlevel hleft hnext _ _ ihfirst ihsecond =>
    subst hlevel
    obtain ⟨htaken, hleftPower, hrightPower, hright⟩ := connective.powers_of_groupsLeft hleft hnext
    obtain ⟨-, hfollows⟩ := Level.le_of_tighter? hnext
    -- the second part stops before another connective of the level, which the first part takes
    have hsecond := ihsecond hright (hrest.mono fun _ hstops => hstops.mono hfollows)
      (Parser.yields_stop (hrightPower ▸ hrest))
    have hconnective := Parser.yields_connective connective location
      (Nat.lt_of_le_of_lt hlimit htaken) hsecond hgo
    rw [tokensOf_append, tokensOf_connective, List.append_assoc, List.cons_append]
    exact ihfirst hlimit (before_cons.2 (stopsOver_token (Nat.le_of_eq hleftPower))) hconnective
  | concat location _ _ ihfirst ihsecond =>
    -- with the smaller power to the right, the second part takes the concatenations in it
    have hsecond := ihsecond (Nat.le_refl 8) hrest (Parser.yields_stop hrest)
    have hconnective := Parser.yields_connective (.binary .concat) location
      (Nat.lt_succ_of_le hlimit) hsecond hgo
    have hlooser : StopsOver Level.additive.follow (Connective.binary .concat).token :=
      stopsOver_token (by decide)
    rw [tokensOf_append, tokensOf_connective, List.append_assoc, List.cons_append]
    exact ihfirst (Nat.le_trans hlimit (by decide)) (before_cons.2 hlooser) hconnective
  | unary operator location _ ih =>
    rw [tokensOf_unary, List.cons_append]
    have hargument := ih (by decide) hrest (Parser.yields_stop hrest)
    exact Parser.yields_unary operator location hargument hgo
  | power base location _ ih =>
    have hsecond := ih (Nat.le_refl 13) hrest
      (Parser.yields_stop (hrest.mono fun _ hstops => hstops.mono (by decide)))
    have hconnective := Parser.yields_connective (.binary .pow) location
      (Nat.lt_succ_of_le hlimit) hsecond hgo
    have hstops : StopsSuffixes (Connective.binary .pow).token := rfl
    rw [tokensOf_operand, tokensOf_connective, List.append_assoc, List.cons_append]
    exact Parser.yields_operand base (before_cons.2 hstops) hconnective
  | operand base =>
    rw [tokensOf_operand, tokensOf_nil, List.append_nil]
    exact Parser.yields_operand base (hrest.mono fun _ hstops => hstops.1) hgo

/-- **Every formula is read as its only tree in the grammar**, wherever it stands before tokens that
do not go on with an expression, with the fuel that expressions are given. -/
theorem expression_of_formula (formula : Formula) : ∃ e,
    (∀ other, Derives .or formula.elements other ↔ other = e) ∧
    ∀ rest, Before StopsExpression rest →
      ∀ fuel, 8 * (formula.tokens ++ rest).length + 4 ≤ fuel →
        Parser.expression fuel 0 (formula.tokens ++ rest) = .done e rest := by
  have hyields {e : Expression} (he : Derives .or formula.elements e) {rest : List PlacedToken}
      (hrest : Before StopsExpression rest) :
      Parser.Yields (fun fuel => Parser.expression fuel 0) (formula.tokens ++ rest) e rest :=
    he.yields (Nat.le_refl 0) (hrest.mono fun _ hstops => hstops.stopsOver _)
      (Parser.yields_stop (hrest.mono fun _ hstops => hstops.stopsOver _))
  obtain ⟨e, he⟩ := formula.exists_derives
  refine ⟨e, fun other => ⟨fun hother => ?_, fun hother => hother ▸ he⟩,
    fun rest hrest fuel hfuel => (hyields he hrest).expression_eq hfuel⟩
  exact (hyields hother before_nil).unique (hyields he before_nil)

/-- A number as an operand. -/
def Operand.ofNumber (x : Float) : Operand where
  tokens := [⟨.number x, .start⟩]
  value := .number (some .start) x
  reads := ⟨1, rfl⟩

/-- Operators before a base and before its exponent, and a concatenation with a difference of three
operands. -/
def mixedFormula : Formula where
  first := ⟨[(.negate, .start)], .ofNumber 2⟩
  others := [((.binary .pow, .start), ⟨[(.bitNot, .start)], .ofNumber 3⟩),
    ((.binary .concat, .start), ⟨[], .ofNumber 4⟩), ((.binary .sub, .start), ⟨[], .ofNumber 5⟩),
    ((.binary .sub, .start), ⟨[], .ofNumber 6⟩)]

/-- The tree of the formula. -/
def mixedTree : Expression :=
  let number (x : Float) : Expression := .number (some .start) x
  .binary (some .start) .concat
    (.unary (some .start) .negate
      (.binary (some .start) .pow (number 2) (.unary (some .start) .bitNot (number 3))))
    (.binary (some .start) .sub (.binary (some .start) .sub (number 4) (number 5)) (number 6))

/-- The operator before the base is applied to the power, the first difference is taken first, and
the concatenation is taken last. -/
theorem expression_of_formula_mixedFormula :
    Derives .or mixedFormula.elements mixedTree ∧
      Parser.expression (enoughFuel mixedFormula.tokens) 0 mixedFormula.tokens =
        .done mixedTree [] := by
  have hnumber (x : Float) : Derives .unary [.operand (.ofNumber x)] (.number (some .start) x) :=
    .tighter rfl (.operand (.ofNumber x))
  have hnegation := Derives.unary .negate .start
    (.tighter rfl (.power (.ofNumber 2) .start (.unary .bitNot .start (hnumber 3))))
  have hdifference := Derives.left (.binary .sub) .start rfl rfl rfl
    ((hnumber 4).loosen (by decide)) ((hnumber 5).loosen (by decide))
  have hlast := Derives.left (.binary .sub) .start rfl rfl rfl hdifference
    ((hnumber 6).loosen (by decide))
  have htree : Derives .or mixedFormula.elements mixedTree :=
    (Derives.concat .start (hnegation.loosen (by decide)) (hlast.loosen (by decide))).loosen
      (by decide)
  obtain ⟨e, hderives, hreads⟩ := expression_of_formula mixedFormula
  obtain rfl := (hderives mixedTree).1 htree
  have hread := hreads [] before_nil (enoughFuel mixedFormula.tokens) (by decide)
  rw [List.append_nil] at hread
  exact ⟨htree, hread⟩

end Script
end ProductionRates
