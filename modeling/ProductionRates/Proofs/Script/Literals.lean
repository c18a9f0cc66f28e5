import ProductionRates.Proofs.Decimal.NotANumber
import ProductionRates.Proofs.Sequence
import ProductionRates.Script.Evaluation

/-!
# Which scripts have a value

Data scripts assign literals to names.  `IsLiteral` says which expressions are literals and of what
kind, by rules that do not evaluate anything, and `Statement.IsData` which statements assign them.
What is refused in a script is said node by node: `Chunk.sites` lists its nodes in the order in
which they are looked at, and `Site.refusal?` is what is wrong with one of them alone.

* `Kind`, `Value.kind`, `Expression.kind?` — what operators and keys tell apart;
* `IsLiteral`, `Statement.IsData` — literals and the statements that assign them;
* `Site`, `Expression.sites`, `Chunk.sites` — the nodes of a script in order;
* `Site.refusal?` — the error of a node that is refused;
* `isLiteral_iff` — the literals of a kind are the expressions with a value of it;
* `value_or_firstRefusal` — a script has a value just when it consists of data, and otherwise comes
  to the error of its first refused node.
-/

namespace ProductionRates
namespace Script

/-! ## Kinds of values -/

/-- What operators and keys tell apart in a value. -/
inductive Kind where
  /-- The absent value. -/
  | nil
  /-- A truth value. -/
  | boolean
  /-- A number, which may be a NaN. -/
  | number (isNaN : Bool)
  /-- A text. -/
  | text
  /-- A table without keys. -/
  | sequence
  /-- A table with keys. -/
  | map
  deriving DecidableEq, Repr

namespace Kind

/-- The name of a kind. -/
def name : Kind → String
  | .nil => "nil"
  | .boolean => "boolean"
  | .number _ => "number"
  | .text => "string"
  | .sequence => "sequence"
  | .map => "map"

/-- Whether values of a kind can be keys. -/
def isKey : Kind → Bool
  | .number isNaN => !isNaN
  | .text => true
  | _ => false

/-- The name of a kind that cannot be a key. -/
def keyName : Kind → String
  | .number true => "NaN"
  | kind => kind.name

end Kind

/-- The kind of a value. -/
def Value.kind : Value → Kind
  | .nil => .nil
  | .boolean _ => .boolean
  | .number x => .number x.isNaN
  | .text _ => .text
  | .sequence _ => .sequence
  | .map _ => .map

/-- Whether a field goes by position. -/
def Field.isPositional : Field → Bool
  | .positional _ => true
  | _ => false

/-- The kind of a table with the given fields. -/
def Kind.ofFields (fields : List Field) : Kind :=
  if fields.all Field.isPositional then .sequence else .map

/-! ## Literals -/

mutual

/-- Literals and their kinds. -/
inductive IsLiteral : Expression → Kind → Prop where
  /-- The absent value. -/
  | nil (location : Option Location) : IsLiteral (.nil location) .nil
  /-- A truth value. -/
  | boolean (location : Option Location) (value : Bool) :
      IsLiteral (.boolean location value) .boolean
  /-- A numeral. -/
  | number (location : Option Location) (value : Float) :
      IsLiteral (.number location value) (.number value.isNaN)
  /-- A string. -/
  | string (location : Option Location) (raw : String) : IsLiteral (.string location raw) .text
  /-- The negative of a number. -/
  | negative (location : Option Location) {argument : Expression} {isNaN : Bool}
      (h : IsLiteral argument (.number isNaN)) :
      IsLiteral (.unary location .negate argument) (.number isNaN)
  /-- The length of a text. -/
  | length (location : Option Location) {argument : Expression} (h : IsLiteral argument .text) :
      IsLiteral (.unary location .length argument) (.number false)
  /-- A table of literals. -/
  | table (location : Option Location) {fields : List Field}
      (h : ∀ field ∈ fields, IsLiteralField field) :
      IsLiteral (.table location fields) (Kind.ofFields fields)

/-- Fields whose values are literals, and whose keys are literals that can be keys. -/
inductive IsLiteralField : Field → Prop where
  /-- A value alone. -/
  | positional {value : Expression} {kind : Kind} (h : IsLiteral value kind) :
      IsLiteralField (.positional value)
  /-- A value under a name. -/
  | named (name : String) {value : Expression} {kind : Kind} (h : IsLiteral value kind) :
      IsLiteralField (.named name value)
  /-- A value under a key in brackets. -/
  | keyed {key value : Expression} {keyKind kind : Kind} (hkey : IsLiteral key keyKind)
      (hisKey : keyKind.isKey = true) (h : IsLiteral value kind) : IsLiteralField (.keyed key value)

end

/-- Assignments of literals to names; there may be more values than names, or fewer. -/
inductive Statement.IsData : Statement → Prop where
  /-- An assignment. -/
  | assignment (location : Option Location) {targets values : List Expression}
      (htargets : ∀ target ∈ targets, ∃ place name, target = .identifier place name)
      (hvalues : ∀ value ∈ values, ∃ kind, IsLiteral value kind) :
      IsData (.assignment location targets values)

/-! ## The nodes of a script -/

/-- A place of a script where something may be refused. -/
inductive Site where
  /-- A statement. -/
  | statement (statement : Statement)
  /-- A target of an assignment that stands at a location. -/
  | target (location : Option Location) (target : Expression)
  /-- An expression, apart from its parts. -/
  | expression (expression : Expression)
  /-- The operand of a unary operator that stands at a location. -/
  | operand (location : Option Location) (operator : UnaryOperator) (argument : Expression)
  /-- A key in brackets in a table that stands at a location. -/
  | key (location : Option Location) (key : Expression)

mutual

/-- The nodes of an expression: itself, then its parts, then the operand as a whole. -/
def Expression.sites : Expression → List Site
  | .unary location operator argument =>
    .expression (.unary location operator argument) ::
      (argument.sites ++ [.operand location operator argument])
  | .table location fields => .expression (.table location fields) :: fieldsSites location fields
  | .nil location => [.expression (.nil location)]
  | .boolean location value => [.expression (.boolean location value)]
  | .number location value => [.expression (.number location value)]
  | .string location raw => [.expression (.string location raw)]
  | .vararg location => [.expression (.vararg location)]
  | .identifier location name => [.expression (.identifier location name)]
  | .binary location operator left right => [.expression (.binary location operator left right)]
  | .logical location operator left right => [.expression (.logical location operator left right)]
  | .member location base name => [.expression (.member location base name)]
  | .index location base index => [.expression (.index location base index)]
  | .call location base arguments => [.expression (.call location base arguments)]

/-- The nodes of the fields of a table that stands at a location, in order. -/
def fieldsSites (location : Option Location) : List Field → List Site
  | [] => []
  | field :: fields => field.sites location ++ fieldsSites location fields

/-- The nodes of a field: a key, the key as a whole, and the value. -/
def Field.sites (location : Option Location) : Field → List Site
  | .positional value => value.sites
  | .named _ value => value.sites
  | .keyed key value => key.sites ++ .key location key :: value.sites

end

/-- The nodes of a statement: itself, its targets and then its values. -/
def Statement.sites (statement : Statement) : List Site :=
  .statement statement :: match statement with
    | .assignment location targets values =>
      targets.map (.target location) ++ values.flatMap Expression.sites
    | _ => []

/-- The nodes of a script, statement by statement. -/
def Chunk.sites (chunk : Chunk) : List Site := chunk.flatMap Statement.sites

/-! ## What is refused -/

/-- The kind of the literal that an expression is.  The fields of tables are not looked at. -/
def Expression.kind? : Expression → Option Kind
  | .nil _ => some .nil
  | .boolean _ _ => some .boolean
  | .number _ value => some (.number value.isNaN)
  | .string _ _ => some .text
  | .table _ fields => some (Kind.ofFields fields)
  | .unary _ .negate argument =>
    match argument.kind? with
    | some (.number isNaN) => some (.number isNaN)
    | _ => none
  | .unary _ .length argument =>
    match argument.kind? with
    | some .text => some (.number false)
    | _ => none
  | _ => none

/-- What is wrong with an operand of a kind, if the operator is one for data. -/
def UnaryOperator.refusal? : UnaryOperator → Kind → Option Refusal
  | .negate, .number _ => none
  | .negate, kind => some (.operand .negate "number" kind.name)
  | .length, .text => none
  | .length, kind => some (.operand .length "string" kind.name)
  | _, _ => none

/-- What is wrong with a key of a kind. -/
def Kind.keyRefusal? (kind : Kind) : Option Refusal :=
  if kind.isKey then none else some (.key kind.keyName)

/-- The error of a node that is refused for itself, whatever is wrong with other nodes. -/
def Site.refusal? (source : String) : Site → Option EvaluationError
  | .statement (.assignment _ _ _) => none
  | .statement other => some ⟨.construct other.tag, ⟨source, other.location⟩⟩
  | .target _ (.identifier _ _) => none
  | .target location other => some ⟨.target other.tag, ⟨source, other.location.or location⟩⟩
  | .expression (.nil _) | .expression (.boolean _ _) | .expression (.number _ _)
  | .expression (.string _ _) | .expression (.table _ _) => none
  | .expression (.unary location operator _) =>
    if operator.isForData then none else some ⟨.operator operator, ⟨source, location⟩⟩
  | .expression other => some ⟨.construct other.tag, ⟨source, other.location⟩⟩
  | .operand location operator argument =>
    (argument.kind?.bind operator.refusal?).map (⟨·, ⟨source, location⟩⟩)
  | .key location bracketed =>
    (bracketed.kind?.bind Kind.keyRefusal?).map (⟨·, ⟨source, bracketed.location.or location⟩⟩)

/-- The error of the first of some nodes that is refused. -/
def firstRefusal? (source : String) (sites : List Site) : Option EvaluationError :=
  sites.findSome? (Site.refusal? source)

variable {source : String} {e : Expression} {kind : Kind} {value : Value}
  {location : Option Location} {field : Field} {fields : List Field}

theorem firstRefusal?_append (before after : List Site) :
    firstRefusal? source (before ++ after) =
      (firstRefusal? source before).or (firstRefusal? source after) :=
  List.findSome?_append

theorem firstRefusal?_cons (site : Site) (sites : List Site) :
    firstRefusal? source (site :: sites) =
      (site.refusal? source).or (firstRefusal? source sites) := by
  rw [← List.singleton_append, firstRefusal?_append]
  cases h : site.refusal? source <;> simp [firstRefusal?, h]

/-! ## The kind of a value -/

/-- A value is a key if its kind can be one, and is refused otherwise. -/
theorem Value.key?_eq (value : Value) :
    (∃ key, value.key? = .ok key ∧ value.kind.keyRefusal? = none) ∨
      ∃ found, value.key? = .error found ∧ value.kind.keyRefusal? = some (.key found) := by
  cases value with
  | number x =>
    rw [Value.key?, Key.number?, Value.kind]
    cases x.isNaN with
    | true => exact .inr ⟨_, rfl, rfl⟩
    | false =>
      rw [if_neg (by decide)]
      split
      · exact .inl ⟨_, rfl, rfl⟩
      · rename_i hnone
        split at hnone <;> cases hnone
  | text s => exact .inl ⟨_, rfl, rfl⟩
  | _ => exact .inr ⟨_, rfl, rfl⟩

/-- An operator for data has a value on a value whose kind it takes, and refuses others. -/
theorem UnaryOperator.apply_eq {operator : UnaryOperator} (h : operator.isForData = true)
    (position : Position) (value : Value) :
    (∃ result, operator.apply position value = .ok result ∧
      operator.refusal? value.kind = none) ∨
      ∃ refusal, operator.apply position value = .error ⟨refusal, position⟩ ∧
        operator.refusal? value.kind = some refusal := by
  cases operator with
  | negate => cases value <;> first | exact .inl ⟨_, rfl, rfl⟩ | exact .inr ⟨_, rfl, rfl⟩
  | length => cases value <;> first | exact .inl ⟨_, rfl, rfl⟩ | exact .inr ⟨_, rfl, rfl⟩
  | not => cases h
  | bitNot => cases h

/-- A field goes by position just when it comes to no key. -/
theorem isNone_of_field_evaluate {evaluated : EvaluatedField}
    (h : field.evaluate source location = .ok evaluated) :
    evaluated.1.isNone = field.isPositional := by
  cases field with
  | positional e =>
    obtain ⟨value, -, heq⟩ := exists_of_bind_eq_ok h
    cases heq
    rfl
  | named name e =>
    obtain ⟨value, -, heq⟩ := exists_of_bind_eq_ok h
    cases heq
    rfl
  | keyed bracketed e =>
    rw [Field.evaluate] at h
    obtain ⟨keyValue, -, heq⟩ := exists_of_bind_eq_ok h
    split at heq
    · cases heq
    · obtain ⟨value, -, heq⟩ := exists_of_bind_eq_ok heq
      cases heq
      rfl

theorem all_isNone_of_evaluateFields {evaluated : List EvaluatedField}
    (h : evaluateFields source location fields = .ok evaluated) :
    evaluated.all (·.1.isNone) = fields.all Field.isPositional := by
  induction fields generalizing evaluated with
  | nil =>
    cases h
    rfl
  | cons field fields ih =>
    rw [evaluateFields] at h
    obtain ⟨first, hfirst, heq⟩ := exists_of_bind_eq_ok h
    obtain ⟨rest, hrest, heq⟩ := exists_of_bind_eq_ok heq
    cases heq
    rw [List.all_cons, List.all_cons, isNone_of_field_evaluate hfirst, ih hrest]

theorem Value.kind_ofFields {evaluated : List EvaluatedField}
    (h : evaluateFields source location fields = .ok evaluated) :
    (Value.ofFields evaluated).kind = Kind.ofFields fields := by
  rw [Value.ofFields, Kind.ofFields, all_isNone_of_evaluateFields h]
  split <;> rfl

/-- The value of an operator for data: its operand was taken, and the kind of the value is known. -/
theorem UnaryOperator.kind_of_apply {operator : UnaryOperator} {position : Position}
    {value result : Value} (h : operator.apply position value = .ok result) :
    (operator = .negate ∧ ∃ isNaN, value.kind = .number isNaN ∧ result.kind = .number isNaN) ∨
      (operator = .length ∧ value.kind = .text ∧ result.kind = .number false) := by
  cases operator with
  | negate =>
    cases value with
    | number x =>
      cases h
      exact .inl ⟨rfl, _, rfl, congrArg Kind.number (Decimal.isNaN_neg x)⟩
    | _ => cases h
  | length =>
    cases value with
    | text s =>
      cases h
      exact .inr ⟨rfl, rfl, congrArg Kind.number (Decimal.isNaN_floatOfNat _)⟩
    | _ => cases h
  | not => cases value <;> cases h
  | bitNot => cases value <;> cases h

/-- **An expression with a value is a literal by its form**, and of the kind of the value. -/
theorem Expression.kind?_of_evaluate : ∀ {e : Expression} {value : Value},
    e.evaluate source = .ok value → e.kind? = some value.kind
  | .nil _, _, h => by cases h; rfl
  | .boolean _ _, _, h => by cases h; rfl
  | .number _ _, _, h => by cases h; rfl
  | .string _ _, _, h => by cases h; rfl
  | .table _ fields, value, h => by
    rw [Expression.evaluate] at h
    cases hfields : evaluateFields source _ fields with
    | error error =>
      rw [hfields] at h
      cases h
    | ok evaluated =>
      rw [hfields] at h
      cases h
      rw [Expression.kind?, Value.kind_ofFields hfields]
  | .unary _ operator argument, value, h => by
    rw [Expression.evaluate] at h
    split at h
    · obtain ⟨operand, hoperand, happly⟩ := exists_of_bind_eq_ok h
      have hkind := kind?_of_evaluate hoperand
      rcases UnaryOperator.kind_of_apply happly with ⟨rfl, isNaN, htaken, hresult⟩ |
        ⟨rfl, htaken, hresult⟩
      · rw [Expression.kind?, hkind, htaken, hresult]
      · rw [Expression.kind?, hkind, htaken, hresult]
    · cases h
  | .vararg _, _, h => by cases h
  | .identifier _ _, _, h => by cases h
  | .binary _ _ _ _, _, h => by cases h
  | .logical _ _ _ _, _, h => by cases h
  | .member _ _ _, _, h => by cases h
  | .index _ _ _, _, h => by cases h
  | .call _ _ _, _, h => by cases h

/-! ## The first refusal -/

/-- The operand as a whole is refused just when the operator has no value on its value. -/
theorem errorOf?_apply {operator : UnaryOperator} {argument : Expression}
    (hdata : operator.isForData = true) (h : argument.evaluate source = .ok value) :
    errorOf? (operator.apply ⟨source, location⟩ value) =
      (Site.operand location operator argument).refusal? source := by
  rw [Site.refusal?, Expression.kind?_of_evaluate h]
  rcases UnaryOperator.apply_eq hdata ⟨source, location⟩ value with
    ⟨result, happly, hnone⟩ | ⟨refusal, happly, hrefused⟩
  · simp [happly, hnone, errorOf?]
  · simp [happly, hrefused, errorOf?]

mutual

/-- **An expression comes to the error of its first node that is refused**, and to a value if there
is none. -/
theorem Expression.errorOf?_evaluate : ∀ e : Expression,
    errorOf? (e.evaluate source) = firstRefusal? source e.sites
  | .nil _ => rfl
  | .boolean _ _ => rfl
  | .number _ _ => rfl
  | .string _ _ => rfl
  | .table location fields => by
    rw [Expression.evaluate, errorOf?_map, errorOf?_evaluateFields, Expression.sites,
      firstRefusal?_cons]
    rfl
  | .unary location operator argument => by
    rw [Expression.evaluate, Expression.sites, firstRefusal?_cons, Site.refusal?,
      firstRefusal?_append]
    split
    · rename_i hdata
      rw [errorOf?_bind fun value h => errorOf?_apply hdata h,
        Expression.errorOf?_evaluate argument,
        firstRefusal?_cons]
      simp [firstRefusal?]
    · rfl
  | .vararg _ => rfl
  | .identifier _ _ => rfl
  | .binary _ _ _ _ => rfl
  | .logical _ _ _ _ => rfl
  | .member _ _ _ => rfl
  | .index _ _ _ => rfl
  | .call _ _ _ => rfl

theorem errorOf?_evaluateFields {location : Option Location} : ∀ fields : List Field,
    errorOf? (evaluateFields source location fields) =
      firstRefusal? source (fieldsSites location fields)
  | [] => rfl
  | field :: fields => by
    have hrest (first : EvaluatedField) :
        errorOf? (evaluateFields source location fields >>= fun rest => pure (first :: rest)) =
          firstRefusal? source (fieldsSites location fields) := by
      rw [← errorOf?_evaluateFields fields]
      cases evaluateFields source location fields <;> rfl
    rw [evaluateFields, fieldsSites, firstRefusal?_append, ← Field.errorOf?_evaluate field]
    exact errorOf?_bind fun first _ => hrest first

theorem Field.errorOf?_evaluate {location : Option Location} : ∀ field : Field,
    errorOf? (field.evaluate source location) = firstRefusal? source (field.sites location)
  | .positional value => by
    rw [Field.evaluate, Field.sites, ← Expression.errorOf?_evaluate value]
    cases value.evaluate source <;> rfl
  | .named name value => by
    rw [Field.evaluate, Field.sites, ← Expression.errorOf?_evaluate value]
    cases value.evaluate source <;> rfl
  | .keyed bracketed value => by
    rw [Field.evaluate, Field.sites, firstRefusal?_append, ← Expression.errorOf?_evaluate bracketed]
    refine errorOf?_bind fun keyValue hkey => ?_
    rw [firstRefusal?_cons, Site.refusal?, Expression.kind?_of_evaluate hkey,
      ← Expression.errorOf?_evaluate value]
    rcases Value.key?_eq keyValue with ⟨key, hok, hnone⟩ | ⟨found, herror, hsome⟩
    · simp only [hok, Option.bind_some, hnone, Option.map_none, Option.none_or]
      cases value.evaluate source <;> rfl
    · simp only [herror, Option.bind_some, hsome, Option.map_some, Option.some_or]
      rfl

end

/-! ## Literals have values -/

/-- The values of fields that have values come one by one. -/
theorem exists_evaluateFields (h : ∀ field ∈ fields, ∃ evaluated,
    field.evaluate source location = .ok evaluated) :
    ∃ evaluated, evaluateFields source location fields = .ok evaluated := by
  induction fields with
  | nil => exact ⟨[], rfl⟩
  | cons field fields ih =>
    obtain ⟨first, hfirst⟩ := h field (List.mem_cons_self ..)
    obtain ⟨rest, hrest⟩ := ih fun other hother => h other (List.mem_cons_of_mem _ hother)
    refine ⟨first :: rest, ?_⟩
    rw [evaluateFields, hfirst, hrest]
    rfl

mutual

/-- A literal has a value of its kind. -/
theorem IsLiteral.evaluate : ∀ {e : Expression} {kind : Kind}, IsLiteral e kind →
    ∃ value, e.evaluate source = .ok value ∧ value.kind = kind
  | _, _, .nil _ => ⟨_, rfl, rfl⟩
  | _, _, .boolean _ _ => ⟨_, rfl, rfl⟩
  | _, _, .number _ _ => ⟨_, rfl, rfl⟩
  | _, _, .string _ _ => ⟨_, rfl, rfl⟩
  | _, _, .negative location h => by
    obtain ⟨value, hvalue, hkind⟩ := h.evaluate
    cases value with
    | number x =>
      refine ⟨.number (-x), ?_, (congrArg Kind.number (Decimal.isNaN_neg x)).trans hkind⟩
      rw [Expression.evaluate, if_pos (by rfl), hvalue]
      rfl
    | _ => cases hkind
  | _, _, .length location h => by
    obtain ⟨value, hvalue, hkind⟩ := h.evaluate
    cases value with
    | text s =>
      refine ⟨.number (Decimal.floatOfNat s.utf8ByteSize), ?_,
        congrArg Kind.number (Decimal.isNaN_floatOfNat _)⟩
      rw [Expression.evaluate, if_pos (by rfl), hvalue]
      rfl
    | _ => cases hkind
  | _, _, .table location h => by
    obtain ⟨evaluated, hfields⟩ :=
      exists_evaluateFields fun field hfield => (h field hfield).evaluate
    refine ⟨.ofFields evaluated, ?_, Value.kind_ofFields hfields⟩
    rw [Expression.evaluate, hfields]
    rfl

theorem IsLiteralField.evaluate {location : Option Location} : ∀ {field : Field},
    IsLiteralField field → ∃ evaluated, field.evaluate source location = .ok evaluated
  | _, .positional h => by
    obtain ⟨value, hvalue, -⟩ := h.evaluate
    refine ⟨(none, value), ?_⟩
    rw [Field.evaluate, hvalue]
    rfl
  | _, .named name h => by
    obtain ⟨value, hvalue, -⟩ := h.evaluate
    refine ⟨(some (.text name), value), ?_⟩
    rw [Field.evaluate, hvalue]
    rfl
  | _, .keyed hkey hisKey h => by
    obtain ⟨keyValue, hkeyValue, hkind⟩ := hkey.evaluate
    obtain ⟨value, hvalue, -⟩ := h.evaluate
    rcases Value.key?_eq keyValue with ⟨key, hok, -⟩ | ⟨found, -, hrefused⟩
    · refine ⟨(some key, value), ?_⟩
      simp only [Field.evaluate, hkeyValue, bind, Except.bind, hok, hvalue]
      rfl
    · rw [Kind.keyRefusal?, hkind, if_pos hisKey] at hrefused
      cases hrefused

end

mutual

/-- An expression with a value is a literal of the kind of the value. -/
theorem isLiteral_of_evaluate : ∀ {e : Expression} {value : Value},
    e.evaluate source = .ok value → IsLiteral e value.kind
  | .nil _, _, h => by cases h; exact .nil _
  | .boolean _ _, _, h => by cases h; exact .boolean ..
  | .number _ _, _, h => by cases h; exact .number ..
  | .string _ _, _, h => by cases h; exact .string ..
  | .table location fields, value, h => by
    rw [Expression.evaluate] at h
    cases hfields : evaluateFields source location fields with
    | error error =>
      rw [hfields] at h
      cases h
    | ok evaluated =>
      rw [hfields] at h
      cases h
      rw [Value.kind_ofFields hfields]
      exact .table location (isLiteralField_of_evaluateFields hfields)
  | .unary location operator argument, value, h => by
    rw [Expression.evaluate] at h
    split at h
    · obtain ⟨operand, hoperand, happly⟩ := exists_of_bind_eq_ok h
      have hliteral := isLiteral_of_evaluate hoperand
      rcases UnaryOperator.kind_of_apply happly with ⟨rfl, isNaN, htaken, hresult⟩ |
        ⟨rfl, htaken, hresult⟩
      · rw [htaken] at hliteral
        rw [hresult]
        exact .negative location hliteral
      · rw [htaken] at hliteral
        rw [hresult]
        exact .length location hliteral
    · cases h
  | .vararg _, _, h => by cases h
  | .identifier _ _, _, h => by cases h
  | .binary _ _ _ _, _, h => by cases h
  | .logical _ _ _ _, _, h => by cases h
  | .member _ _ _, _, h => by cases h
  | .index _ _ _, _, h => by cases h
  | .call _ _ _, _, h => by cases h

theorem isLiteralField_of_evaluateFields {location : Option Location} :
    ∀ {fields : List Field} {evaluated : List EvaluatedField},
      evaluateFields source location fields = .ok evaluated →
        ∀ field ∈ fields, IsLiteralField field
  | [], _, _ => by simp
  | first :: fields, _, h => by
    rw [evaluateFields] at h
    obtain ⟨part, hpart, heq⟩ := exists_of_bind_eq_ok h
    obtain ⟨rest, hrest, -⟩ := exists_of_bind_eq_ok heq
    have hfirst := isLiteralField_of_evaluate hpart
    have hfields := isLiteralField_of_evaluateFields hrest
    intro field hfield
    rcases List.mem_cons.1 hfield with rfl | hfield
    · exact hfirst
    · exact hfields field hfield

theorem isLiteralField_of_evaluate {location : Option Location} :
    ∀ {field : Field} {evaluated : EvaluatedField},
      field.evaluate source location = .ok evaluated → IsLiteralField field
  | .positional value, _, h => by
    rw [Field.evaluate] at h
    obtain ⟨result, hvalue, -⟩ := exists_of_bind_eq_ok h
    exact .positional (isLiteral_of_evaluate hvalue)
  | .named name value, _, h => by
    rw [Field.evaluate] at h
    obtain ⟨result, hvalue, -⟩ := exists_of_bind_eq_ok h
    exact .named name (isLiteral_of_evaluate hvalue)
  | .keyed bracketed value, _, h => by
    rw [Field.evaluate] at h
    obtain ⟨keyValue, hkey, heq⟩ := exists_of_bind_eq_ok h
    rcases Value.key?_eq keyValue with ⟨key, hok, hnone⟩ | ⟨found, herror, -⟩
    · simp only [hok] at heq
      obtain ⟨result, hvalue, -⟩ := exists_of_bind_eq_ok heq
      refine .keyed (isLiteral_of_evaluate hkey) ?_ (isLiteral_of_evaluate hvalue)
      by_contra hisKey
      rw [Kind.keyRefusal?, if_neg hisKey] at hnone
      cases hnone
    · simp only [herror] at heq
      cases heq

end

/-- **Literals of a kind are the expressions with a value of that kind.** -/
theorem isLiteral_iff (source : String) {e : Expression} {kind : Kind} :
    IsLiteral e kind ↔ ∃ value, e.evaluate source = .ok value ∧ value.kind = kind := by
  constructor
  · exact fun h => h.evaluate
  · rintro ⟨value, hvalue, rfl⟩
    exact isLiteral_of_evaluate hvalue

/-! ## Scripts -/

/-- A target has a name just when it is one. -/
theorem errorOf?_targetName (target : Expression) :
    errorOf? (target.targetName source location) =
      (Site.target location target).refusal? source := by
  cases target <;> rfl

theorem firstRefusal?_flatMap {α : Type} (as : List α) (sites : α → List Site) :
    firstRefusal? source (as.flatMap sites) =
      as.findSome? fun a => firstRefusal? source (sites a) := by
  induction as with
  | nil => rfl
  | cons a as ih =>
    rw [List.flatMap_cons, firstRefusal?_append, ih, List.findSome?_cons]
    cases firstRefusal? source (sites a) <;> rfl

/-- A statement comes to the error of its first node that is refused. -/
theorem Statement.errorOf?_assignments (statement : Statement) :
    errorOf? (statement.assignments source) = firstRefusal? source statement.sites := by
  cases statement with
  | assignment location targets values =>
    have htargets : errorOf? (targets.mapM (·.targetName source location)) =
        firstRefusal? source (targets.map (.target location)) := by
      rw [errorOf?_mapM, firstRefusal?, List.findSome?_map]
      exact congrArg (targets.findSome? ·) (funext errorOf?_targetName)
    have hvalues : errorOf? (values.mapM (·.evaluate source)) =
        firstRefusal? source (values.flatMap Expression.sites) := by
      rw [errorOf?_mapM, firstRefusal?_flatMap]
      exact congrArg (values.findSome? ·) (funext Expression.errorOf?_evaluate)
    rw [Statement.assignments, Statement.sites, firstRefusal?_cons, firstRefusal?_append,
      ← htargets, ← hvalues]
    refine errorOf?_bind fun names _ => ?_
    cases values.mapM (·.evaluate source) <;> rfl
  | _ => rfl

/-- Statements come to the error of the first node that is refused, whatever was assigned before. -/
theorem Chunk.errorOf?_run (chunk : Chunk) (globals : Entries) :
    errorOf? (Chunk.run source globals chunk) = firstRefusal? source chunk.sites := by
  induction chunk generalizing globals with
  | nil => rfl
  | cons statement chunk ih =>
    rw [Chunk.run, Chunk.sites, List.flatMap_cons, firstRefusal?_append,
      ← Statement.errorOf?_assignments]
    exact errorOf?_bind fun assignments _ => ih _

theorem Chunk.errorOf?_evaluate (source : String) (chunk : Chunk) :
    errorOf? (chunk.evaluate source) = firstRefusal? source chunk.sites := by
  rw [Chunk.evaluate, errorOf?_map, Chunk.errorOf?_run]

theorem refusal?_target_eq_none_iff {target : Expression} :
    (Site.target location target).refusal? source = none ↔
      ∃ place name, target = .identifier place name := by
  cases target <;> simp [Site.refusal?]

theorem firstRefusal?_sites_eq_none_iff :
    firstRefusal? source e.sites = none ↔ ∃ kind, IsLiteral e kind := by
  rw [← Expression.errorOf?_evaluate, errorOf?_eq_none_iff]
  constructor
  · rintro ⟨value, hvalue⟩
    exact ⟨_, isLiteral_of_evaluate hvalue⟩
  · rintro ⟨kind, h⟩
    obtain ⟨value, hvalue, -⟩ := h.evaluate
    exact ⟨value, hvalue⟩

/-- Nothing is refused in a statement just when it assigns literals to names. -/
theorem Statement.isData_iff (source : String) (statement : Statement) :
    firstRefusal? source statement.sites = none ↔ statement.IsData := by
  cases statement with
  | assignment location targets values =>
    rw [Statement.sites, firstRefusal?_cons, firstRefusal?_append, Option.or_eq_none_iff,
      Option.or_eq_none_iff, firstRefusal?_flatMap, firstRefusal?, List.findSome?_map,
      List.findSome?_eq_none_iff, List.findSome?_eq_none_iff]
    constructor
    · rintro ⟨-, htargets, hvalues⟩
      exact .assignment location
        (fun target htarget => refusal?_target_eq_none_iff.1 (htargets target htarget))
        fun value hvalue => firstRefusal?_sites_eq_none_iff.1 (hvalues value hvalue)
    · rintro ⟨-, htargets, hvalues⟩
      exact ⟨rfl, fun target htarget => refusal?_target_eq_none_iff.2 (htargets target htarget),
        fun value hvalue => firstRefusal?_sites_eq_none_iff.2 (hvalues value hvalue)⟩
  | _ =>
    constructor
    · intro h
      cases h
    · intro h
      cases h

/-- A script has a value just when it consists of data. -/
theorem Chunk.exists_evaluate_iff (source : String) (chunk : Chunk) :
    (∃ value, chunk.evaluate source = .ok value) ↔ ∀ statement ∈ chunk, statement.IsData := by
  rw [← errorOf?_eq_none_iff, Chunk.errorOf?_evaluate, Chunk.sites, firstRefusal?_flatMap,
    List.findSome?_eq_none_iff]
  exact forall₂_congr fun statement _ => Statement.isData_iff source statement

/-- **A script has a value just when it consists of data, and otherwise comes to the error of its
first node that is refused.**  What counts as a literal of a kind is what has a value of it. -/
theorem value_or_firstRefusal (source : String) (chunk : Chunk) :
    ((∃ value, chunk.evaluate source = .ok value) ↔ ∀ statement ∈ chunk, statement.IsData) ∧
      (∀ error, chunk.evaluate source = .error error ↔
        firstRefusal? source chunk.sites = some error) ∧
      ∀ e kind, IsLiteral e kind ↔
        ∃ value, e.evaluate source = .ok value ∧ value.kind = kind := by
  refine ⟨chunk.exists_evaluate_iff source, fun error => ?_, fun e kind => isLiteral_iff source⟩
  rw [← errorOf?_eq_some_iff, Chunk.errorOf?_evaluate]

end Script
end ProductionRates
