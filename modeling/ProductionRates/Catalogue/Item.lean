/-!
# Items

An item has a name and a kind.  Buildings, the items of kind `production`, also have a production
type; those whose type is not `idle` are facilities, in which recipes run, and have a production
speed.  `Item.violation?` is the first of these rules that an item breaks.

* `ItemKind`, `ProductionType` — the fixed lists, each with its texts;
* `Item.plain`, `Item.building` — items that keep the rules;
* `ItemError` — the ways in which an item breaks them.
-/

namespace ProductionRates

/-! ## Fixed lists -/

/-- A text that is not in a fixed list. -/
structure UnknownName where
  /-- What the list is of. -/
  listing : String
  /-- The text. -/
  value : String
  deriving DecidableEq, Repr

/-- The message for a text that is not in a list. -/
def UnknownName.message (error : UnknownName) : String :=
  s!"unknown {error.listing} '{error.value}'"

/-- What an item is for. -/
inductive ItemKind where
  | resource | material | component | product | logistics | production | matrix
  deriving DecidableEq, Repr

namespace ItemKind

/-- Every kind. -/
def all : List ItemKind :=
  [.resource, .material, .component, .product, .logistics, .production, .matrix]

/-- The text of a kind. -/
def text : ItemKind → String
  | .resource => "RESOURCE"
  | .material => "MATERIAL"
  | .component => "COMPONENT"
  | .product => "PRODUCT"
  | .logistics => "LOGISTICS"
  | .production => "PRODUCTION"
  | .matrix => "MATRIX"

/-- The kind of a text. -/
def ofText? (text : String) : Option ItemKind := all.find? (·.text == text)

/-- The kind of a text, or what is wrong with it. -/
def parse (text : String) : Except UnknownName ItemKind :=
  match ofText? text with
  | some kind => .ok kind
  | none => .error ⟨"item type", text⟩

end ItemKind

/-- What a building makes things by. -/
inductive ProductionType where
  /-- Nothing: no recipe runs in the building. -/
  | idle
  | smelt | chemical | refine | assemble | particle | exchange | photonStore | fractionate
  | research
  deriving DecidableEq, Repr

namespace ProductionType

/-- Every production type. -/
def all : List ProductionType :=
  [.idle, .smelt, .chemical, .refine, .assemble, .particle, .exchange, .photonStore, .fractionate,
    .research]

/-- The text of a production type. -/
def text : ProductionType → String
  | .idle => "NONE"
  | .smelt => "SMELT"
  | .chemical => "CHEMICAL"
  | .refine => "REFINE"
  | .assemble => "ASSEMBLE"
  | .particle => "PARTICLE"
  | .exchange => "EXCHANGE"
  | .photonStore => "PHOTON_STORE"
  | .fractionate => "FRACTIONATE"
  | .research => "RESEARCH"

/-- The production type of a text. -/
def ofText? (text : String) : Option ProductionType := all.find? (·.text == text)

/-- The production type of a text, or what is wrong with it. -/
def parse (text : String) : Except UnknownName ProductionType :=
  match ofText? text with
  | some type => .ok type
  | none => .error ⟨"production type", text⟩

end ProductionType

/-! ## Items -/

/-- An item. -/
structure Item where
  /-- Its name. -/
  name : String
  /-- Its kind. -/
  kind : ItemKind
  /-- What it makes things by; there for buildings and for nothing else. -/
  productionType : Option ProductionType
  /-- How fast it does; there for facilities and for nothing else. -/
  productionSpeed : Option Float
  deriving BEq

/-- The ways in which an item breaks the rules on its production fields. -/
inductive ItemError where
  /-- A building without a production type. -/
  | missingProductionType (name : String)
  /-- A production type on what is no building. -/
  | unexpectedProductionType (name : String) (kind : ItemKind)
  /-- A facility without a production speed. -/
  | missingProductionSpeed (name : String)
  /-- A production speed on what is no facility. -/
  | unexpectedProductionSpeed (name : String)
  deriving DecidableEq, Repr

/-- The message of an error. -/
def ItemError.message : ItemError → String
  | .missingProductionType name => s!"production item '{name}' has no production type"
  | .unexpectedProductionType name kind =>
    s!"{kind.text} item '{name}' must not have a production type"
  | .missingProductionSpeed name => s!"facility '{name}' has no production speed"
  | .unexpectedProductionSpeed name =>
    s!"item '{name}' has a production speed but is not a facility"

namespace Item

/-- An item of a kind; a building made so is idle. -/
def plain (name : String) (kind : ItemKind) : Item where
  name := name
  kind := kind
  productionType := if kind = .production then some .idle else none
  productionSpeed := none

/-- A building of a production type; it keeps the speed unless it is idle. -/
def building (name : String) (type : ProductionType) (speed : Float) : Item where
  name := name
  kind := .production
  productionType := some type
  productionSpeed := if type = .idle then none else some speed

/-- Whether an item is found and not made. -/
def isResource (item : Item) : Bool := item.kind = .resource

/-- Whether recipes run in an item. -/
def isFacility (item : Item) : Bool :=
  item.kind = .production &&
    match item.productionType with
    | some type => type ≠ .idle
    | none => false

/-- The first rule on its production fields that an item breaks, if it breaks one. -/
def violation? (item : Item) : Option ItemError :=
  match item.kind, item.productionType with
  | .production, none => some (.missingProductionType item.name)
  | kind, some _ =>
    if kind ≠ .production then some (.unexpectedProductionType item.name kind) else speedViolation
  | _, none => speedViolation
where
  /-- The rule on the speed. -/
  speedViolation : Option ItemError :=
    match item.isFacility, item.productionSpeed with
    | true, none => some (.missingProductionSpeed item.name)
    | false, some _ => some (.unexpectedProductionSpeed item.name)
    | _, _ => none

end Item
end ProductionRates
