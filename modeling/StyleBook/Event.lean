import StyleBook.Error

namespace StyleBook

/-!
# Events

What the library reports while it works, as causes: `Event.level`, `Event.area`,
`Event.message` and `Event.fields` say how each is reported, and `Event.line` is one line of a
log.
-/

/-- How much an event matters. -/
inductive Level
  | error | warn | debug | trace
  deriving DecidableEq, Repr

/-- The name of a level in a log. -/
def Level.name : Level → String
  | .error => "ERROR"
  | .warn => "WARN"
  | .debug => "DEBUG"
  | .trace => "TRACE"

/-- The part of the work an event belongs to. -/
inductive Area
  | engine | naming | convert | catalog
  deriving DecidableEq, Repr

/-- The name of an area in a log. -/
def Area.target : Area → String
  | .engine => "horizon_lattice_css::engine"
  | .naming => "horizon_lattice_css::naming"
  | .convert => "horizon_lattice_css::convert"
  | .catalog => "horizon_lattice_css::catalog"

/-- Something worth reporting. -/
inductive Event
  /-- A catalog passed its checks. -/
  | catalogBuilt (categories functions properties : Nat)
  /-- The units of a numeric family were changed. -/
  | unitsChanged (family intUnit floatUnit : String)
  /-- An operand of a math function has no text. -/
  | operandDropped (family : String) (cause : Error)
  /-- A custom property of a styleset has no name. -/
  | unnamedPropertySkipped (cause : Error)
  /-- A custom property of a styleset has no text. -/
  | customPropertySkipped (name : String) (cause : Error)
  /-- A declaration has no text. -/
  | declarationSkipped (property : String) (cause : Error)
  /-- A custom property rule has no text. -/
  | variableSkipped (name : String) (cause : Error)
  /-- Parents were given to a rule of a kind that has none. -/
  | parentsIgnored (kind : String)
  /-- A slot was declared again. -/
  | ruleRedeclared (scope slot : String)
  /-- A definition failed and its scope is gone. -/
  | definitionFailed (definition : String) (cause : Error)
  /-- A scope has its names and merged stylesets. -/
  | scopeProcessed (scope : String) (rules : Nat) (nested : Bool)
  /-- A parent belongs to a scope that is gone. -/
  | danglingParent
  /-- A parent is a rule that is being merged. -/
  | cyclicParent (slot : String)
  /-- The condition of a group does not hold. -/
  | groupSkipped (query : String)
  /-- A scope got another user. -/
  | alreadyActive (scope : String) (users : Nat)
  /-- A reference could not be released again after a failure. -/
  | rollbackFailed (cause : Error)
  /-- A scope's text is in the sink. -/
  | scopeInserted (scope : String)
  /-- A scope without users was released. -/
  | notActive (scope : String)
  /-- A scope lost one of its users. -/
  | stillInUse (scope : String) (users : Nat)
  /-- A scope's text was taken out of the sink. -/
  | scopeCleared (scope : String)
  /-- A name was taken and another one tried. -/
  | nameTaken (taken name : String)
  /-- A slot got a new name. -/
  | nameGenerated (scope slot name : String)
  deriving DecidableEq, Repr

namespace Event

/-- How much the event matters. -/
def level : Event → Level
  | .definitionFailed .. => .error
  | .operandDropped .. | .unnamedPropertySkipped .. | .customPropertySkipped ..
  | .declarationSkipped .. | .variableSkipped .. | .danglingParent | .cyclicParent ..
  | .rollbackFailed .. | .notActive .. => .warn
  | .ruleRedeclared .. | .nameGenerated .. => .trace
  | _ => .debug

/-- The part of the work the event belongs to. -/
def area : Event → Area
  | .catalogBuilt .. => .catalog
  | .unitsChanged .. | .operandDropped .. | .unnamedPropertySkipped .. | .customPropertySkipped ..
  | .declarationSkipped .. | .variableSkipped .. => .convert
  | .nameTaken .. | .nameGenerated .. => .naming
  | _ => .engine

/-- What happened. -/
def message : Event → String
  | .catalogBuilt .. => "catalog built"
  | .unitsChanged .. => "numeric units changed"
  | .operandDropped .. => "math operand dropped"
  | .unnamedPropertySkipped .. | .customPropertySkipped .. | .variableSkipped .. =>
    "skipping custom property"
  | .declarationSkipped .. => "skipping declaration"
  | .parentsIgnored .. => "ignoring parents on a rule without a styleset"
  | .ruleRedeclared .. => "rule redeclared"
  | .definitionFailed .. => "style definition failed; scope discarded"
  | .scopeProcessed .. => "scope processed"
  | .danglingParent => "skipping parent from a discarded scope"
  | .cyclicParent .. => "skipping cyclic parent reference"
  | .groupSkipped .. => "feature not supported; group skipped"
  | .alreadyActive .. => "scope already active"
  | .rollbackFailed .. => "rollback deactivation failed"
  | .scopeInserted .. => "scope inserted"
  | .notActive .. => "deactivating an inactive scope"
  | .stillInUse .. => "scope still in use"
  | .scopeCleared .. => "scope cleared"
  | .nameTaken .. => "name already in use"
  | .nameGenerated .. => "generated name"

/-- The details, by name. -/
def fields : Event → List (String × String)
  | .catalogBuilt categories functions properties =>
    [("wkf", Nat.repr categories), ("functions", Nat.repr functions),
     ("properties", Nat.repr properties)]
  | .unitsChanged family intUnit floatUnit =>
    [("family", family), ("int_unit", intUnit), ("float_unit", floatUnit)]
  | .operandDropped family cause => [("family", family), ("err", cause.message)]
  | .unnamedPropertySkipped cause => [("err", cause.message)]
  | .customPropertySkipped name cause => [("property", name), ("err", cause.message)]
  | .declarationSkipped property cause => [("property", property), ("err", cause.message)]
  | .variableSkipped name cause => [("var", name), ("err", cause.message)]
  | .parentsIgnored kind => [("kind", kind)]
  | .ruleRedeclared scope slot => [("scope", scope), ("slot", slot)]
  | .definitionFailed definition cause => [("definition", definition), ("err", cause.message)]
  | .scopeProcessed scope rules nested =>
    [("scope", scope), ("rules", Nat.repr rules), ("nested", if nested then "true" else "false")]
  | .danglingParent => []
  | .cyclicParent slot => [("slot", slot)]
  | .groupSkipped query => [("query", query)]
  | .alreadyActive scope users => [("scope", scope), ("ref_count", Nat.repr users)]
  | .rollbackFailed cause => [("undo", cause.message)]
  | .scopeInserted scope => [("scope", scope)]
  | .notActive scope => [("scope", scope)]
  | .stillInUse scope users => [("scope", scope), ("ref_count", Nat.repr users)]
  | .scopeCleared scope => [("scope", scope)]
  | .nameTaken taken name => [("taken", taken), ("name", name)]
  | .nameGenerated scope slot name => [("scope", scope), ("slot", slot), ("name", name)]

/-- One line of a log. -/
def line (event : Event) : String :=
  event.fields.foldl (fun text (name, value) => text ++ " " ++ name ++ "=" ++ value)
    (event.level.name ++ " " ++ event.area.target ++ " " ++ event.message)

end Event

end StyleBook
