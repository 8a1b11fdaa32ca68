namespace StyleBook

/-!
# Errors

Everything that can go wrong while values are converted, catalogs built, names given and scopes
processed, as causes. `Error.message` is their only wording.
-/

/-- A cause of failure. -/
inductive Error
  /-- A function descriptor or a property does not fit the catalog it is registered in. -/
  | malformedDescriptor (function message : String)
  /-- A value reached a place that has no conversion for its kind. -/
  | unsupportedValue (kind context : String)
  /-- The name of a rule was needed before it had one. -/
  | unassignedName (slot : String)
  /-- A rule that has a name was given another. -/
  | duplicateName (name slot : String)
  /-- A definition failed while it declared its rules. -/
  | definitionConstruction (definition message : String)
  /-- A definition was reached again while it declared its rules. -/
  | definitionCycle (definition : String)
  /-- No scope has this id. -/
  | unknownScope
  /-- The catalog of the process is in place already. -/
  | catalogInstalled
  /-- A configuration text is invalid. -/
  | configuration (message : String)
  /-- A file cannot be read. -/
  | unreadable (path reason : String)
  /-- A chain of categories, or of scopes, leads back to where it started. -/
  | endless (chain : String)
  deriving DecidableEq, Repr

namespace Error

/-- The name of the kind of an error. -/
def kind : Error → String
  | .malformedDescriptor .. => "MalformedDescriptor"
  | .unsupportedValue .. => "UnsupportedValueKind"
  | .unassignedName .. => "UnassignedName"
  | .duplicateName .. => "DuplicateName"
  | .definitionConstruction .. => "DefinitionConstruction"
  | .definitionCycle .. => "DefinitionCycle"
  | .unknownScope => "UnknownScope"
  | .catalogInstalled => "CatalogAlreadyInstalled"
  | .configuration .. => "Config"
  | .unreadable .. => "Io"
  | .endless .. => "Endless"

/-- The wording of an error. -/
def message : Error → String
  | .malformedDescriptor function message =>
    "Malformed descriptor for '" ++ function ++ "': " ++ message
  | .unsupportedValue kind context => "Unsupported " ++ kind ++ " value in " ++ context
  | .unassignedName slot => "Rule '" ++ slot ++ "' has no name yet; process its scope first"
  | .duplicateName name slot =>
    "Rule '" ++ slot ++ "' already has a name; cannot assign '" ++ name ++ "'"
  | .definitionConstruction definition message =>
    "Failed to construct style definition '" ++ definition ++ "': " ++ message
  | .definitionCycle definition => "Style definition '" ++ definition ++ "' depends on itself"
  | .unknownScope => "Unknown style scope"
  | .catalogInstalled => "The function catalog is already installed"
  | .configuration message => "Invalid configuration: " ++ message
  | .unreadable path reason => "Failed to read '" ++ path ++ "': " ++ reason
  | .endless chain => "Endless chain at '" ++ chain ++ "'"

/-- Whether an error breaks an invariant and should stop all processing, rather than be dealt
    with where it occurs. -/
def isFatal : Error → Bool
  | .malformedDescriptor .. | .duplicateName .. | .catalogInstalled => true
  | _ => false

end Error

end StyleBook
