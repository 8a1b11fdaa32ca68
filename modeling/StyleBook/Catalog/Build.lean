import StyleBook.Catalog.Basic
import StyleBook.Event

namespace StyleBook

/-!
# Building catalogs

Entries are collected first and checked together, so that a catalog has no loose ends.

* `CatalogBuilder` — the collected entries;
* `Descriptor.check` — whether a descriptor is consistent in itself and names only registered
  categories;
* `CatalogBuilder.build` — the catalog, or the first thing that is wrong with it.
-/

namespace Descriptor

/-- A fault of the descriptor. -/
def fault (d : Descriptor) (message : String) : Error := .malformedDescriptor d.name message

/-- The first name that is empty or stands for the second time. -/
def firstRepeated? (seen : List String) : List String → Option String
  | [] => none
  | name :: rest =>
    if name = "" ∨ name ∈ seen then some name else firstRepeated? (name :: seen) rest

/-- Refuse a recipe that names an unregistered category. -/
def checkRecipe (d : Descriptor) (registered : Category → Bool) (recipe : Recipe) :
    Except Error Unit :=
  match recipe.category? with
  | some c =>
    if registered c then .ok ()
    else .error (d.fault ("references unregistered well-known function " ++ c.name))
  | none => .ok ()

/-- Check the parameters one after the other: named, unlike those before, and of a registered
    category. -/
def checkParams (d : Descriptor) (registered : Category → Bool) (seen : List String) :
    List Field → Except Error Unit
  | [] => .ok ()
  | param :: rest =>
    if param.name = "" then .error (d.fault "has an unnamed parameter")
    else if param.name ∈ seen then
      .error (d.fault ("declares parameter '" ++ param.name ++ "' twice"))
    else do
      d.checkRecipe registered param.recipe
      checkParams d registered (param.name :: seen) rest

/-- Check the declared shape: its fields are named and unlike each other, and every parameter is
    among them. -/
def checkDeclared (d : Descriptor) (shape : List String) : Except Error Unit :=
  match firstRepeated? [] shape with
  | some field =>
    .error (d.fault
      ("declares record field '" ++ field ++ "' more than once or without a name"))
  | none =>
    match d.arguments with
    | .whole _ => .ok ()
    | .params params _ =>
      match params.find? fun p => p.name ∉ shape with
      | some missing =>
        .error (d.fault ("record shape has no field for parameter '" ++ missing.name ++ "'"))
      | none => .ok ()

/-- Check a descriptor: the declared shape first, then the arguments. -/
def check (d : Descriptor) (registered : Category → Bool) : Except Error Unit := do
  match d.shape with
  | some shape => d.checkDeclared shape
  | none => .ok ()
  match d.arguments with
  | .whole recipe => d.checkRecipe registered recipe
  | .params [] _ => .error (d.fault "has no parameters")
  | .params params _ => d.checkParams registered [] params

end Descriptor

/-- Entries for a catalog, in the order in which they were registered. -/
structure CatalogBuilder where
  /-- Categories; registering one again replaces its recipe. -/
  categories : Dict Category Recipe := []
  /-- Functions. -/
  functions : List Descriptor := []
  /-- Properties. -/
  properties : List (String × PropertyKind) := []

namespace CatalogBuilder

/-- No entries. -/
def empty : CatalogBuilder := {}

/-- Register, or replace, the recipe of a category. -/
def category (c : Category) (recipe : Recipe) (b : CatalogBuilder) : CatalogBuilder :=
  { b with categories := b.categories.insert c recipe }

/-- Register a function. -/
def function (d : Descriptor) (b : CatalogBuilder) : CatalogBuilder :=
  { b with functions := b.functions ++ [d] }

/-- Register the kind of a property. -/
def property (name : String) (kind : PropertyKind) (b : CatalogBuilder) : CatalogBuilder :=
  { b with properties := b.properties ++ [(name, kind)] }

/-- Whether a category is registered. -/
def registered (b : CatalogBuilder) (c : Category) : Bool := b.categories.contains c

/-- Check the functions in order and put them under their names, each of which is new. -/
def addFunctions (registered : Category → Bool) :
    List Descriptor → Dict String Descriptor → Except Error (Dict String Descriptor)
  | [], known => .ok known
  | d :: rest, known => do
    d.check registered
    if known.contains d.name then .error (d.fault "function registered twice")
    else addFunctions registered rest (known.insert d.name d)

/-- Check the properties in order and put them under their names; the last one stays. -/
def addProperties (registered : Category → Bool) :
    List (String × PropertyKind) → Dict String PropertyKind →
      Except Error (Dict String PropertyKind)
  | [], known => .ok known
  | (name, kind) :: rest, known =>
    match kind.category? with
    | some c =>
      if registered c then addProperties registered rest (known.insert name kind)
      else .error (.malformedDescriptor name
        ("property references unregistered well-known function " ++ c.name))
    | none => addProperties registered rest (known.insert name kind)

/-- **Building.** The catalog of the entries, or the first fault: functions are checked before
    properties, both in order. -/
def build (b : CatalogBuilder) : Except Error Catalog := do
  let functions ← addFunctions b.registered b.functions []
  let properties ← addProperties b.registered b.properties []
  return ⟨b.categories, functions, properties⟩

end CatalogBuilder

/-- What is reported when a catalog has been built. -/
def Catalog.built (catalog : Catalog) : Event :=
  .catalogBuilt catalog.categories.length catalog.functions.length catalog.properties.length

end StyleBook
