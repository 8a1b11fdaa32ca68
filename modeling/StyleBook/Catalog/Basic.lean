import StyleBook.Conversion.Recipe
import StyleBook.Text.DashCase

namespace StyleBook

/-!
# Catalogs

What is known about functions, properties and categories of values.

* `Descriptor` — how the calls of one function are written;
* `PropertyKind` — how the values of one property are written;
* `Catalog` — the recipes of categories, the descriptors and the kinds of properties, each by
  name. A property is looked up by its dash-case name.
-/

/-- How the arguments of a function are written. -/
inductive Arguments
  /-- Parameters in order, with a separator between them. -/
  | params (fields : List Field) (separator : String)
  /-- The whole argument value by one recipe. -/
  | whole (recipe : Recipe)

/-- How the calls of a function are written. -/
structure Descriptor where
  /-- The name of the function. -/
  name : String
  /-- Its arguments. -/
  arguments : Arguments
  /-- The fields that a record of arguments may have, if they are declared. -/
  shape : Option (List String) := none
  /-- Whether the function has a `repeating-` variant. -/
  repeatable : Bool := false

namespace Descriptor

/-- A function with parameters. -/
def ofParams (name separator : String) (fields : List Field) : Descriptor :=
  { name, arguments := .params fields separator }

/-- A function of one value. -/
def ofWhole (name : String) (recipe : Recipe) : Descriptor :=
  { name, arguments := .whole recipe }

/-- The function with declared argument fields. -/
def withShape (fields : List String) (d : Descriptor) : Descriptor :=
    { d with shape := some fields }

/-- The function with a `repeating-` variant. -/
def withRepeating (d : Descriptor) : Descriptor := { d with repeatable := true }

/-- The error of a field that the declared shape of a record of arguments has not. -/
def unknownField (d : Descriptor) (field : String) : Error :=
  .unsupportedValue "record field"
    ("unknown field '" ++ field ++ "' in arguments to '" ++ d.name ++ "'")

/-- The error of a record, with the function it was an argument of. -/
def inArguments (d : Descriptor) : Error → Error
  | .unsupportedValue "record field" context =>
    .unsupportedValue "record field" (context ++ " in arguments to '" ++ d.name ++ "'")
  | e => e

/-- An error in the fields of the arguments: with the name of the function if they are a record
    that no declared shape has checked. -/
def explain (d : Descriptor) (args : Value) (e : Error) : Error :=
  match args, d.shape with
  | .record _, none => d.inArguments e
  | _, _ => e

/-- Refuse a record with a field outside the declared shape. -/
def checkShape (d : Descriptor) (shape : List String) (fields : List (String × Value)) :
    Except Error Unit :=
  match fields.find? fun entry => entry.1 ∉ shape with
  | some (name, _) => .error (d.unknownField name)
  | none => .ok ()

/-- Refuse an argument that is a record with a field outside the declared shape. -/
def checkWhole (d : Descriptor) (args : Value) : Except Error Unit :=
  match args, d.shape with
  | .record fields, some shape => d.checkShape shape fields
  | _, _ => .ok ()

/-- The arguments of a call as fields for the parameters: a record as it is, without what only
    the declared shape knows; the items of a list under the names of the parameters; any other
    value under the name of the first. -/
def fieldsFor (d : Descriptor) (params : List Field) : Value → Except Error (List (String × Value))
  | .record fields =>
    match d.shape with
    | some shape => do
      d.checkShape shape fields
      return fields.filter fun entry => params.any fun p => p.name == entry.1
    | none => .ok fields
  | .list items =>
    if params.length < items.length then
      .error (.unsupportedValue "list"
        (Nat.repr items.length ++ " arguments to '" ++ d.name ++ "', which takes at most "
          ++ Nat.repr params.length))
    else .ok ((params.map Field.name).zip items)
  | v => .ok ((params.map Field.name).zip [v])

/-- The fields weigh no more than the arguments and one place beside them. -/
theorem fieldsWeight_of_fieldsFor {d : Descriptor} {params : List Field} {args : Value}
    {fields : List (String × Value)} (h : d.fieldsFor params args = .ok fields) :
    Value.fieldsWeight fields ≤ 1 + args.weight := by
  have single : ∀ v : Value,
      Value.fieldsWeight ((params.map Field.name).zip [v]) ≤ 1 + v.weight := fun v => by
    have := Value.fieldsWeight_zip_le (params.map Field.name) [v]
    simp only [Value.itemsWeight] at this
    omega
  cases args with
  | record given =>
    simp only [fieldsFor] at h
    split at h
    · cases hc : d.checkShape _ given with
      | error e => rw [hc] at h; cases h
      | ok u =>
        rw [hc] at h
        cases h
        have := Value.fieldsWeight_filter_le
          (fun entry => params.any fun p => p.name == entry.1) given
        simp only [Value.weight]
        omega
    · cases h
      simp only [Value.weight]
      omega
  | list items =>
    simp only [fieldsFor] at h
    split at h
    · cases h
    · cases h
      have := Value.fieldsWeight_zip_le (params.map Field.name) items
      simp only [Value.weight]
      omega
  | _ => cases h; exact single _

end Descriptor

/-- How the values of a property are written. -/
inductive PropertyKind
  /-- At the default. -/
  | plain
  /-- As values of a category. -/
  | category (c : Category)
  /-- Several values with commas between them, if one of them is compound. -/
  | several (c : Option Category)
  /-- The items of a list with a separator between them. -/
  | joined (c : Option Category) (separator : String)
  deriving DecidableEq, Repr

namespace PropertyKind

/-- The category that the values belong to. -/
def category? : PropertyKind → Option Category
  | .plain => none
  | .category c => some c
  | .several c | .joined c _ => c

/-- How one value is written. -/
def one (kind : PropertyKind) : Recipe :=
  match kind.category? with
  | some c => .category c
  | none => .plain

/-- How the value of the property is written. -/
def recipe (kind : PropertyKind) : Recipe :=
  match kind with
  | .plain | .category _ => kind.one
  | .several _ => kind.one.several ","
  | .joined _ separator => .each kind.one separator

end PropertyKind

/-- What is known about functions, properties and categories. -/
structure Catalog where
  /-- How values of each category are written. -/
  categories : Dict Category Recipe
  /-- The functions, by name. -/
  functions : Dict String Descriptor
  /-- The kinds of properties, by name. -/
  properties : Dict String PropertyKind

namespace Catalog

/-- The catalog that knows nothing. -/
def empty : Catalog := ⟨[], [], []⟩

/-- The descriptor of a function. -/
def descriptor? (catalog : Catalog) (name : String) : Option Descriptor :=
  catalog.functions.get? name

/-- The kind of a property, under any spelling of its name. -/
def propertyKind (catalog : Catalog) (name : String) : PropertyKind :=
  (catalog.properties.get? (dashCase name)).getD .plain

/-- How the value of a property is written, under any spelling of its name. -/
def propertyRecipe (catalog : Catalog) (name : String) : Recipe :=
  (catalog.propertyKind name).recipe

/-- How a value is written that follows a property, or none. -/
def templateRecipe (catalog : Catalog) : Option String → Recipe
  | some property => catalog.propertyRecipe property
  | none => .plain

end Catalog

end StyleBook
