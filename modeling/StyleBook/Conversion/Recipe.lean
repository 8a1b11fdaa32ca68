import StyleBook.Value.Basic

namespace StyleBook

/-!
# Recipes

How a value becomes text, as data. A catalog is made of recipes; the conversion follows them.

* `Recipe` — the recipes;
* `Shape` — a way to write each kind of value, with what is left out at its default;
* `Field` — how one field of a record is written, and what stands in front of it.
-/

/-- How a number is written. -/
inductive NumberStyle
  /-- By a function. -/
  | by (write : Number → String)
  /-- With the unit of a family. -/
  | inFamily (family : NumericFamily)

mutual

/-- A way to write each kind of value. -/
structure Shape where
  /-- The text of no value; empty by default. -/
  nullText : Option String := none
  /-- Flags; `true` and `false` by default. -/
  ofBool : Option (Bool → String) := none
  /-- Numbers; plain by default. -/
  ofNumber : Option NumberStyle := none
  /-- Texts; unchanged by default. -/
  ofText : Option (String → String) := none
  /-- Whole lists; item by item by default. -/
  ofList : Option (List Value → Except Error String) := none
  /-- Items of a list; by this shape by default. -/
  item : Option Recipe := none
  /-- What stands between items; a space by default. -/
  separator : Option String := none
  /-- Records, by their fields and a separator; not supported by default. -/
  ofRecord : Option (List Field × String) := none
  /-- What nothing else supports. -/
  ofOther : Option (Value → Except Error String) := none

/-- How one field of a record is written. -/
structure Field where
  /-- The field's name. -/
  name : String
  /-- How its value is written. -/
  recipe : Recipe
  /-- What stands before it in place of the separator. -/
  token : Option String := none

/-- How a value becomes text. -/
inductive Recipe
  /-- Every kind at its default. -/
  | plain
  /-- Each kind as a shape says. -/
  | shaped (shape : Shape)
  /-- As the catalog writes values of a category. -/
  | category (c : Category)
  /-- By a function that needs no catalog. -/
  | own (write : Value → Except Error String)
  /-- A text before what is not empty. -/
  | leading (text : String) (inner : Recipe)
  /-- Between an opening and a closing text. -/
  | enclosed (opening closing : String) (inner : Recipe)
  /-- One of two recipes, depending on the value. -/
  | choice (test : Value → Bool) (yes no : Recipe)
  /-- The items of a list with a separator between them; any other value as one item. -/
  | each (item : Recipe) (separator : String)
  /-- The first item of a list by one recipe and the others by another, with spaces between
      them; any other value as a first item. -/
  | headed (first others : Recipe)
  /-- Of a record, the text in one field, a comma, and the value of another field; any other
      value as that field's. -/
  | labelled (label field : String) (inner : Recipe)

end

namespace Recipe

/-- A list with compound items, item by item; any other value as a whole. -/
def several (inner : Recipe) (separator : String) : Recipe :=
  .choice Value.hasCompound (.each inner separator) inner

/-- Numbers with the unit of a family. -/
def numeric (family : NumericFamily) : Recipe := .shaped { ofNumber := some (.inFamily family) }

/-- Numbers by a function. -/
def numbers (write : Number → String) : Recipe := .shaped { ofNumber := some (.by write) }

/-- The category that a recipe is nothing but a name for. -/
def category? : Recipe → Option Category
  | .category c => some c
  | _ => none

end Recipe

namespace Field

/-- A field at its default. -/
def plain (name : String) : Field := ⟨name, .plain, none⟩

/-- A field of a category. -/
def ofCategory (name : String) (c : Category) : Field := ⟨name, .category c, none⟩

/-- The field with a token of its own in front. -/
def after (token : String) (field : Field) : Field := { field with token := some token }

end Field

end StyleBook
