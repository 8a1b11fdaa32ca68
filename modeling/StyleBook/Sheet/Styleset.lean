import StyleBook.Conversion.Convert
import StyleBook.Sheet.Selector

namespace StyleBook

/-!
# Stylesets

What a rule declares: properties, custom properties, and stylesets for other selectors that
depend on its own.

* `Styleset` — a styleset; a property is declared once, under its dash-case name, and is
  important or not;
* `Styleset.merge`, `Styleset.merged` — one styleset over another, and a styleset over its
  parents: properties are overwritten in place, everything else accumulates;
* `Styleset.declarations` — the declarations as text; one whose value has no text is reported
  and left out;
* `Styleset.rules` — the declarations under a selector, and those that depend on it.
-/

/-- The value of a property. -/
structure Declaration where
  /-- The value. -/
  value : Value
  /-- Whether it is `!important`. -/
  important : Bool

/-- A custom property of a styleset. -/
structure CustomProperty where
  /-- Its name. -/
  name : NameRef
  /-- The property whose values its value is written like. -/
  template : Option String
  /-- Its value. -/
  value : Value

/-- What a rule declares. -/
structure Styleset where
  /-- Properties by dash-case name. -/
  properties : List (String × Declaration)
  /-- Custom properties, in order. -/
  custom : List CustomProperty
  /-- Stylesets for selectors relative to the rule's own, in order. -/
  dependents : List (Selector × Styleset)

namespace Styleset

/-- The styleset that declares nothing. -/
def empty : Styleset := ⟨[], [], []⟩

instance : Inhabited Styleset := ⟨empty⟩

/-! ### Declaring -/

/-- The styleset with a property declared. -/
def declare (name : String) (value : Value) (important : Bool) (s : Styleset) : Styleset :=
  { s with properties := Dict.insert (dashCase name) ⟨value, important⟩ s.properties }

/-- The styleset with a property, which is not important even if it was. -/
def set (name : String) (value : Value) : Styleset → Styleset := declare name value false

/-- The styleset with an important property. -/
def setImportant (name : String) (value : Value) : Styleset → Styleset := declare name value true

/-- The styleset with a custom property. -/
def addCustom (property : CustomProperty) (s : Styleset) : Styleset :=
  { s with custom := s.custom ++ [property] }

/-- The name without the pairs of dashes it starts with. -/
def stripDashes : List Char → List Char
  | '-' :: '-' :: rest => stripDashes rest
  | name => name

/-- The styleset with a custom property of a fixed name, written with or without dashes. -/
def customNamed (token : Nat) (name : String) (value : Value) : Styleset → Styleset :=
  addCustom
    ⟨.ofName token (String.ofList (stripDashes name.toList)) .customProperty, none, value⟩

/-- The styleset with a dependent one. -/
def dependent (s : Styleset) (selector : Selector) (styles : Styleset) : Styleset :=
  { s with dependents := s.dependents ++ [(selector, styles)] }

/-- The declaration of a property, under any spelling of its name. -/
def declaration? (name : String) (s : Styleset) : Option Declaration :=
  Dict.get? (dashCase name) s.properties

/-- The value of a property. -/
def get? (name : String) (s : Styleset) : Option Value := (s.declaration? name).map (·.value)

/-- Whether a property is important. -/
def isImportant (name : String) (s : Styleset) : Bool :=
  ((s.declaration? name).map (·.important)).getD false

/-- Whether nothing at all is declared. -/
def isEmpty (s : Styleset) : Bool :=
  s.properties.isEmpty && s.custom.isEmpty && s.dependents.isEmpty

/-! ### Merging -/

/-- The styleset with another one over it. -/
def merge (s source : Styleset) : Styleset where
  properties := source.properties.foldl (fun d (name, value) => Dict.insert name value d)
    s.properties
  custom := s.custom ++ source.custom
  dependents := s.dependents ++ source.dependents

/-- Parents one over the other, and a rule's own styleset over them. -/
def merged (parents : List Styleset) (own : Styleset) : Styleset :=
  (parents.foldl merge empty).merge own

/-! ### Equality -/

/-- Equality of declared properties, whatever their order. -/
def sameProperties (a b : List (String × Declaration)) : Bool :=
  a.length == b.length && a.all fun (name, d) =>
    match Dict.get? name b with
    | some e => d.value.same e.value && d.important == e.important
    | none => false

/-- Equality of custom properties, in order. -/
def sameCustom : List CustomProperty → List CustomProperty → Bool
  | [], [] => true
  | a :: as, b :: bs =>
    a.name.same b.name && a.template == b.template && a.value.same b.value && sameCustom as bs
  | _, _ => false

mutual

/-- Equality of stylesets: properties in any order, all else in order. -/
def same : Styleset → Styleset → Bool
  | ⟨p, c, d⟩, ⟨q, e, f⟩ => sameProperties p q && sameCustom c e && sameDependents d f

/-- Equality of dependents, in order. -/
def sameDependents : List (Selector × Styleset) → List (Selector × Styleset) → Bool
  | [], [] => true
  | (a, s) :: as, (b, t) :: bs => a.same b && same s t && sameDependents as bs
  | _, _ => false

end

/-! ### Writing -/

/-- One custom property as a declaration, or nothing. -/
def customText (setting : Setting) (property : CustomProperty) : Convert String :=
  match property.name.render setting.names with
  | .error e => do
    Convert.report (.unnamedPropertySkipped e)
    return ""
  | .ok name => do
    match ← Convert.attempt
        (convert setting (setting.catalog.templateRecipe property.template) property.value) with
    | .ok text => return name ++ ":" ++ text ++ ";"
    | .error e => do
      Convert.report (.customPropertySkipped name e)
      return ""

/-- One property as a declaration, or nothing. -/
def propertyText (setting : Setting) (name : String) (d : Declaration) : Convert String := do
  match ← Convert.attempt (setting.property name d.value) with
  | .ok text => return name ++ ":" ++ text ++ (if d.important then " !important" else "") ++ ";"
  | .error e => do
    Convert.report (.declarationSkipped name e)
    return ""

/-- The declarations of custom properties. -/
def customTexts (setting : Setting) : List CustomProperty → Convert String
  | [] => return ""
  | property :: rest => do
    let text ← customText setting property
    let texts ← customTexts setting rest
    return text ++ texts

/-- The declarations of properties. -/
def propertyTexts (setting : Setting) : List (String × Declaration) → Convert String
  | [] => return ""
  | (name, d) :: rest => do
    let text ← propertyText setting name d
    let texts ← propertyTexts setting rest
    return text ++ texts

/-- The declarations as text, custom properties first. -/
def declarations (setting : Setting) (s : Styleset) : Convert String := do
  let custom ← customTexts setting s.custom
  let properties ← propertyTexts setting s.properties
  return custom ++ properties

mutual

/-- The styleset under a selector, if it declares anything, and its dependents behind it. -/
def rules (setting : Setting) (selector : String) : Styleset → Convert (List String)
  | ⟨properties, custom, dependents⟩ => do
    let text ← declarations setting ⟨properties, custom, []⟩
    let own := if text = "" then [] else [selector ++ "\x7b" ++ text ++ "\x7d"]
    let others ← dependentRules setting selector dependents
    return own ++ others

/-- The dependents of a selector, one after the other. -/
def dependentRules (setting : Setting) (owner : String) :
    List (Selector × Styleset) → Convert (List String)
  | [] => return []
  | (selector, styles) :: rest => do
    let text ← Convert.ofExcept (selector.under setting.names owner)
    let first ← rules setting text styles
    let others ← dependentRules setting owner rest
    return first ++ others

end

end Styleset

end StyleBook
