import StyleBook.Ambient
import StyleBook.Catalog.Standard
import StyleBook.Text.Blank
import StyleBook.Text.Template

namespace StyleBook

/-!
# Conversion

From values to text, by recipes.

* `Setting` — the catalog and the names that a conversion reads;
* `assemble` — the texts of fields put together, with separators and tokens;
* `convert` — the text of a value by a recipe. Every step goes to a part of the value, or
  follows a category that was not followed on this value before, or goes to a part of the
  recipe. A category that leads back to itself is the error `Error.endless`;
* `Setting.category`, `Setting.call`, `Setting.property` — a value by category, the call of a
  function, and the value of a property.
-/

/-- What a conversion reads. -/
structure Setting where
  /-- How categories, functions and properties are written. -/
  catalog : Catalog
  /-- The names that have been given. -/
  names : Names

/-- The text of a math function, from the texts of its operands. -/
def MathFunction.write (operands : List String) : MathFunction → String
  | .min => "min(" ++ ",".intercalate operands ++ ")"
  | .max => "max(" ++ ",".intercalate operands ++ ")"
  | .clamp => "clamp(" ++ ",".intercalate operands ++ ")"
  | .calc template => "calc(" ++ substitute template operands ++ ")"

/-- A number in a style. -/
def NumberStyle.write (units : UnitTable) (x : Number) : NumberStyle → String
  | .by write => write x
  | .inFamily family => family.write units x

/-- The texts of fields one after the other. Empty texts are left out; a field's token stands
    before it, without leading blanks if nothing stands before that, and other fields are
    separated. -/
def assemble (separator : String) (pieces : List (Field × String)) : String :=
  pieces.foldl (fun out (field, text) =>
    if text = "" then out
    else
      let between := match field.token with
        | some token => if out = "" then trimLeading token else token
        | none => if out = "" then "" else separator
      out ++ between ++ text) ""

/-- The first field of a record that is in no list of fields to write. -/
def unknownField? (specs : List Field) (fields : List (String × Value)) : Option String :=
  (fields.find? fun entry => !specs.any fun spec => spec.name == entry.1).map Prod.fst

/-- The categories that were not followed yet. -/
def unfollowed (followed : List Category) : List Category :=
  Category.all.filter fun c => c ∉ followed

/-- Following a category leaves fewer to follow. -/
theorem unfollowed_cons_lt {c : Category} {followed : List Category} (h : c ∉ followed) :
    (unfollowed (c :: followed)).length < (unfollowed followed).length := by
  have key : ∀ l : List Category, c ∈ l →
      (l.filter fun d => d ∉ c :: followed).length < (l.filter fun d => d ∉ followed).length := by
    intro l hl
    have weak : ∀ l : List Category,
        (l.filter fun d => d ∉ c :: followed).length ≤ (l.filter fun d => d ∉ followed).length := by
      intro l
      induction l with
      | nil => simp
      | cons d rest ih =>
        by_cases hc : d = c
        · subst hc; simp [h]; simp at ih; omega
        · by_cases hd : d ∈ followed
          · simp [hd]; simpa using ih
          · simp [hc, hd]; simpa using ih
    induction l with
    | nil => simp at hl
    | cons d rest ih =>
      by_cases hc : d = c
      · subst hc
        have := weak rest
        simp at this
        simp [h]
        omega
      · have := ih (by simpa [Ne.symm hc] using hl)
        by_cases hd : d ∈ followed
        · simp [hd]; simpa using this
        · simp [hc, hd]; simpa using this
  exact key _ (Category.mem_all c)

namespace Conversion

mutual

/-- The text of a value by a recipe. -/
def run (s : Setting) (followed : List Category) (recipe : Recipe) (v : Value) : Convert String :=
  match recipe with
  | .plain => shaped s {} v
  | .shaped shape => shaped s shape v
  | .category c =>
    if _h : c ∈ followed then throw (.endless c.name)
    else
      match s.catalog.categories.get? c with
      | some inner => run s (c :: followed) inner v
      | none => throw (.malformedDescriptor c.name "well-known function is not registered")
  | .own write => .ofExcept (write v)
  | .leading text inner => do
    let rest ← run s followed inner v
    return if rest = "" then rest else text ++ rest
  | .enclosed opening closing inner => do
    let text ← run s followed inner v
    return opening ++ text ++ closing
  | .choice test yes no =>
    if test v then run s followed yes v else run s followed no v
  | .each item separator =>
    match v with
    | .list items => do
      let parts ← runAll s item items
      return separator.intercalate parts
    | other => run s followed item other
  | .headed first others =>
    match v with
    | .list [] => return ""
    | .list (head :: items) => do
      let text ← run s [] first head
      let parts ← runAll s others items
      return " ".intercalate (text :: parts)
    | other => run s followed first other
  | .labelled label field inner =>
    match v with
    | .record fields => do
      let text ← match _h : Dict.get? field fields with
        | some value => run s [] inner value
        | none => run s [] inner .null
      match (Dict.get? label fields).bind Value.text? with
      | some label => return label ++ "," ++ text
      | none => return text
    | other => run s followed inner other
termination_by (v.weight, (unfollowed followed).length + 1, sizeOf recipe)
decreasing_by
  · exact .right _ (.left _ _ (Nat.succ_pos _))
  · exact .right _ (.left _ _ (Nat.succ_pos _))
  · exact .right _ (.left _ _ (Nat.succ_lt_succ (unfollowed_cons_lt _h)))
  · exact .right _ (.right _ (by decreasing_tactic))
  · exact .right _ (.right _ (by decreasing_tactic))
  · exact .right _ (.right _ (by decreasing_tactic))
  · exact .right _ (.right _ (by decreasing_tactic))
  · exact .left _ _ (by simp only [Value.weight]; omega)
  · exact .right _ (.right _ (by decreasing_tactic))
  · exact .left _ _ (by simp only [Value.weight, Value.itemsWeight]; omega)
  · exact .left _ _ (by simp only [Value.weight, Value.itemsWeight]; omega)
  · exact .right _ (.right _ (by decreasing_tactic))
  · exact .left _ _ (by have := Value.weight_lt_of_get? _h; simp only [Value.weight]; omega)
  · exact .left _ _ (by simp only [Value.weight]; omega)
  · exact .right _ (.right _ (by decreasing_tactic))

/-- The text of a value, each kind as a shape says. -/
def shaped (s : Setting) (shape : Shape) (v : Value) : Convert String :=
  match v with
  | .null => return shape.nullText.getD ""
  | .bool b =>
    return match shape.ofBool with
      | some write => write b
      | none => if b then "true" else "false"
  | .number x => do
    match shape.ofNumber with
    | some style => return style.write (← Convert.units) x
    | none => return x.css
  | .text t =>
    return match shape.ofText with
      | some write => write t
      | none => t
  | .list items =>
    match shape.ofList with
    | some write => .ofExcept (write items)
    | none => do
      let parts ← match shape.item with
        | some item => runAll s item items
        | none => shapedAll s shape items
      return (shape.separator.getD " ").intercalate parts
  | .record fields =>
    match shape.ofRecord with
    | some (specs, separator) => record s specs separator fields
    | none =>
      match shape.ofOther with
      | some write => .ofExcept (write (.record fields))
      | none => throw (.unsupportedValue (Value.record fields).kind "record conversion")
  | .call function args repeating => call s function args repeating
  | .ref name => .ofExcept (name.render s.names)
  | .lazy source => return source.text (← Convert.ask source.id)
  | .math id function family operands => do
    let _ ← Convert.ask id
    let texts ← operandTexts s.names family operands
    return function.write texts
  | .custom source => return source.text (← Convert.ask source.id)
termination_by (v.weight, 0, 0)
decreasing_by
  all_goals (apply Prod.Lex.left; simp only [Value.weight]; omega)

/-- The texts of the items of a list by one recipe. -/
def runAll (s : Setting) (item : Recipe) (items : List Value) : Convert (List String) :=
  match items with
  | [] => return []
  | v :: rest => do
    let text ← run s [] item v
    let texts ← runAll s item rest
    return text :: texts
termination_by (Value.itemsWeight items, 0, 0)
decreasing_by
  all_goals (apply Prod.Lex.left; simp only [Value.itemsWeight]; omega)

/-- The texts of the items of a list by one shape. -/
def shapedAll (s : Setting) (shape : Shape) (items : List Value) : Convert (List String) :=
  match items with
  | [] => return []
  | v :: rest => do
    let text ← shaped s shape v
    let texts ← shapedAll s shape rest
    return text :: texts
termination_by (Value.itemsWeight items, 0, 0)
decreasing_by
  all_goals (apply Prod.Lex.left; simp only [Value.itemsWeight]; omega)

/-- The texts of the operands of a math function. They are written by the catalog of the process,
    whatever catalog is written by otherwise; that is the standard one, since installing another one
    is left out. An operand that has no text is reported and leaves its place empty. -/
def operandTexts (names : Names) (family : NumericFamily) (operands : List Value) :
    Convert (List String) :=
  match operands with
  | [] => return []
  | v :: rest => do
    let text ← match ← Convert.attempt
        (shaped ⟨.standard, names⟩ { ofNumber := some (.inFamily family) } v) with
      | .ok text => pure text
      | .error e => do
        Convert.report (.operandDropped family.name e)
        pure ""
    let texts ← operandTexts names family rest
    return text :: texts
termination_by (Value.itemsWeight operands, 0, 0)
decreasing_by
  all_goals (apply Prod.Lex.left; simp only [Value.itemsWeight]; omega)

/-- The text of a record by its fields. A field that is not to be written is an error. -/
def record (s : Setting) (specs : List Field) (separator : String)
    (fields : List (String × Value)) : Convert String :=
  match unknownField? specs fields with
  | some name => throw (.unsupportedValue "record field" ("unknown field '" ++ name ++ "'"))
  | none => do
    let pieces ← fieldTexts s specs fields
    return assemble separator pieces
termination_by (Value.fieldsWeight fields, 0, specs.length + 1)
decreasing_by
  all_goals (apply Prod.Lex.right; apply Prod.Lex.right; omega)

/-- The texts of the fields that are there and not null, in the order in which they are
    written. -/
def fieldTexts (s : Setting) (specs : List Field) (fields : List (String × Value)) :
    Convert (List (Field × String)) :=
  match specs with
  | [] => return []
  | spec :: rest =>
    match _h : Dict.get? spec.name fields with
    | none => fieldTexts s rest fields
    | some v =>
      if v.isNull then fieldTexts s rest fields
      else do
        let text ← run s [] spec.recipe v
        let pieces ← fieldTexts s rest fields
        return (spec, text) :: pieces
termination_by (Value.fieldsWeight fields, 0, specs.length)
decreasing_by
  · exact .right _ (.right _ (Nat.lt_succ_self _))
  · exact .right _ (.right _ (Nat.lt_succ_self _))
  · exact .left _ _ (Value.weight_lt_of_get? _h)
  · exact .right _ (.right _ (Nat.lt_succ_self _))

/-- The text of a call, as the catalog describes the function. -/
def call (s : Setting) (function : String) (args : Value) (repeating : Bool) : Convert String :=
  match s.catalog.descriptor? function with
  | none => throw (.unsupportedValue "function" ("unregistered function '" ++ function ++ "'"))
  | some d =>
    if repeating && !d.repeatable then
      throw (.unsupportedValue "repeating" ("function '" ++ d.name ++ "'"))
    else do
      let body ← match d.arguments with
        | .whole recipe => do
          .ofExcept (d.checkWhole args)
          run s [] recipe args
        | .params params separator =>
          match _h : d.fieldsFor params args with
          | .error e => throw e
          | .ok fields =>
            Convert.mapError (d.explain args) (record s params separator fields)
      return (if repeating then "repeating-" else "") ++ d.name ++ "(" ++ body ++ ")"
termination_by (1 + args.weight, 1, 0)
decreasing_by
  · exact .left _ _ (Nat.lt_add_of_pos_left Nat.one_pos)
  · have h := Descriptor.fieldsWeight_of_fieldsFor _h
    by_cases hw : Value.fieldsWeight fields = 1 + args.weight
    · exact hw ▸ .right _ (.left _ _ Nat.one_pos)
    · exact .left _ _ (Nat.lt_of_le_of_ne h hw)

end

end Conversion

/-- The text of a value by a recipe. -/
def convert (s : Setting) (recipe : Recipe) (v : Value) : Convert String :=
  Conversion.run s [] recipe v

namespace Setting

/-- The text of a value of a category. -/
def category (s : Setting) (c : Category) (v : Value) : Convert String :=
  convert s (.category c) v

/-- The text of a call. -/
def call (s : Setting) (function : String) (args : Value) (repeating : Bool) : Convert String :=
  Conversion.call s function args repeating

/-- The text of the value of a property. -/
def property (s : Setting) (name : String) (v : Value) : Convert String :=
  convert s (s.catalog.propertyRecipe name) v

end Setting

end StyleBook
