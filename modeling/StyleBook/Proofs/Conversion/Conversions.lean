import Mathlib.Order.WellFounded
import StyleBook.Conversion.Convert

namespace StyleBook

/-!
# Conversions, one step at a time

The text of a value is put together from texts that its conversion asks for: those of its parts, and
that of the value itself by another recipe.

* `Conversion.Task` — a value and the recipe to write it by;
* `Conversion.Leads`, `Conversion.Operates` — a conversion asks for another one, or for the operand
  of a math function, which is written by the standard catalog;
* `Conversion.calls_wf` — there is an end to this;
* `Conversion.outline` — what a conversion makes of the texts that it asks for;
  `Conversion.text_eq` — its text is made of them, and `Conversion.outline_congr` — of nothing else.
-/

/-- The shape of a recipe that is nothing but a shape. -/
def Recipe.shape? : Recipe → Option Shape
  | .plain => some {}
  | .shaped shape => some shape
  | _ => none

namespace Conversion

/-! ### What a conversion asks for -/

/-- A value to be converted by a recipe, on which some categories were followed. -/
structure Task where
  /-- The categories that were followed on the value. -/
  followed : List Category
  /-- How it is written. -/
  recipe : Recipe
  /-- The value. -/
  value : Value

/-- The text that is asked for. -/
def Task.text (s : Setting) (t : Task) : Convert String := run s t.followed t.recipe t.value

/-- **A conversion asks for another one:** of the same value by another recipe, or of a part of the
    value. Only for the same value it is remembered which categories were followed. -/
inductive Leads (catalog : Catalog) : Task → Task → Prop
  | item {followed recipe shape items v} (h : recipe.shape? = some shape)
    (hlist : shape.ofList = none) (hv : v ∈ items) :
    Leads catalog ⟨followed, recipe, .list items⟩ ⟨[], shape.item.getD recipe, v⟩
  | field {followed recipe shape specs separator spec fields v} (h : recipe.shape? = some shape)
    (hrecord : shape.ofRecord = some (specs, separator)) (hspec : spec ∈ specs)
    (hv : Dict.get? spec.name fields = some v) (hnull : v.isNull = false) :
    Leads catalog ⟨followed, recipe, .record fields⟩ ⟨[], spec.recipe, v⟩
  | whole {followed recipe shape function args repeating d inner} (h : recipe.shape? = some shape)
    (hd : catalog.descriptor? function = some d) (hargs : d.arguments = .whole inner) :
    Leads catalog ⟨followed, recipe, .call function args repeating⟩ ⟨[], inner, args⟩
  | argument {followed recipe shape function args repeating d params separator fields spec v}
    (h : recipe.shape? = some shape) (hd : catalog.descriptor? function = some d)
    (hargs : d.arguments = .params params separator)
    (hfields : d.fieldsFor params args = .ok fields)
    (hspec : spec ∈ params) (hv : Dict.get? spec.name fields = some v) (hnull : v.isNull = false) :
    Leads catalog ⟨followed, recipe, .call function args repeating⟩ ⟨[], spec.recipe, v⟩
  | category {followed c inner v} (hc : c ∉ followed) (h : catalog.categories.get? c = some inner) :
    Leads catalog ⟨followed, .category c, v⟩ ⟨c :: followed, inner, v⟩
  | leading {followed text inner v} :
    Leads catalog ⟨followed, .leading text inner, v⟩ ⟨followed, inner, v⟩
  | enclosed {followed opening closing inner v} :
    Leads catalog ⟨followed, .enclosed opening closing inner, v⟩ ⟨followed, inner, v⟩
  | yes {followed test yes no v} (h : test v = true) :
    Leads catalog ⟨followed, .choice test yes no, v⟩ ⟨followed, yes, v⟩
  | no {followed test yes no v} (h : test v = false) :
    Leads catalog ⟨followed, .choice test yes no, v⟩ ⟨followed, no, v⟩
  | each {followed item separator items v} (hv : v ∈ items) :
    Leads catalog ⟨followed, .each item separator, .list items⟩ ⟨[], item, v⟩
  | one {followed item separator v} (h : ∀ items, v ≠ .list items) :
    Leads catalog ⟨followed, .each item separator, v⟩ ⟨followed, item, v⟩
  | head {followed first others v items} :
    Leads catalog ⟨followed, .headed first others, .list (v :: items)⟩ ⟨[], first, v⟩
  | others {followed first others head items v} (hv : v ∈ items) :
    Leads catalog ⟨followed, .headed first others, .list (head :: items)⟩ ⟨[], others, v⟩
  | alone {followed first others v} (h : ∀ items, v ≠ .list items) :
    Leads catalog ⟨followed, .headed first others, v⟩ ⟨followed, first, v⟩
  | labelled {followed label field inner fields} :
    Leads catalog ⟨followed, .labelled label field inner, .record fields⟩
      ⟨[], inner, (Dict.get? field fields).getD .null⟩
  | unlabelled {followed label field inner v} (h : ∀ fields, v ≠ .record fields) :
    Leads catalog ⟨followed, .labelled label field inner, v⟩ ⟨followed, inner, v⟩

/-- **A conversion asks for an operand of a math function,** whose numbers have
    the unit of a family. -/
inductive Operates : Task → Task → Prop
  | operand {followed recipe shape id function family operands v} (h : recipe.shape? = some shape)
    (hv : v ∈ operands) :
    Operates ⟨followed, recipe, .math id function family operands⟩ ⟨[], .numeric family, v⟩

/-- A conversion asks for another one, or for an operand. -/
def Calls (catalog : Catalog) (t t' : Task) : Prop := Leads catalog t t' ∨ Operates t t'

/-! ### There is an end to it -/

/-- An item weighs less than the items it is among. -/
theorem weight_lt_of_mem {v : Value} {items : List Value} (h : v ∈ items) :
    v.weight < Value.itemsWeight items := by
  induction items with
  | nil => simp at h
  | cons w rest ih =>
    simp only [Value.itemsWeight]
    rcases List.mem_cons.mp h with rfl | h
    · omega
    · have := ih h
      omega

/-- A field of a record, or no value, weighs less than the record. -/
theorem weight_getD_lt (name : String) (fields : List (String × Value)) :
    ((Dict.get? name fields).getD .null).weight < (Value.record fields).weight := by
  cases h : Dict.get? name fields with
  | none =>
    simp only [Option.getD_none, Value.weight]
    omega
  | some v =>
    have := Value.weight_lt_of_get? h
    simp only [Option.getD_some, Value.weight]
    omega

/-- **The recipe passes a value on to a part of it.** -/
inductive Passes : Recipe → Recipe → Prop
  | leading {text inner} : Passes (.leading text inner) inner
  | enclosed {opening closing inner} : Passes (.enclosed opening closing inner) inner
  | yes {test yes no} : Passes (.choice test yes no) yes
  | no {test yes no} : Passes (.choice test yes no) no
  | each {item separator} : Passes (.each item separator) item
  | headed {first others} : Passes (.headed first others) first
  | labelled {label field inner} : Passes (.labelled label field inner) inner

/-- **What a conversion asks for is about a lighter value,** on which nothing was followed, **or
    about the same one:** then a category was followed that was not before, or the
    recipe passed the value on. -/
theorem Leads.lighter {catalog : Catalog} {t t' : Task} (h : Leads catalog t t') :
    (t'.value.weight < t.value.weight ∧ t'.followed = []) ∨ t'.value = t.value ∧
      ((∃ c, t.recipe = .category c ∧ c ∉ t.followed ∧ catalog.categories.get? c = some t'.recipe ∧
          t'.followed = c :: t.followed) ∨
        t'.followed = t.followed ∧ Passes t.recipe t'.recipe) := by
  cases h with
  | item _ _ hv =>
    refine .inl ⟨?_, rfl⟩
    have := weight_lt_of_mem hv
    simp only [Value.weight]
    omega
  | field _ _ _ hv _ =>
    refine .inl ⟨?_, rfl⟩
    have := Value.weight_lt_of_get? hv
    simp only [Value.weight]
    omega
  | whole =>
    refine .inl ⟨?_, rfl⟩
    simp only [Value.weight]
    omega
  | argument _ _ _ hfields _ hv _ =>
    refine .inl ⟨?_, rfl⟩
    have hv := Value.weight_lt_of_get? hv
    have hfields := Descriptor.fieldsWeight_of_fieldsFor hfields
    simp only [Value.weight]
    omega
  | each hv =>
    refine .inl ⟨?_, rfl⟩
    have := weight_lt_of_mem hv
    simp only [Value.weight]
    omega
  | head =>
    refine .inl ⟨?_, rfl⟩
    simp only [Value.weight, Value.itemsWeight]
    omega
  | others hv =>
    refine .inl ⟨?_, rfl⟩
    have := weight_lt_of_mem hv
    simp only [Value.weight, Value.itemsWeight]
    omega
  | labelled => exact .inl ⟨weight_getD_lt _ _, rfl⟩
  -- All others stay with the value.
  | @category _ c _ _ hc h => exact .inr ⟨rfl, .inl ⟨c, rfl, hc, h, rfl⟩⟩
  | leading => exact .inr ⟨rfl, .inr ⟨rfl, .leading⟩⟩
  | enclosed => exact .inr ⟨rfl, .inr ⟨rfl, .enclosed⟩⟩
  | yes => exact .inr ⟨rfl, .inr ⟨rfl, .yes⟩⟩
  | no => exact .inr ⟨rfl, .inr ⟨rfl, .no⟩⟩
  | one => exact .inr ⟨rfl, .inr ⟨rfl, .each⟩⟩
  | alone => exact .inr ⟨rfl, .inr ⟨rfl, .headed⟩⟩
  | unlabelled => exact .inr ⟨rfl, .inr ⟨rfl, .labelled⟩⟩

/-- A part is smaller. -/
theorem Passes.sizeOf_lt {recipe inner : Recipe} (h : Passes recipe inner) :
    sizeOf inner < sizeOf recipe := by
  cases h <;> decreasing_tactic

/-- An operand is lighter than the math function. -/
theorem Operates.lighter {t t' : Task} (h : Operates t t') : t'.value.weight < t.value.weight := by
  cases h with
  | operand _ hv =>
    have := weight_lt_of_mem hv
    simp only [Value.weight]
    omega

/-- **Conversions come to an end,** whatever the catalog. -/
theorem calls_wf (catalog : Catalog) : WellFounded fun t' t => Calls catalog t t' := by
  let size (t : Task) := (t.value.weight, (unfollowed t.followed).length, sizeOf t.recipe)
  have hsize : WellFounded (Prod.Lex (· < ·) (Prod.Lex (· < ·) (· < ·)) :
      Nat × Nat × Nat → Nat × Nat × Nat → Prop) :=
    WellFounded.prod_lex Nat.lt_wfRel.wf (WellFounded.prod_lex Nat.lt_wfRel.wf Nat.lt_wfRel.wf)
  refine Subrelation.wf (fun {t' t} h => ?_) (InvImage.wf size hsize)
  show Prod.Lex _ _ (size t') (size t)
  rcases h with h | h
  · rcases h.lighter with ⟨h, -⟩ | ⟨hvalue, ⟨c, -, hc, -, hfollowed⟩ | ⟨hfollowed, h⟩⟩
    · exact .left _ _ h
    · simp only [size, hvalue, hfollowed]
      exact .right _ (.left _ _ (unfollowed_cons_lt hc))
    · simp only [size, hvalue, hfollowed]
      exact .right _ (.right _ h.sizeOf_lt)
  · exact .left _ _ h.lighter

/-! ### What it makes of the answers -/

/-- The texts of items, one after the other. -/
def textsBy (write : Value → Convert String) : List Value → Convert (List String)
  | [] => return []
  | v :: rest => do
    let text ← write v
    let texts ← textsBy write rest
    return text :: texts

/-- The texts of the fields that are there and not null. -/
def fieldTextsBy (write : Recipe → Value → Convert String) (fields : List (String × Value)) :
    List Field → Convert (List (Field × String))
  | [] => return []
  | spec :: rest =>
    match Dict.get? spec.name fields with
    | none => fieldTextsBy write fields rest
    | some v =>
      if v.isNull then fieldTextsBy write fields rest
      else do
        let text ← write spec.recipe v
        let pieces ← fieldTextsBy write fields rest
        return (spec, text) :: pieces

/-- The text of a record, if there is no field that is not to be written. -/
def recordBy (write : Recipe → Value → Convert String) (specs : List Field) (separator : String)
    (fields : List (String × Value)) : Convert String :=
  match unknownField? specs fields with
  | some name => throw (.unsupportedValue "record field" ("unknown field '" ++ name ++ "'"))
  | none => do
    let pieces ← fieldTextsBy write fields specs
    return assemble separator pieces

/-- The text of an operand, or nothing, which is reported, if it has none. -/
def orDropped (family : NumericFamily) (text : Convert String) : Convert String := do
  match ← Convert.attempt text with
  | .ok text => return text
  | .error e => do
    Convert.report (.operandDropped family.name e)
    return ""

section Outline

variable (s : Setting) (ask operand : Task → Convert String)

/-- The arguments of a call, if the function takes them. -/
def argumentsBy (d : Descriptor) (args : Value) : Convert String :=
  match d.arguments with
  | .whole inner => do
    .ofExcept (d.checkWhole args)
    ask ⟨[], inner, args⟩
  | .params params separator =>
    match d.fieldsFor params args with
    | .error e => throw e
    | .ok fields =>
      Convert.mapError (d.explain args)
        (recordBy (fun inner v => ask ⟨[], inner, v⟩) params separator fields)

/-- The text of a call, if there is such a function. -/
def callBy (function : String) (args : Value) (repeating : Bool) : Convert String :=
  match s.catalog.descriptor? function with
  | none => throw (.unsupportedValue "function" ("unregistered function '" ++ function ++ "'"))
  | some d =>
    if repeating && !d.repeatable then
      throw (.unsupportedValue "repeating" ("function '" ++ d.name ++ "'"))
    else do
      let body ← argumentsBy ask d args
      return (if repeating then "repeating-" else "") ++ d.name ++ "(" ++ body ++ ")"

/-- The text of a value as a shape says, and its items, if it is a list, by a recipe. -/
def shapedBy (shape : Shape) (item : Recipe) : Value → Convert String
  | .null => return shape.nullText.getD ""
  | .bool b =>
    return match shape.ofBool with
      | some write => write b
      | none => if b then "true" else "false"
  | .number x => do
    match shape.ofNumber with
    | some style => return style.write (← Convert.units) x
    | none => return x.css
  | .text t =>
    return match shape.ofText with
      | some write => write t
      | none => t
  | .list items =>
    match shape.ofList with
    | some write => .ofExcept (write items)
    | none => do
      let parts ← textsBy (fun v => ask ⟨[], item, v⟩) items
      return (shape.separator.getD " ").intercalate parts
  | .record fields =>
    match shape.ofRecord with
    | some (specs, separator) => recordBy (fun inner v => ask ⟨[], inner, v⟩) specs separator fields
    | none =>
      match shape.ofOther with
      | some write => .ofExcept (write (.record fields))
      | none => throw (.unsupportedValue (Value.record fields).kind "record conversion")
  | .call function args repeating => callBy s ask function args repeating
  | .ref name => .ofExcept (name.render s.names)
  | .lazy source => return source.text (← Convert.ask source.id)
  | .math id function family operands => do
    let _ ← Convert.ask id
    let texts ← textsBy (fun v => orDropped family (operand ⟨[], .numeric family, v⟩)) operands
    return function.write texts
  | .custom source => return source.text (← Convert.ask source.id)

/-- **What a conversion makes of the texts that it asks for,** those of operands apart. -/
def outline : Task → Convert String
  | ⟨_, .plain, v⟩ => shapedBy s ask operand {} .plain v
  | ⟨_, .shaped shape, v⟩ => shapedBy s ask operand shape (shape.item.getD (.shaped shape)) v
  | ⟨followed, .category c, v⟩ =>
    if c ∈ followed then throw (.endless c.name)
    else
      match s.catalog.categories.get? c with
      | some inner => ask ⟨c :: followed, inner, v⟩
      | none => throw (.malformedDescriptor c.name "well-known function is not registered")
  | ⟨_, .own write, v⟩ => .ofExcept (write v)
  | ⟨followed, .leading text inner, v⟩ => do
    let rest ← ask ⟨followed, inner, v⟩
    return if rest = "" then rest else text ++ rest
  | ⟨followed, .enclosed opening closing inner, v⟩ => do
    let text ← ask ⟨followed, inner, v⟩
    return opening ++ text ++ closing
  | ⟨followed, .choice test yes no, v⟩ =>
    if test v then ask ⟨followed, yes, v⟩ else ask ⟨followed, no, v⟩
  | ⟨followed, .each item separator, v⟩ =>
    match v with
    | .list items => do
      let parts ← textsBy (fun v => ask ⟨[], item, v⟩) items
      return separator.intercalate parts
    | other => ask ⟨followed, item, other⟩
  | ⟨followed, .headed first others, v⟩ =>
    match v with
    | .list [] => return ""
    | .list (head :: items) => do
      let text ← ask ⟨[], first, head⟩
      let parts ← textsBy (fun v => ask ⟨[], others, v⟩) items
      return " ".intercalate (text :: parts)
    | other => ask ⟨followed, first, other⟩
  | ⟨followed, .labelled label field inner, v⟩ =>
    match v with
    | .record fields => do
      let text ← ask ⟨[], inner, (Dict.get? field fields).getD .null⟩
      match (Dict.get? label fields).bind Value.text? with
      | some label => return label ++ "," ++ text
      | none => return text
    | other => ask ⟨followed, inner, other⟩

end Outline

section Equations

variable {s : Setting} {spec : Field} {rest : List Field} {fields : List (String × Value)}
  {v : Value}

/-- A field that is not there is left out. -/
theorem fieldTexts_none (h : Dict.get? spec.name fields = none) :
    fieldTexts s (spec :: rest) fields = fieldTexts s rest fields := by
  rw [fieldTexts.eq_def]
  simp only
  split
  · rfl
  · next h' =>
    rw [h] at h'
    cases h'

/-- A field that is there has the text of its value, unless it is null. -/
theorem fieldTexts_some (h : Dict.get? spec.name fields = some v) :
    fieldTexts s (spec :: rest) fields =
      if v.isNull then fieldTexts s rest fields
      else do
        let text ← run s [] spec.recipe v
        let pieces ← fieldTexts s rest fields
        return (spec, text) :: pieces := by
  rw [fieldTexts.eq_def]
  simp only
  split
  · next h' =>
    rw [h] at h'
    cases h'
  · next h' =>
    rw [h] at h'
    cases h'
    rfl

/-- The text of a record by one of its fields, with another one as a label. -/
theorem run_labelled (s : Setting) (followed : List Category) (label field : String)
    (inner : Recipe) (fields : List (String × Value)) :
    run s followed (.labelled label field inner) (.record fields) = (do
      let text ← run s [] inner ((Dict.get? field fields).getD .null)
      match (Dict.get? label fields).bind Value.text? with
      | some label => return label ++ "," ++ text
      | none => return text) := by
  rw [run.eq_def]
  simp only
  split <;> next h => rw [h]; rfl

/-- The text of a call, from the text of its arguments. -/
theorem call_eq (s : Setting) (function : String) (args : Value) (repeating : Bool) :
    call s function args repeating = (match s.catalog.descriptor? function with
      | none => throw (.unsupportedValue "function" ("unregistered function '" ++ function ++ "'"))
      | some d =>
        if repeating && !d.repeatable then
          throw (.unsupportedValue "repeating" ("function '" ++ d.name ++ "'"))
        else do
          let body ← match d.arguments with
            | .whole recipe => do
              Convert.ofExcept (d.checkWhole args)
              run s [] recipe args
            | .params params separator =>
              match d.fieldsFor params args with
              | .error e => throw e
              | .ok fields => Convert.mapError (d.explain args) (record s params separator fields)
          return (if repeating then "repeating-" else "") ++ d.name ++ "(" ++ body ++ ")") := by
  -- The text of the call is defined with the equations of the others, so it is unfolded once here.
  rw [call.eq_def]
  cases s.catalog.descriptor? function with
  | none => rfl
  | some d =>
    simp only
    split
    · rfl
    · cases d.arguments with
      | whole recipe => rfl
      | params params separator =>
        simp only
        split <;> next h => rw [h]

/-- Items are written one after the other. -/
theorem runAll_eq (item : Recipe) (items : List Value) :
    runAll s item items = textsBy (run s [] item) items := by
  induction items with
  | nil => rw [runAll, textsBy]
  | cons v rest ih => rw [runAll, textsBy, ih]

/-- So are items by a shape. -/
theorem shapedAll_eq (shape : Shape) (items : List Value) :
    shapedAll s shape items = textsBy (shaped s shape) items := by
  induction items with
  | nil => rw [shapedAll, textsBy]
  | cons v rest ih => rw [shapedAll, textsBy, ih]

/-- So are operands, by the standard catalog. -/
theorem operandTexts_eq (names : Names) (family : NumericFamily) (operands : List Value) :
    operandTexts names family operands =
      textsBy (fun v => orDropped family (run ⟨.standard, names⟩ [] (.numeric family) v))
      operands := by
  induction operands with
  | nil => rw [operandTexts, textsBy]
  | cons v rest ih =>
    rw [operandTexts, textsBy, ih, Recipe.numeric, run, orDropped, bind_assoc]
    congr 1
    funext result
    cases result with
    | ok text => simp only [pure_bind]
    | error err => simp only [bind_assoc, pure_bind]

/-- Fields are written in the order of their list. -/
theorem fieldTexts_eq (specs : List Field) (fields : List (String × Value)) :
    fieldTexts s specs fields = fieldTextsBy (run s []) fields specs := by
  induction specs with
  | nil => rw [fieldTexts, fieldTextsBy]
  | cons spec rest ih =>
    rw [fieldTextsBy]
    cases h : Dict.get? spec.name fields with
    | none => rw [fieldTexts_none h, ih]
    | some v => rw [fieldTexts_some h, ih]

theorem record_eq (specs : List Field) (separator : String) (fields : List (String × Value)) :
    record s specs separator fields = recordBy (run s []) specs separator fields := by
  rw [record, recordBy]
  cases unknownField? specs fields with
  | some name => rfl
  | none => simp only [fieldTexts_eq]

theorem call_eq_callBy (function : String) (args : Value) (repeating : Bool) :
    call s function args repeating = callBy s (Task.text s) function args repeating := by
  rw [call_eq, callBy]
  cases s.catalog.descriptor? function with
  | none => rfl
  | some d =>
    simp only [record_eq]
    split
    · rfl
    · unfold argumentsBy
      cases d.arguments with
      | whole recipe =>
        simp only [bind_assoc]
        rfl
      | params params separator =>
        simp only
        split <;> rfl

/-- A recipe that is nothing but a shape writes as the shape says. -/
theorem run_eq_shaped {recipe : Recipe} {shape : Shape} (h : recipe.shape? = some shape)
    (followed : List Category) (v : Value) : run s followed recipe v = shaped s shape v := by
  cases recipe with
  | plain =>
    cases h
    rw [run]
  | shaped shape' =>
    cases h
    rw [run]
  | _ => cases h

/-- So does a category with such a recipe. -/
theorem run_category_eq_shaped {c : Category} {recipe : Recipe} {shape : Shape}
    (h : s.catalog.categories.get? c = some recipe)
    (hshape : recipe.shape? = some shape) (v : Value) :
    run s [] (.category c) v = shaped s shape v := by
  rw [run, dif_neg List.not_mem_nil]
  simp only [h]
  exact run_eq_shaped hshape [c] v

/-- A shape writes what the recipe of the shape alone writes. -/
theorem shaped_eq_shapedBy {recipe : Recipe} {shape : Shape}
    (h : recipe.shape? = some shape) (v : Value) :
    shaped s shape v =
      shapedBy s (Task.text s) (Task.text ⟨.standard, s.names⟩) shape
      (shape.item.getD recipe) v := by
  have hrun : run s [] recipe = shaped s shape := funext fun v => run_eq_shaped h [] v
  rw [shaped.eq_def]
  -- Lists, records, calls and math functions ask for other texts; all other values are written at
  -- once.
  cases v with
  | list items =>
    unfold shapedBy
    simp only [runAll_eq, shapedAll_eq]
    cases shape.ofList with
    | some write => rfl
    | none =>
      cases shape.item with
      | some item => rfl
      | none =>
        rw [← hrun]
        rfl
  | record fields =>
    unfold shapedBy
    simp only [record_eq]
    rfl
  | call function args repeating => exact call_eq_callBy function args repeating
  | math id function family operands =>
    unfold shapedBy
    simp only [operandTexts_eq]
    rfl
  | _ => rfl

/-- **The text of a conversion is made of the texts that it asks for.** -/
theorem text_eq (s : Setting) (t : Task) :
    t.text s = outline s (Task.text s) (Task.text ⟨.standard, s.names⟩) t := by
  obtain ⟨followed, recipe, v⟩ := t
  unfold Task.text
  -- Each kind of recipe asks for what its outline names.
  cases recipe with
  | plain =>
    rw [run, shaped_eq_shapedBy (show Recipe.plain.shape? = some {} from rfl)]
    rfl
  | shaped shape =>
    rw [run, shaped_eq_shapedBy (show (Recipe.shaped shape).shape? = some shape from rfl)]
    rfl
  | category c =>
    rw [run]
    rfl
  | own write => rw [run, outline]
  | leading text inner => rw [run, outline]
  | enclosed opening closing inner => rw [run, outline]
  | choice test yes no => rw [run, outline]
  | each item separator =>
    rw [run.eq_def, outline.eq_def]
    cases v with
    | list items => simp only [runAll_eq]
    | _ => rfl
  | headed first others =>
    rw [run.eq_def, outline.eq_def]
    cases v with
    | list items =>
      cases items with
      | nil => rfl
      | cons head items => simp only [runAll_eq]
    | _ => rfl
  | labelled label field inner =>
    cases v with
    | record fields =>
      rw [run_labelled]
      rfl
    | _ =>
      rw [run.eq_def]
      rfl

end Equations

/-! ### It makes it of nothing else -/

section Congruence

variable {s s' : Setting} {ask ask' operand operand' : Task → Convert String}

theorem textsBy_congr {write write' : Value → Convert String} {items : List Value}
    (h : ∀ v ∈ items, write v = write' v) : textsBy write items = textsBy write' items := by
  induction items with
  | nil => rfl
  | cons v rest ih =>
    rw [List.forall_mem_cons] at h
    rw [textsBy, textsBy, h.1, ih h.2]

theorem fieldTextsBy_congr {write write' : Recipe → Value → Convert String}
    {fields : List (String × Value)} {specs : List Field}
    (h : ∀ spec ∈ specs, ∀ v, Dict.get? spec.name fields = some v → v.isNull = false →
      write spec.recipe v = write' spec.recipe v) :
    fieldTextsBy write fields specs = fieldTextsBy write' fields specs := by
  induction specs with
  | nil => rfl
  | cons spec rest ih =>
    rw [List.forall_mem_cons] at h
    rw [fieldTextsBy, fieldTextsBy, ih h.2]
    cases hv : Dict.get? spec.name fields with
    | none => rfl
    | some v =>
      cases hnull : v.isNull with
      | true => simp only [hnull, if_true]
      | false => simp only [h.1 v hv hnull]

theorem recordBy_congr {write write' : Recipe → Value → Convert String}
    {fields : List (String × Value)} {specs : List Field} {separator : String}
    (h : ∀ spec ∈ specs, ∀ v, Dict.get? spec.name fields = some v → v.isNull = false →
      write spec.recipe v = write' spec.recipe v) :
    recordBy write specs separator fields = recordBy write' specs separator fields := by
  rw [recordBy, recordBy, fieldTextsBy_congr h]

/-- **Both settings know the same** of the category that a task is about, and of the function that
    is called. -/
structure SameFor (s s' : Setting) (t : Task) : Prop where
  names : s.names = s'.names
  category {c} : t.recipe = .category c → s.catalog.categories.get? c = s'.catalog.categories.get? c
  function {function args repeating} : t.value = .call function args repeating →
    s.catalog.descriptor? function = s'.catalog.descriptor? function

/-- **What a conversion makes depends on the texts that it asks for only.** -/
theorem outline_congr {t : Task} (hs : SameFor s s' t)
    (hask : ∀ t', Leads s.catalog t t' → ask t' = ask' t')
    (hoperand : ∀ t', Operates t t' → operand t' = operand' t') :
    outline s ask operand t = outline s' ask' operand' t := by
  obtain ⟨followed, recipe, v⟩ := t
  -- A recipe that is a shape leads to parts of the value.
  have hshaped : ∀ {shape : Shape}, recipe.shape? = some shape →
      shapedBy s ask operand shape (shape.item.getD recipe) v =
        shapedBy s' ask' operand' shape (shape.item.getD recipe) v := by
    intro shape h
    cases v with
    | list items =>
      unfold shapedBy
      cases hlist : shape.ofList with
      | some write => rfl
      | none => simp only [textsBy_congr fun v hv => hask _ (.item h hlist hv)]
    | record fields =>
      unfold shapedBy
      cases hrecord : shape.ofRecord with
      | some written =>
        exact recordBy_congr fun spec hspec v hv hnull => hask _ (.field h hrecord hspec hv hnull)
      | none => rfl
    | call function args repeating =>
      show callBy s ask function args repeating = callBy s' ask' function args repeating
      unfold callBy
      rw [← hs.function rfl]
      cases hd : s.catalog.descriptor? function with
      | none => rfl
      | some d =>
        have hargs : argumentsBy ask d args = argumentsBy ask' d args := by
          unfold argumentsBy
          cases hargs : d.arguments with
          | whole inner => simp only [hask _ (.whole h hd hargs)]
          | params params separator =>
            cases hfields : d.fieldsFor params args with
            | error err => simp only [hfields]
            | ok fields =>
              simp only [hfields]
              exact congrArg (Convert.mapError _) (recordBy_congr fun spec hspec v hv hnull =>
                hask _ (.argument h hd hargs hfields hspec hv hnull))
        simp only [hargs]
    | ref name =>
      show Convert.ofExcept (name.render s.names) = Convert.ofExcept (name.render s'.names)
      rw [hs.names]
    | math id function family operands =>
      unfold shapedBy
      simp only [textsBy_congr fun v hv =>
        congrArg (orDropped family) (hoperand _ (.operand h hv))]
    | _ => rfl
  cases recipe with
  | plain => exact hshaped rfl
  | shaped shape => exact hshaped rfl
  | category c =>
    rw [outline, outline]
    rw [← hs.category rfl]
    by_cases hc : c ∈ followed
    · rw [if_pos hc, if_pos hc]
    · rw [if_neg hc, if_neg hc]
      cases h : s.catalog.categories.get? c with
      | none => rfl
      | some inner => exact hask _ (.category hc h)
  | own write => rfl
  | leading text inner =>
    rw [outline, outline]
    rw [hask _ .leading]
  | enclosed opening closing inner =>
    rw [outline, outline]
    rw [hask _ .enclosed]
  | choice test yes no =>
    rw [outline, outline]
    cases h : test v with
    | true => exact hask _ (.yes h)
    | false => exact hask _ (.no h)
  | each item separator =>
    cases v with
    | list items => rw [outline, outline, textsBy_congr fun v hv => hask _ (.each hv)]
    | _ => exact hask _ (.one fun _ h => by cases h)
  | headed first others =>
    cases v with
    | list items =>
      cases items with
      | nil => rfl
      | cons head items =>
        rw [outline, outline, hask _ .head, textsBy_congr fun v hv => hask _ (.others hv)]
    | _ => exact hask _ (.alone fun _ h => by cases h)
  | labelled label field inner =>
    cases v with
    | record fields => rw [outline, outline, hask _ .labelled]
    | _ => exact hask _ (.unlabelled fun _ h => by cases h)

end Congruence

end Conversion

end StyleBook
