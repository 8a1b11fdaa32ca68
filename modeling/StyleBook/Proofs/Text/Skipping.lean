import StyleBook.Proofs.Conversion.Operands

namespace StyleBook

/-!
# Skipped declarations

A declaration is skipped as a whole if its value has a part that can never be converted, however
deep it is reached. Operands of math functions are the exception: they are left out of the text.

* `Convert.Barren` — a conversion that never has a result;
* `Conversion.Leads.barren` — a conversion that asks for one never has a result either;
* `Conversion.Stuck`, `Conversion.Stuck.barren` — records without a recipe, functions that are not
  there, and mentions of missing names can never be converted;
* `Styleset.declarations_skip` — what is written of a styleset with such a declaration;
* `Styleset.operand_left_out` — a declaration is written though an operand is missing.
-/

namespace Convert

variable {α β : Type}

/-- **The conversion never has a result.** -/
def Barren (c : Convert α) : Prop := ∀ a, ∃ err, (c a).1 = .error err

namespace Barren

/-- A failure has no result. -/
theorem throw (err : Error) : Barren (MonadExcept.throw err : Convert α) := fun _ => ⟨err, rfl⟩

/-- Nothing comes after it. -/
theorem bind_left {c : Convert α} (hc : Barren c) (f : α → Convert β) : Barren
    (c >>= f) := fun a => by
  obtain ⟨err, herr⟩ := hc a
  refine ⟨err, ?_⟩
  rw [stateful_bind]
  rcases hrun : c a with ⟨result, b⟩
  rw [hrun] at herr
  cases herr
  rfl

/-- It makes no difference what comes before it. -/
theorem bind_right (c : Convert α) {f : α → Convert β} (hf : ∀ x, Barren (f x)) :
    Barren (c >>= f) :=
  fun a => by
    rw [stateful_bind]
    rcases c a with ⟨err | x, b⟩
    · exact ⟨err, rfl⟩
    · exact hf x b

/-- A conversion without result has none with other errors. -/
theorem mapError {c : Convert α} (hc : Barren c) (f : Error → Error) :
    Barren (Convert.mapError f c) := fun a => by
  obtain ⟨err, herr⟩ := hc a
  refine ⟨f err, ?_⟩
  unfold Convert.mapError
  rcases hrun : c a with ⟨result, b⟩
  rw [hrun] at herr
  cases herr
  rfl

end Barren

end Convert

namespace Conversion

open StyleBook.Convert (Barren)

variable {s : Setting} {ask operand : Task → Convert String} {t t' : Task}

/-! ### Steps -/

/-- Items have no texts if one of them has none. -/
theorem textsBy_barren {write : Value → Convert String} {items : List Value} {v : Value}
    (hv : v ∈ items) (h : Barren (write v)) : Barren (textsBy write items) := by
  induction items with
  | nil => cases hv
  | cons w rest ih =>
    rw [textsBy]
    rcases List.mem_cons.mp hv with rfl | hv
    · exact h.bind_left _
    · exact .bind_right _ fun _ => (ih hv).bind_left _

/-- Nor have fields. -/
theorem fieldTextsBy_barren {write : Recipe → Value → Convert String}
    {fields : List (String × Value)} {specs : List Field} {spec : Field} {v : Value}
    (hspec : spec ∈ specs) (hv : Dict.get? spec.name fields = some v) (hnull : v.isNull = false)
    (h : Barren (write spec.recipe v)) : Barren (fieldTextsBy write fields specs) := by
  induction specs with
  | nil => cases hspec
  | cons other rest ih =>
    rw [fieldTextsBy]
    rcases List.mem_cons.mp hspec with rfl | hspec
    · simp only [hv, hnull, Bool.false_eq_true, if_false]
      exact h.bind_left _
    · have hrest := ih hspec
      split
      · exact hrest
      · split
        · exact hrest
        · exact .bind_right _ fun _ => hrest.bind_left _

/-- A record has no text if one of its fields has none. -/
theorem recordBy_barren {write : Recipe → Value → Convert String}
    {fields : List (String × Value)} {specs : List Field} {separator : String}
    {spec : Field} {v : Value}
    (hspec : spec ∈ specs) (hv : Dict.get? spec.name fields = some v) (hnull : v.isNull = false)
    (h : Barren (write spec.recipe v)) : Barren (recordBy write specs separator fields) := by
  rw [recordBy]
  cases unknownField? specs fields with
  | some name => exact .throw _
  | none => exact (fieldTextsBy_barren hspec hv hnull h).bind_left _

/-- A call has no text if its arguments have none. -/
theorem callBy_barren {function : String} {args : Value} {repeating : Bool} {d : Descriptor}
    (hd : s.catalog.descriptor? function = some d) (h : Barren (argumentsBy ask d args)) :
    Barren (callBy s ask function args repeating) := by
  unfold callBy
  simp only [hd]
  split
  · exact .throw _
  · exact h.bind_left _

/-- **A step that asks for a text that there never is has no result.** -/
theorem outline_barren (h : Leads s.catalog t t') (hask : Barren (ask t')) :
    Barren (outline s ask operand t) := by
  -- Recipes that are shapes are dealt with as the shape says.
  have hshaped : ∀ {recipe : Recipe} {shape : Shape} {followed : List Category} {v : Value},
      recipe.shape? = some shape →
        Barren (shapedBy s ask operand shape (shape.item.getD recipe) v) →
          Barren (outline s ask operand ⟨followed, recipe, v⟩) := by
    intro recipe shape followed v hshape hbarren
    cases recipe with
    | plain =>
      cases hshape
      exact hbarren
    | shaped shape' =>
      cases hshape
      exact hbarren
    | _ => cases hshape
  -- One case for each way in which a conversion asks for another one. The one that is asked for
  -- comes first, or after steps that do not matter.
  cases h with
  | item hshape hlist hv =>
    refine hshaped hshape ?_
    unfold shapedBy
    simp only [hlist]
    exact (textsBy_barren hv hask).bind_left _
  | field hshape hrecord hspec hv hnull =>
    refine hshaped hshape ?_
    unfold shapedBy
    simp only [hrecord]
    exact recordBy_barren hspec hv hnull hask
  | whole hshape hd hargs =>
    refine hshaped hshape (callBy_barren hd ?_)
    unfold argumentsBy
    simp only [hargs]
    exact .bind_right _ fun _ => hask
  | argument hshape hd hargs hfields hspec hv hnull =>
    refine hshaped hshape (callBy_barren hd ?_)
    unfold argumentsBy
    simp only [hargs, hfields]
    exact (recordBy_barren hspec hv hnull hask).mapError _
  | category hc h =>
    rw [outline, if_neg hc]
    simp only [h]
    exact hask
  | leading => exact hask.bind_left _
  | enclosed => exact hask.bind_left _
  | yes h =>
    rw [outline, if_pos h]
    exact hask
  | no h =>
    rw [outline, h]
    exact hask
  | each hv => exact (textsBy_barren hv hask).bind_left _
  | @one followed item separator v h =>
    cases v with
    | list items => exact absurd rfl (h items)
    | _ => exact hask
  | head => exact hask.bind_left _
  | others hv => exact .bind_right _ fun _ => (textsBy_barren hv hask).bind_left _
  | @alone followed first others v h =>
    cases v with
    | list items => exact absurd rfl (h items)
    | _ => exact hask
  | labelled => exact hask.bind_left _
  | @unlabelled followed label field inner v h =>
    cases v with
    | record fields => exact absurd rfl (h fields)
    | _ => exact hask

/-- **A conversion that asks for one without a result has none either.** -/
theorem Leads.barren (h : Leads s.catalog t t') (ht : Barren (t'.text s)) : Barren (t.text s) := by
  rw [text_eq]
  exact outline_barren h ht

/-- Nor has one that comes to it after any number of steps. -/
theorem barren_of_reaches (h : Relation.ReflTransGen (Leads s.catalog) t t')
    (ht : Barren (t'.text s)) : Barren (t.text s) := by
  induction h with
  | refl => exact ht
  | tail _ hstep ih => exact ih (hstep.barren ht)

/-! ### Parts that cannot be converted -/

/-- **The value cannot be converted:** a record without a recipe for records, the call of a function
    that is not there, or the mention of a name that is missing. -/
inductive Stuck (s : Setting) : Task → Prop
  | record {followed recipe shape fields} (h : recipe.shape? = some shape)
    (hrecord : shape.ofRecord = none) (hother : shape.ofOther = none) :
    Stuck s ⟨followed, recipe, .record fields⟩
  | function {followed recipe shape function args repeating} (h : recipe.shape? = some shape)
    (hd : s.catalog.descriptor? function = none) :
    Stuck s ⟨followed, recipe, .call function args repeating⟩
  | nameless {followed recipe shape ref} (h : recipe.shape? = some shape)
    (hname : NameRef.name? s.names ref = none) : Stuck s ⟨followed, recipe, .ref ref⟩

/-- **It never has a text.** -/
theorem Stuck.barren (h : Stuck s t) : Barren (t.text s) := by
  unfold Task.text
  cases h with
  | record h hrecord hother =>
    rw [run_eq_shaped h, shaped]
    simp only [hrecord, hother]
    exact .throw _
  | function h hd =>
    rw [run_eq_shaped h, shaped, call_eq]
    simp only [hd]
    exact .throw _
  | @nameless followed recipe shape ref h hname =>
    rw [run_eq_shaped h, shaped]
    intro a
    refine ⟨.unassignedName ref.slot, ?_⟩
    show ref.render s.names = _
    unfold NameRef.render
    rw [hname]

/-- **The conversion reaches a part that has no text,** not as an operand of a math function. -/
def Meets (s : Setting) (recipe : Recipe) (v : Value) : Prop :=
  ∃ t, Relation.ReflTransGen (Leads s.catalog) ⟨[], recipe, v⟩ t ∧ Barren (t.text s)

/-- Then it never has a result. -/
theorem Meets.barren {recipe : Recipe} {v : Value} (h : Meets s recipe v) :
    Barren (convert s recipe v) := by
  obtain ⟨t, hreached, hbarren⟩ := h
  exact barren_of_reaches hreached hbarren

end Conversion

/-! ### Stylesets -/

/-- Nothing is left of a conversion but a report of its failure. -/
def Convert.skip (event : Error → Event) (c : Convert String) : Convert Unit := do
  match ← Convert.attempt c with
  | .ok _ => return ()
  | .error err => Convert.report (event err)

namespace Styleset

open Conversion (Meets Stuck)
open StyleBook.Convert (Barren)

variable {s : Setting}

/-- Custom properties are written one after the other. -/
theorem customTexts_append (before after : List CustomProperty) :
    customTexts s (before ++ after) = (do
      let text ← customTexts s before
      let texts ← customTexts s after
      return text ++ texts) := by
  induction before with
  | nil =>
    rw [List.nil_append, customTexts, pure_bind]
    simp
  | cons property rest ih =>
    rw [List.cons_append, customTexts, customTexts, ih]
    simp only [bind_assoc, pure_bind, String.append_assoc]

/-- So are declarations. -/
theorem propertyTexts_append (before after : List (String × Declaration)) :
    propertyTexts s (before ++ after) = (do
      let text ← propertyTexts s before
      let texts ← propertyTexts s after
      return text ++ texts) := by
  induction before with
  | nil =>
    rw [List.nil_append, propertyTexts, pure_bind]
    simp
  | cons entry rest ih =>
    rw [List.cons_append, propertyTexts, propertyTexts, ih]
    simp only [bind_assoc, pure_bind, String.append_assoc]

/-- Its failure is reported. -/
theorem skip_barren {c : Convert String} (hc : Barren c) (event : Error → Event) (a : Ambient) :
    ∃ err b, c a = (.error err, b) ∧ Convert.attempt c a = (.ok (.error err), b) ∧
      Convert.skip event c a = (.ok (), b.report (event err)) := by
  obtain ⟨err, herr⟩ := hc a
  rcases hrun : c a with ⟨result, b⟩
  rw [hrun] at herr
  cases herr
  have hattempt : Convert.attempt c a = (.ok (.error err), b) := by
    unfold Convert.attempt
    rw [hrun]
  refine ⟨err, b, rfl, hattempt, ?_⟩
  unfold Convert.skip
  rw [stateful_bind_ok hattempt]
  rfl

/-- What never has a text is skipped. -/
theorem attempt_barren {c : Convert String} (hc : Barren c) (event : Error → Event)
    (write : String → String) :
    (do
      match ← Convert.attempt c with
      | .ok text => return write text
      | .error err => do
        Convert.report (event err)
        return "" : Convert String) = (do
      Convert.skip event c
      return "") := by
  funext a
  obtain ⟨err, b, -, hattempt, hskip⟩ := skip_barren hc event a
  rw [stateful_bind_ok hattempt, stateful_bind_ok hskip]
  rfl

/-- A declaration whose value never has a text is skipped. -/
theorem propertyText_barren {name : String} {d : Declaration}
    (h : Barren (s.property name d.value)) :
    propertyText s name d = (do
      Convert.skip (.declarationSkipped name) (s.property name d.value)
      return "") := by
  unfold propertyText
  exact attempt_barren h _ fun text => name ++ ":" ++ text ++
    (if d.important then " !important" else "") ++ ";"

/-- All that is left of a custom property whose value never has a text: a report that its name is
    missing, or that it was skipped. -/
def skipCustom (s : Setting) (p : CustomProperty) : Convert Unit :=
  match p.name.render s.names with
  | .error err => Convert.report (.unnamedPropertySkipped err)
  | .ok name =>
    Convert.skip (.customPropertySkipped name)
      (convert s (s.catalog.templateRecipe p.template) p.value)

/-- A custom property whose value has no text is skipped. -/
theorem customText_barren {p : CustomProperty}
    (h : Barren (convert s (s.catalog.templateRecipe p.template) p.value)) :
    customText s p = (do
      skipCustom s p
      return "") := by
  unfold customText skipCustom
  cases p.name.render s.names with
  | error err => rfl
  | ok name => exact attempt_barren h _ fun text => name ++ ":" ++ text ++ ";"

/-- **A declaration is skipped as a whole** if the conversion of its value reaches a part that has
    no text, such as a record without a recipe, the call of a function that is not there, or the
    mention of a missing name. What is written is the text of all other declarations, and a report.
    Operands of math functions are not among the parts that count here. -/
theorem declarations_skip (s : Setting) :
    (∀ t, Stuck s t → Barren (t.text s)) ∧
    (∀ before name d after custom dependents, Meets s (s.catalog.propertyRecipe name) d.value →
      Barren (s.property name d.value) ∧
      declarations s ⟨before ++ (name, d) :: after, custom, dependents⟩ = (do
        let customs ← customTexts s custom
        let texts ← propertyTexts s before
        Convert.skip (.declarationSkipped name) (s.property name d.value)
        let others ← propertyTexts s after
        return customs ++ (texts ++ others))) ∧
    ∀ properties before p after dependents, Meets s (s.catalog.templateRecipe p.template) p.value →
      Barren (convert s (s.catalog.templateRecipe p.template) p.value) ∧
      declarations s ⟨properties, before ++ p :: after, dependents⟩ = (do
        let texts ← customTexts s before
        skipCustom s p
        let others ← customTexts s after
        let own ← propertyTexts s properties
        return texts ++ others ++ own) := by
  -- Before and behind the declaration the loop does the same as without it.
  refine ⟨fun t h => h.barren, ?_, ?_⟩
  · intro before name d after custom dependents h
    have hbarren : Barren (s.property name d.value) := h.barren
    refine ⟨hbarren, ?_⟩
    unfold declarations
    simp only [propertyTexts_append, propertyTexts, propertyText_barren hbarren,
      bind_assoc, pure_bind,
      String.empty_append]
  · intro properties before p after dependents h
    refine ⟨h.barren, ?_⟩
    unfold declarations
    simp only [customTexts_append, customTexts, customText_barren h.barren, bind_assoc, pure_bind,
      String.empty_append]

/-- A length that is a record. -/
def recordLength : Value := .record [("x", .number 1)]

/-- No recipe for lengths is one for records. -/
theorem recordLength_stuck (s : Setting) (followed : List Category) :
    Stuck s ⟨followed, .numeric .length, recordLength⟩ := .record rfl rfl rfl

set_option maxRecDepth 100000 in
/-- A width is skipped because of a record in a list. -/
theorem declarations_skip_of_record :
    Meets ⟨.standard, fun _ => none⟩ (Catalog.standard.propertyRecipe "width")
        (.list [.number 10, recordLength]) ∧
      (declarations ⟨.standard, fun _ => none⟩
        ⟨[("width", ⟨.list [.number 10, recordLength], false⟩)], [], []⟩ .initial).1 = .ok "" := by
  let s : Setting := ⟨.standard, fun _ => none⟩
  -- The list is converted item by item, and the record in it is stuck.
  have hmeets : Meets s (s.catalog.propertyRecipe "width") (.list [.number 10, recordLength]) := by
    refine ⟨⟨[], .numeric .length, recordLength⟩, ?_, (recordLength_stuck s []).barren⟩
    have hfollow : Conversion.Leads s.catalog
      ⟨[], .category .length, .list [.number 10, recordLength]⟩
        ⟨[.length], .numeric .length, .list [.number 10, recordLength]⟩ := .category nofun rfl
    have hitem : Conversion.Leads s.catalog
        ⟨[.length], .numeric .length, .list [.number 10, recordLength]⟩
        ⟨[], .numeric .length, recordLength⟩ := by
      have hshape : (Recipe.numeric .length).shape? =
        some { ofNumber := some (.inFamily .length) } := rfl
      exact .item hshape rfl (.tail _ (.head _))
    exact .head hfollow (.single hitem)
  obtain ⟨-, hskip, -⟩ := declarations_skip s
  obtain ⟨hbarren, htext⟩ :=
    hskip [] "width" ⟨.list [.number 10, recordLength], false⟩ [] [] [] hmeets
  refine ⟨hmeets, ?_⟩
  obtain ⟨err, b, -, -, hreport⟩ := skip_barren hbarren (.declarationSkipped "width") .initial
  rw [List.nil_append] at htext
  rw [htext, customTexts, propertyTexts, pure_bind, pure_bind, stateful_bind_ok hreport]
  rfl

set_option maxRecDepth 100000 in
/-- **A declaration is written though an operand is missing from its text:** the smaller one of a
    record, which has no text, and a length. -/
theorem operand_left_out :
    Barren (convert ⟨.standard, fun _ => none⟩ (.numeric .length) recordLength) ∧
      (declarations ⟨.standard, fun _ => none⟩
        ⟨[("width", ⟨.math 0 .min .length [recordLength, .number 10], false⟩)], [], []⟩
          .initial).1 = .ok "width:min(,10px);" := by
  let s : Setting := ⟨.standard, fun _ => none⟩
  -- The record has no text.
  have hfails : convert s (.numeric .length) recordLength =
      throw (.unsupportedValue "record" "record conversion") := by
    unfold convert Recipe.numeric recordLength
    rw [Conversion.run, Conversion.shaped]
    rfl
  refine ⟨(recordLength_stuck s []).barren, ?_⟩
  -- The operand is dropped with a report, and the text is put together without it.
  have hvalue : s.property "width" (.math 0 .min .length [recordLength, .number 10]) .initial =
      (.ok "min(,10px)", (Ambient.initial.ask 0).report
        (.operandDropped "length" (.unsupportedValue "record" "record conversion"))) := by
    have hten : NumericFamily.length.write Ambient.initial.units 10 = "10px" := by decide +kernel
    show Conversion.run s [] (.category .length) _ _ = _
    rw [Conversion.run, dif_neg List.not_mem_nil]
    show Conversion.run s [.length] (.numeric .length) _ _ = _
    rw [Conversion.run_math_dropped rfl hfails, hten]
    rfl
  have hattempt :
    Convert.attempt (s.property "width" (.math 0 .min .length [recordLength, .number 10]))
      .initial = (.ok (.ok "min(,10px)"), (Ambient.initial.ask 0).report
        (.operandDropped "length" (.unsupportedValue "record" "record conversion"))) := by
    unfold Convert.attempt
    rw [hvalue]
  unfold declarations
  rw [customTexts, propertyTexts, propertyTexts, pure_bind, bind_assoc, propertyText, bind_assoc,
    stateful_bind_ok hattempt]
  rfl

end Styleset

end StyleBook
