import StyleBook.Proofs.Conversion.Conversions
import StyleBook.Proofs.Engine.Computation
import StyleBook.Proofs.Text.Likeness

namespace StyleBook

/-!
# Alike values have the same text

A conversion sees names, units and the answers of sources, but not where names stand.

* `Ambient.Matches` — no conversion can tell the two apart by sources that it may ask, and
  `Convert.Agree` — two conversions have the same result, and leave such states behind;
* `Recipe.Blind`, `Catalog.Blind` — functions of a catalog do not look at places;
  `Catalog.standard_blind` — those of the standard catalog do not;
* `Conversion.run_agree` — alike values have the same text by any recipe of such a catalog.
-/

variable {L : Likeness}

/-! ### Conversions that agree -/

/-- **What conversions can see of both is the same:** units, and the answers of sources from now
    on. -/
structure Ambient.Matches (L : Likeness) (a a' : Ambient) : Prop where
  units : a.units = L.units
  units' : a'.units = L.units
  texts {source : TextSource} : L.sources source →
    ∀ k, source.text (a.count source.id + k) = source.text (a'.count source.id + k)

namespace Ambient.Matches

variable {a a' : Ambient}

/-- It is all the same where nothing differs. -/
theorem same (a : Ambient) : a.Matches (.same a.units) a := ⟨rfl, rfl, fun _ _ => rfl⟩

theorem report (h : Matches L a a') (event : Event) :
    Matches L (a.report event) (a'.report event) := ⟨h.units, h.units', fun hQ => h.texts hQ⟩

/-- Both are asked. -/
theorem ask (h : Matches L a a') (id : Nat) : Matches L (a.ask id) (a'.ask id) where
  units := h.units
  units' := h.units'
  texts {source} hQ k := by
    have hcount : ∀ b : Ambient, (b.ask id).count source.id + k =
        b.count source.id + ((if id == source.id then 1 else 0) + k) := fun b => by
      unfold Ambient.count Ambient.ask
      rw [List.count_cons]
      omega
    rw [hcount, hcount]
    exact h.texts hQ _

end Ambient.Matches

/-- **Conversions leave alone what texts depend on:** the sources answer the same every time. -/
def Likeness.Steady (L : Likeness) : Prop :=
  ∀ source, L.sources source → ∀ k, source.text k = source.text 0

/-- Conversions do not see what was asked or reported before. -/
theorem Likeness.Steady.matches (hL : L.Steady) {a a' : Ambient} (ha : a.units = L.units)
    (ha' : a'.units = L.units) : a.Matches L a' where
  units := ha
  units' := ha'
  texts {source} hsource k := by rw [hL source hsource, ← hL source hsource]

namespace Convert

variable {α β : Type}

/-- **Both have the same result,** and do not tell apart what comes later. -/
def Agree (L : Likeness) (c c' : Convert α) : Prop :=
  ∀ a a', a.Matches L a' → (c a).1 = (c' a').1 ∧ (c a).2.Matches L (c' a').2

namespace Agree

/-- The same result for both. -/
theorem pure (x : α) : Agree L (Pure.pure x) (Pure.pure x) := fun _ _ h => ⟨rfl, h⟩

/-- The same error for both. -/
theorem throw (err : Error) :
    Agree L (MonadExcept.throw err : Convert α) (MonadExcept.throw err) := fun _ _ h => ⟨rfl, h⟩

/-- Results that are the same agree. -/
theorem ofExcept {r r' : Except Error α} (h : r = r') :
    Agree L (Convert.ofExcept r) (Convert.ofExcept r') := fun _ _ hm => ⟨h, hm⟩

theorem report (event : Event) : Agree L (Convert.report event) (Convert.report event) :=
  fun _ _ h => ⟨rfl, h.report event⟩

/-- Units are the same for both. -/
theorem units : Agree L Convert.units Convert.units := fun _ _ h =>
  ⟨congrArg Except.ok (h.units.trans h.units'.symm), h⟩

/-- One conversion after the other. -/
theorem bind {c c' : Convert α} {f f' : α → Convert β} (hc : Agree L c c')
    (hf : ∀ x, Agree L (f x) (f' x)) : Agree L (c >>= f) (c' >>= f') := fun a a' h => by
  obtain ⟨hresult, hambient⟩ := hc a a' h
  rw [stateful_bind, stateful_bind]
  rcases hrun : c a with ⟨err | x, b⟩ <;> rcases hrun' : c' a' with ⟨err' | x', b'⟩ <;>
    rw [hrun, hrun'] at hresult hambient <;> cases hresult
  · exact ⟨rfl, hambient⟩
  · exact hf x b b' hambient

/-- The result of a conversion changed. -/
theorem map {c c' : Convert α} (hc : Agree L c c') (f : α → β) :
    Agree L (do return f (← c)) (do return f (← c')) := bind hc fun x => pure (f x)

/-- A result that stays the same. -/
theorem map_left {c c' : Convert α} (hc : Agree L c c') {f : α → α} (hf : ∀ x, f x = x) :
    Agree L (do return f (← c)) c' := fun a a' h => by
  obtain ⟨hresult, hambient⟩ := hc a a' h
  rw [stateful_bind]
  rcases hrun : c a with ⟨err | x, b⟩ <;> rw [hrun] at hresult hambient
  · exact ⟨hresult, hambient⟩
  · exact ⟨(congrArg Except.ok (hf x)).trans hresult, hambient⟩

/-- Attempts agree if what is attempted does. -/
theorem attempt {c c' : Convert α} (hc : Agree L c c') :
    Agree L (Convert.attempt c) (Convert.attempt c') := fun a a' h => by
  obtain ⟨hresult, hambient⟩ := hc a a' h
  unfold Convert.attempt
  exact ⟨congrArg Except.ok hresult, hambient⟩

/-- Errors that are told alike agree. -/
theorem mapError {c c' : Convert α} (hc : Agree L c c') {f f' : Error → Error}
    (hf : ∀ err, f err = f' err) :
    Agree L (Convert.mapError f c) (Convert.mapError f' c') := fun a a' h => by
  obtain ⟨hresult, hambient⟩ := hc a a' h
  rw [show f = f' from funext hf]
  unfold Convert.mapError
  exact ⟨congrArg (Except.mapError f') hresult, hambient⟩

/-- A source is asked for its text. -/
theorem answer {source : TextSource} (hQ : L.sources source) :
    Agree L (do return source.text (← Convert.ask source.id))
      (do return source.text (← Convert.ask source.id)) := fun _ _ h =>
  ⟨congrArg Except.ok (h.texts hQ 0), h.ask source.id⟩

/-- A source is asked in vain. -/
theorem asked (id : Nat) {c c' : Convert α} (hc : Agree L c c') :
    Agree L (do let _ ← Convert.ask id; c) (do let _ ← Convert.ask id; c') := fun a a' h =>
  hc (a.ask id) (a'.ask id) (h.ask id)

end Agree

/-- **The conversion has this result, and what comes later cannot tell that it was there.** -/
def Silent (L : Likeness) (c : Convert α) (x : α) : Prop :=
  ∀ a a', a.Matches L a' → (c a).1 = .ok x ∧ (c a).2.Matches L a'

namespace Silent

theorem pure (x : α) : Silent L (Pure.pure x) x := fun _ _ h => ⟨rfl, h⟩

/-- A report is no text. -/
theorem report (event : Event) : Silent L (Convert.report event) () := fun _ _ h =>
  ⟨rfl, h.units, h.units', fun hsource => h.texts hsource⟩

/-- It makes no difference in front of another conversion. -/
theorem agree {c : Convert α} {x : α} (hc : Silent L c x) {f : α → Convert β} {d : Convert β}
    (hf : Agree L (f x) d) : Agree L (c >>= f) d := fun a a' h => by
  obtain ⟨hresult, hambient⟩ := hc a a' h
  rw [stateful_bind]
  rcases hrun : c a with ⟨r, b⟩
  rw [hrun] at hresult hambient
  cases hresult
  exact hf b a' hambient

theorem ofExcept {r : Except Error α} {x : α} (h : r = .ok x) : Silent L (Convert.ofExcept r) x :=
  fun _ _ hm => ⟨h, hm⟩

/-- A failure is always the same, if sources answer the same every time. -/
theorem attempt (hL : L.Steady) {c : Convert α} (hc : Agree L c c) {a : Ambient} {err : Error}
    (ha : a.units = L.units) (herr : (c a).1 = .error err) :
    Silent L (Convert.attempt c) (.error err) := fun b b' h => by
  obtain ⟨hresult, hambient⟩ := hc b a (hL.matches h.units ha)
  unfold Convert.attempt
  exact ⟨congrArg Except.ok (hresult.trans herr), hL.matches hambient.units h.units'⟩

/-- Two of them, one after the other. -/
theorem bind {c : Convert α} {x : α} (hc : Silent L c x) {f : α → Convert β} {y : β}
    (hf : Silent L (f x) y) : Silent L (c >>= f) y := fun a a' h => by
  obtain ⟨hresult, hambient⟩ := hc a a' h
  rw [stateful_bind]
  rcases hrun : c a with ⟨r, b⟩
  rw [hrun] at hresult hambient
  cases hresult
  exact hf b a' hambient

end Silent

end Convert

/-! ### Catalogs that do not look at places -/

/-- **The functions of the recipe do not look at places.** -/
inductive Recipe.Blind (L : Likeness) : Recipe → Prop
  | plain : Blind L .plain
  | shaped {shape : Shape}
    (ofList : ∀ write, shape.ofList = some write →
      ∀ vs ws, List.Forall₂ (Value.Alike L) vs ws → write vs = write ws)
    (item : ∀ recipe, shape.item = some recipe → Blind L recipe)
    (ofRecord : ∀ fields separator, shape.ofRecord = some (fields, separator) →
      ∀ field ∈ fields, Blind L field.recipe)
    (ofOther : ∀ write, shape.ofOther = some write →
      ∀ v w : Value, v.Alike L w → write v = write w) :
    Blind L (.shaped shape)
  | category {c} : Blind L (.category c)
  | own {write} (h : ∀ v w : Value, v.Alike L w → write v = write w) : Blind L (.own write)
  | leading {text inner} (h : Blind L inner) : Blind L (.leading text inner)
  | enclosed {opening closing inner} (h : Blind L inner) :
    Blind L (.enclosed opening closing inner)
  | choice {test yes no} (h : ∀ v w : Value, v.Alike L w → test v = test w) (hyes : Blind L yes)
    (hno : Blind L no) : Blind L (.choice test yes no)
  | each {item separator} (h : Blind L item) : Blind L (.each item separator)
  | headed {first others} (hfirst : Blind L first) (hothers : Blind L others) :
    Blind L (.headed first others)
  | labelled {label field inner} (h : Blind L inner) : Blind L (.labelled label field inner)

namespace Recipe

/-- Nothing looks at places that correspond to themselves only. -/
theorem blind_of_strict (hL : L.Strict) : ∀ recipe : Recipe, recipe.Blind L
  | .plain => .plain
  | .shaped ⟨nullText, ofBool, ofNumber, ofText, ofList, item, separator, ofRecord, ofOther⟩ => by
    -- A recipe in a shape is smaller than the recipe, which is what lets the recursion end.
    refine .shaped (fun write _ vs ws h => by rw [Value.Alike.items_eq hL h])
      (fun recipe hitem => ?_) (fun fields separator hrecord field hfield => ?_)
      fun write _ v w h => by rw [h.eq hL]
    · have hsize : sizeOf recipe < sizeOf item := by
        cases hitem
        simp
      exact blind_of_strict hL recipe
    · have hsize : sizeOf field.recipe < sizeOf ofRecord := by
        have := List.sizeOf_lt_of_mem hfield
        cases hrecord
        cases field
        simp only [Field.mk.sizeOf_spec, Option.some.sizeOf_spec, Prod.mk.sizeOf_spec] at this ⊢
        omega
      exact blind_of_strict hL field.recipe
  | .category _ => .category
  | .own _ => .own fun v w h => by rw [h.eq hL]
  | .leading _ inner => .leading (blind_of_strict hL inner)
  | .enclosed _ _ inner => .enclosed (blind_of_strict hL inner)
  | .choice _ yes no => .choice (fun v w h => by rw [h.eq hL]) (blind_of_strict hL yes)
    (blind_of_strict hL no)
  | .each item _ => .each (blind_of_strict hL item)
  | .headed first others => .headed (blind_of_strict hL first) (blind_of_strict hL others)
  | .labelled _ _ inner => .labelled (blind_of_strict hL inner)

/-- Numbers and texts have no places. -/
theorem blind_simple {shape : Shape} (hlist : shape.ofList = none) (hitem : shape.item = none)
    (hrecord : shape.ofRecord = none) (hother : shape.ofOther = none) :
    (Recipe.shaped shape).Blind L := by
  refine .shaped ?_ ?_ ?_ ?_ <;> simp [hlist, hitem, hrecord, hother]

end Recipe

/-- The functions of the recipes for arguments do not look at places. -/
def Arguments.Blind (L : Likeness) : Arguments → Prop
  | .params fields _ => ∀ field ∈ fields, field.recipe.Blind L
  | .whole recipe => recipe.Blind L

/-- **The functions of the catalog do not look at places.** -/
structure Catalog.Blind (L : Likeness) (catalog : Catalog) : Prop where
  category : ∀ entry ∈ catalog.categories, entry.2.Blind L
  function : ∀ entry ∈ catalog.functions, entry.2.arguments.Blind L

namespace Catalog

/-- If places correspond to themselves only, it does not matter who looks at them. -/
theorem blind_of_strict (hL : L.Strict) (catalog : Catalog) : catalog.Blind L where
  category _ _ := Recipe.blind_of_strict hL _
  function entry _ := by
    cases hd : entry.2.arguments with
    | params fields separator => exact fun _ _ => Recipe.blind_of_strict hL _
    | whole recipe => exact Recipe.blind_of_strict hL recipe

/-- Values of properties are written by category, in parts or as a whole. -/
theorem propertyRecipe_blind (catalog : Catalog) (name : String) :
    (catalog.propertyRecipe name).Blind L := by
  have hone : ∀ kind : PropertyKind, kind.one.Blind L := fun kind => by
    unfold PropertyKind.one
    cases kind.category? with
    | some c => exact .category
    | none => exact .plain
  unfold propertyRecipe PropertyKind.recipe
  split
  · exact hone _
  · exact hone _
  · exact .choice (fun _ _ h => h.hasCompound) (.each (hone _)) (hone _)
  · exact .each (hone _)

/-- The recipe of a template is that of a property, or the plain one. -/
theorem templateRecipe_blind (catalog : Catalog) (template : Option String) :
    (catalog.templateRecipe template).Blind L := by
  cases template with
  | some property => exact catalog.propertyRecipe_blind property
  | none => exact .plain

end Catalog

/-! ### The standard catalog -/

namespace Standard

attribute [simp] Recipe.Blind.plain Recipe.Blind.category

/-- The standard categories look at kinds of values only. -/
theorem categories_blind : ∀ entry ∈ categories, entry.2.Blind L := by
  have hnumeric : ∀ family, (Recipe.numeric family).Blind L := fun _ =>
    Recipe.blind_simple rfl rfl rfl rfl
  have hnumbers : ∀ write, (Recipe.numbers write).Blind L := fun _ =>
    Recipe.blind_simple rfl rfl rfl rfl
  -- Only the items of grids, the radius and the shadow look into a value, and each asks for its
  -- kind alone.
  have hgrid : gridItem.Blind L := .choice (fun _ _ h => h.isList) (.enclosed .plain) .category
  have hradius : (Recipe.choice Value.startsWithList (.each (.category .length) " / ")
      (.category .length)).Blind L :=
    .choice (fun _ _ h => h.startsWithList) (.each .category) .category
  have hshadow : (Recipe.shaped
      { item := some (.category .length), ofRecord := some (shadowFields, " ") }).Blind L := by
    refine .shaped nofun (fun _ h => ?_) (fun fields separator h field hfield => ?_) nofun
    · cases h
      exact .category
    · cases h
      simp only [shadowFields, List.mem_cons, List.not_mem_nil, or_false] at hfield
      rcases hfield with rfl | rfl | rfl | rfl | rfl | rfl
      · exact .own fun v w h => by cases h <;> rfl
      all_goals exact .category
  simp only [categories, List.forall_mem_cons, List.not_mem_nil, false_imp_iff, implies_true,
    and_true]
  exact ⟨hnumeric _, hnumeric _, hnumeric _, hnumeric _, hnumeric _, hnumeric _, hnumeric _,
    hnumbers _, hnumbers _, hnumbers _, .category, .leading .category, hradius, .category,
    .each hgrid, hshadow, Recipe.blind_simple rfl rfl rfl rfl⟩

/-- So do the standard functions. -/
theorem functions_blind : ∀ d ∈ functions, d.arguments.Blind L := by
  have hstops : gradientStops.recipe.Blind L :=
    .each (.choice (fun _ _ h => h.isList) (.headed .category .category) .category)
  have hmatrix : (Recipe.each (.category .number) ",").Blind L := .each .category
  have hpolygon : (Recipe.labelled "fill" "points" (.each (.category .length) ",")).Blind L :=
    .labelled (.each .category)
  simp [functions, filters, Descriptor.ofParams, Descriptor.ofWhole, Descriptor.withShape,
    Descriptor.withRepeating, Arguments.Blind, Field.ofCategory, Field.plain, Field.after, hstops,
    hmatrix, hpolygon]

end Standard

/-- **The functions of the standard catalog do not look at places.** -/
theorem Catalog.standard_blind : Catalog.standard.Blind L where
  category := Standard.categories_blind
  function entry hentry := by
    obtain ⟨d, hd, rfl⟩ := List.mem_map.mp hentry
    exact Standard.functions_blind d hd

/-! ### Values -/

/-- **Settings that write alike values the same:** of one catalog that does not look at places, and
    with the same names in corresponding places. -/
structure Setting.Alike (L : Likeness) (s s' : Setting) : Prop where
  catalog : s.catalog = s'.catalog
  blind : s.catalog.Blind L
  names {i j} : L.cells i j → s.names i = s'.names j

/-- Nothing is written in another way, if places correspond to themselves only. -/
theorem Setting.Alike.of_strict (hL : L.Strict) (s : Setting) : s.Alike L s :=
  ⟨rfl, Catalog.blind_of_strict hL _, fun h => congrArg s.names (hL _ _ h)⟩

/-- Alike settings are so with the standard catalog. -/
theorem Setting.Alike.standard {s s' : Setting} (h : s.Alike L s') :
    Setting.Alike L ⟨.standard, s.names⟩ ⟨.standard, s'.names⟩ :=
  ⟨rfl, Catalog.standard_blind, h.names⟩

namespace Descriptor

variable {v w : Value}

/-- Alike records have the same field that is not declared, or none. -/
theorem checkShape_alike (d : Descriptor) (shape : List String)
    {fields fields' : List (String × Value)} (h : Value.FieldsAlike L fields fields') :
    d.checkShape shape fields = d.checkShape shape fields' := by
  have hfirst := h.find? fun name => name ∉ shape
  unfold checkShape
  rcases hf : fields.find? _ with _ | ⟨name, _⟩ <;>
    rcases hf' : fields'.find? _ with _ | ⟨name', _⟩ <;> rw [hf, hf'] at hfirst <;> cases hfirst
  rfl

/-- Alike arguments are refused for the same reason, or for none. -/
theorem checkWhole_alike (d : Descriptor) (h : v.Alike L w) : d.checkWhole v = d.checkWhole w := by
  cases h with
  | record h =>
    unfold checkWhole
    cases d.shape with
    | none => rfl
    | some shape => exact d.checkShape_alike shape h
  | _ => rfl

/-- Errors in alike arguments read the same. -/
theorem explain_alike (d : Descriptor) (h : v.Alike L w) (err : Error) :
    d.explain v err = d.explain w err := by
  cases h with
  | record h => unfold explain; cases d.shape <;> rfl
  | _ => unfold explain; cases d.shape <;> rfl

/-- Alike arguments are alike fields for the parameters, or refused for the same reason. -/
theorem fieldsFor_alike (d : Descriptor) (params : List Field) (h : v.Alike L w) :
    (∃ err, d.fieldsFor params v = .error err ∧ d.fieldsFor params w = .error err) ∨
      ∃ fields fields', d.fieldsFor params v = .ok fields ∧ d.fieldsFor params w = .ok fields' ∧
        Value.FieldsAlike L fields fields' := by
  -- Whatever is neither a record nor a list is the argument of the first parameter.
  have hsingle : ∀ {v w : Value}, v.Alike L w → Value.FieldsAlike L
      ((params.map Field.name).zip [v]) ((params.map Field.name).zip [w]) :=
    fun h => .zip (.cons h .nil) _
  cases h with
  | @record vs ws h =>
    unfold fieldsFor
    cases d.shape with
    | none => exact .inr ⟨_, _, rfl, rfl, h⟩
    | some shape =>
      simp only [← d.checkShape_alike shape h]
      cases d.checkShape shape vs with
      | error err => exact .inl ⟨err, rfl, rfl⟩
      | ok _ => exact .inr ⟨_, _, rfl, rfl, Value.FieldsAlike.filter h fun name =>
        params.any fun p => p.name == name⟩
  | list h =>
    unfold fieldsFor
    simp only [← h.length_eq]
    split
    · exact .inl ⟨_, rfl, rfl⟩
    · exact .inr ⟨_, _, rfl, rfl, .zip h _⟩
  | null => exact .inr ⟨_, _, rfl, rfl, hsingle .null⟩
  | bool => exact .inr ⟨_, _, rfl, rfl, hsingle .bool⟩
  | number => exact .inr ⟨_, _, rfl, rfl, hsingle .number⟩
  | text => exact .inr ⟨_, _, rfl, rfl, hsingle .text⟩
  | call h => exact .inr ⟨_, _, rfl, rfl, hsingle (.call h)⟩
  | ref h => exact .inr ⟨_, _, rfl, rfl, hsingle (.ref h)⟩
  | lazy h => exact .inr ⟨_, _, rfl, rfl, hsingle (.lazy h)⟩
  | math h => exact .inr ⟨_, _, rfl, rfl, hsingle (.math h)⟩
  | custom h => exact .inr ⟨_, _, rfl, rfl, hsingle (.custom h)⟩

end Descriptor

/-- Alike records have the same field that is not to be written, or none. -/
theorem unknownField?_alike (specs : List Field) {fields fields' : List (String × Value)}
    (h : Value.FieldsAlike L fields fields') :
    unknownField? specs fields = unknownField? specs fields' :=
  h.find? fun name => !specs.any fun spec => spec.name == name

namespace Conversion

mutual

/-- **Alike values have the same text** by a recipe that does not look at places. -/
theorem run_agree {s s' : Setting} (hs : s.Alike L s') (followed : List Category) {recipe : Recipe}
    (hr : recipe.Blind L) {v w : Value} (h : v.Alike L w) :
    Convert.Agree L (run s followed recipe v) (run s' followed recipe w) := by
  cases hr with
  | plain =>
    rw [run, run]
    exact shaped_agree hs (Recipe.blind_simple rfl rfl rfl rfl) h
  | shaped ofList item ofRecord ofOther =>
    rw [run, run]
    exact shaped_agree hs (.shaped ofList item ofRecord ofOther) h
  -- A category that is being followed already is an error for both values.
  | @category c =>
    rw [run, run]
    by_cases hc : c ∈ followed
    · rw [dif_pos hc, dif_pos hc]
      exact .throw _
    · rw [dif_neg hc, dif_neg hc, ← hs.catalog]
      cases hget : s.catalog.categories.get? c with
      | none => exact .throw _
      | some inner =>
        exact run_agree hs (c :: followed) (hs.blind.category _ (Dict.mem_of_get? hget)) h
  | own hwrite =>
    rw [run, run]
    exact .ofExcept (hwrite v w h)
  | leading hinner =>
    rw [run, run]
    exact .map (run_agree hs followed hinner h) _
  | enclosed hinner =>
    rw [run, run]
    exact .map (run_agree hs followed hinner h) _
  | choice htest hyes hno =>
    rw [run, run, htest v w h]
    split
    · exact run_agree hs followed hyes h
    · exact run_agree hs followed hno h
  | each hitem =>
    have hwhole := run_agree hs followed hitem h
    rw [run.eq_def, run.eq_def s']
    cases h with
    | list hitems => exact .map (runAll_agree hs hitem hitems) _
    | _ => exact hwhole
  | headed hfirst hothers =>
    have hwhole := run_agree hs followed hfirst h
    rw [run.eq_def, run.eq_def s']
    cases h with
    | list hitems =>
      cases hitems with
      | nil => exact .pure _
      | cons hhead hitems =>
        exact .bind (run_agree hs [] hfirst hhead) fun text =>
          .map (runAll_agree hs hothers hitems) _
    | _ => exact hwhole
  | @labelled label field inner hinner =>
    have hwhole := run_agree hs followed hinner h
    cases h with
    | @record vs ws hfields =>
      have hvalue := Value.FieldsAlike.getD hfields field
      rw [run_labelled, run_labelled, Value.FieldsAlike.text? hfields label]
      refine .bind (run_agree hs [] hinner hvalue) fun text => ?_
      split
      · exact .pure _
      · exact .pure _
    | _ =>
      rw [run.eq_def, run.eq_def s']
      exact hwhole
termination_by (v.weight, (unfollowed followed).length + 1, sizeOf recipe)
decreasing_by
  · exact .right _ (.left _ _ (Nat.succ_pos _))
  · exact .right _ (.left _ _ (Nat.succ_pos _))
  · exact .right _ (.left _ _ (Nat.succ_lt_succ (unfollowed_cons_lt ‹_›)))
  · exact .right _ (.right _ (by decreasing_tactic))
  · exact .right _ (.right _ (by decreasing_tactic))
  · exact .right _ (.right _ (by decreasing_tactic))
  · exact .right _ (.right _ (by decreasing_tactic))
  · exact .right _ (.right _ (by decreasing_tactic))
  · exact .left _ _ (by simp only [Value.weight]; omega)
  · exact .right _ (.right _ (by decreasing_tactic))
  · exact .left _ _ (by simp only [Value.weight, Value.itemsWeight]; omega)
  · exact .left _ _ (by simp only [Value.weight, Value.itemsWeight]; omega)
  · exact .right _ (.right _ (by decreasing_tactic))
  · exact .left _ _ (weight_getD_lt _ _)

/-- So they have each kind as a shape says. -/
theorem shaped_agree {s s' : Setting} (hs : s.Alike L s') {shape : Shape}
    (hr : (Recipe.shaped shape).Blind L) {v w : Value} (h : v.Alike L w) :
    Convert.Agree L (shaped s shape v) (shaped s' shape w) := by
  obtain ⟨⟩ := hr
  rename_i ofList item ofRecord ofOther
  rw [shaped.eq_def, shaped.eq_def s']
  -- Alike values are of the same kind, so both conversions take the same branch.
  cases h with
  | null => exact .pure _
  | bool => exact .pure _
  | number =>
    simp only
    cases shape.ofNumber with
    | none => exact .pure _
    | some style => exact .map .units _
  | text => exact .pure _
  | list hitems =>
    simp only
    cases hlist : shape.ofList with
    | some write => exact .ofExcept (ofList write hlist _ _ hitems)
    | none =>
      cases hitem : shape.item with
      | some recipe => exact .map (runAll_agree hs (item recipe hitem) hitems) _
      | none => exact .map (shapedAll_agree hs (.shaped ofList item ofRecord ofOther) hitems) _
  | record hfields =>
    simp only
    cases hrecord : shape.ofRecord with
    | some written => exact record_agree hs (ofRecord written.1 written.2 hrecord) written.2 hfields
    | none =>
      cases hother : shape.ofOther with
      | some write => exact .ofExcept (ofOther write hother _ _ (.record hfields))
      | none => exact .throw _
  | call hargs => exact call_agree hs _ hargs _
  | ref hname => exact .ofExcept (hname.render fun _ _ => hs.names)
  | lazy hsource => exact .answer hsource
  | math hoperands => exact .asked _ (.map (operandTexts_agree hs _ hoperands) _)
  | custom hsource => exact .answer hsource
termination_by (v.weight, 0, 0)
decreasing_by
  all_goals (apply Prod.Lex.left; simp only [Value.weight]; omega)

/-- Lists of them by one recipe. -/
theorem runAll_agree {s s' : Setting} (hs : s.Alike L s') {item : Recipe} (hr : item.Blind L)
    {vs ws : List Value} (h : List.Forall₂ (Value.Alike L) vs ws) :
    Convert.Agree L (runAll s item vs) (runAll s' item ws) := by
  rw [runAll.eq_def, runAll.eq_def s']
  cases h with
  | nil => exact .pure _
  | cons hfirst hrest =>
    exact .bind (run_agree hs [] hr hfirst) fun text => .map (runAll_agree hs hr hrest) _
termination_by (Value.itemsWeight vs, 0, 0)
decreasing_by
  all_goals (apply Prod.Lex.left; simp only [Value.itemsWeight]; omega)

/-- Lists of them by one shape. -/
theorem shapedAll_agree {s s' : Setting} (hs : s.Alike L s') {shape : Shape}
    (hr : (Recipe.shaped shape).Blind L) {vs ws : List Value}
    (h : List.Forall₂ (Value.Alike L) vs ws) :
    Convert.Agree L (shapedAll s shape vs) (shapedAll s' shape ws) := by
  rw [shapedAll.eq_def, shapedAll.eq_def s']
  cases h with
  | nil => exact .pure _
  | cons hfirst hrest =>
    exact .bind (shaped_agree hs hr hfirst) fun text => .map (shapedAll_agree hs hr hrest) _
termination_by (Value.itemsWeight vs, 0, 0)
decreasing_by
  all_goals (apply Prod.Lex.left; simp only [Value.itemsWeight]; omega)

/-- Operands of math functions. -/
theorem operandTexts_agree {s s' : Setting} (hs : s.Alike L s') (family : NumericFamily)
    {vs ws : List Value} (h : List.Forall₂ (Value.Alike L) vs ws) :
    Convert.Agree L (operandTexts s.names family vs) (operandTexts s'.names family ws) := by
  rw [operandTexts.eq_def, operandTexts.eq_def s'.names]
  cases h with
  | nil => exact .pure _
  | cons hfirst hrest =>
    have hr : (Recipe.shaped { ofNumber := some (.inFamily family) }).Blind L :=
      Recipe.blind_simple rfl rfl rfl rfl
    have hfirst := shaped_agree hs.standard hr hfirst
    have hothers : ∀ text, Convert.Agree L _ _ := fun text : String =>
      .map (operandTexts_agree hs family hrest) (text :: ·)
    refine .bind (.attempt hfirst) fun result => ?_
    cases result with
    | ok text => exact hothers text
    | error err => exact .bind (.report _) fun _ => hothers ""
termination_by (Value.itemsWeight vs, 0, 0)
decreasing_by
  all_goals (apply Prod.Lex.left; simp only [Value.itemsWeight]; omega)

/-- Records by their fields. -/
theorem record_agree {s s' : Setting} (hs : s.Alike L s') {specs : List Field}
    (hr : ∀ spec ∈ specs, spec.recipe.Blind L) (separator : String)
    {vs ws : List (String × Value)} (h : Value.FieldsAlike L vs ws) :
    Convert.Agree L (record s specs separator vs) (record s' specs separator ws) := by
  rw [record.eq_def, record.eq_def s', unknownField?_alike specs h]
  split
  · exact .throw _
  · exact .map (fieldTexts_agree hs hr h) _
termination_by (Value.fieldsWeight vs, 0, specs.length + 1)
decreasing_by
  exact .right _ (.right _ (Nat.lt_succ_self _))

/-- Fields that are there. -/
theorem fieldTexts_agree {s s' : Setting} (hs : s.Alike L s') {specs : List Field}
    (hr : ∀ spec ∈ specs, spec.recipe.Blind L)
    {vs ws : List (String × Value)} (h : Value.FieldsAlike L vs ws) :
    Convert.Agree L (fieldTexts s specs vs) (fieldTexts s' specs ws) := by
  match specs, hr with
  | [], _ =>
    rw [fieldTexts, fieldTexts]
    exact .pure _
  | spec :: rest, hr =>
    have hothers := fieldTexts_agree hs
      (fun field hfield => hr field (List.mem_cons_of_mem _ hfield)) h
    -- A field is there in both records or in neither.
    have hget := h.get? spec.name
    rcases hv : Dict.get? spec.name vs with _ | v <;>
      rcases hw : Dict.get? spec.name ws with _ | w <;> rw [hv, hw] at hget <;> cases hget
    · rw [fieldTexts_none hv, fieldTexts_none hw]
      exact hothers
    · next hvw =>
      rw [fieldTexts_some hv, fieldTexts_some hw, hvw.isNull]
      split
      · exact hothers
      · exact .bind (run_agree hs [] (hr spec List.mem_cons_self) hvw) fun text => .map hothers _
termination_by (Value.fieldsWeight vs, 0, specs.length)
decreasing_by
  · exact .right _ (.right _ (Nat.lt_succ_self _))
  · exact .left _ _ (Value.weight_lt_of_get? hv)

/-- Calls. -/
theorem call_agree {s s' : Setting} (hs : s.Alike L s') (function : String) {v w : Value}
    (h : v.Alike L w) (repeating : Bool) :
    Convert.Agree L (call s function v repeating) (call s' function w repeating) := by
  rw [call_eq, call_eq, ← hs.catalog]
  -- Both look the function up in one catalog, and may be refused for the same reason.
  cases hd : s.catalog.descriptor? function with
  | none => exact .throw _
  | some d =>
    have hblind := hs.blind.function _ (Dict.mem_of_get? hd)
    simp only
    split
    · exact .throw _
    · cases harguments : d.arguments with
      | whole recipe =>
        have hr : recipe.Blind L := by rw [harguments] at hblind; exact hblind
        exact .bind (.ofExcept (d.checkWhole_alike h)) fun _ => .map (run_agree hs [] hr h) _
      | params params separator =>
        have hr : ∀ field ∈ params, field.recipe.Blind L := by
          rw [harguments] at hblind
          exact hblind
        rcases d.fieldsFor_alike params h with ⟨err, hv, hw⟩ | ⟨fields, fields', hv, hw, hfields⟩
        · simp only [hv, hw]
          exact .throw _
        · simp only [hv, hw]
          exact .bind (.mapError (record_agree hs hr separator hfields) (d.explain_alike h))
            fun body => .pure _
termination_by (1 + v.weight, 1, 0)
decreasing_by
  · have hle := Descriptor.fieldsWeight_of_fieldsFor hv
    by_cases hw : Value.fieldsWeight fields = 1 + v.weight
    · exact hw ▸ .right _ (.left _ _ Nat.one_pos)
    · exact .left _ _ (Nat.lt_of_le_of_ne hle hw)
  · exact .left _ _ (Nat.lt_add_of_pos_left Nat.one_pos)

end

end Conversion

end StyleBook
