import StyleBook.Proofs.Conversion.ConversionErrors

namespace StyleBook

/-!
# Checked catalogs

A catalog is built if its entries are consistent: its functions are described without loose ends,
and refer to registered categories only.

* `Descriptor.Consistent`, `Descriptor.check_eq_ok_iff` — which descriptors pass the check;
* `CatalogBuilder.Consistent`, `CatalogBuilder.build_eq_ok_iff` — which entries make a catalog, and
  which one; `CatalogBuilder.build_error` — all others are refused as malformed;
* `Standard.Customary`, `Catalog.standard_customary` — what the recipes of the
  standard catalog are like.
-/

/-! ### Descriptors -/

/-- **All names are there and unlike each other,** and unlike those seen before. -/
def Fresh (seen names : List String) : Prop := "" ∉ names ∧ names.Nodup ∧
    ∀ name ∈ names, name ∉ seen

theorem fresh_nil {seen : List String} : Fresh seen [] := ⟨nofun, .nil, nofun⟩

/-- A name is fresh, and the others are so when it is seen. -/
theorem fresh_cons {seen rest : List String} {name : String} :
    Fresh seen (name :: rest) ↔ name ≠ "" ∧ name ∉ seen ∧ Fresh (name :: seen) rest := by
  unfold Fresh
  simp only [List.mem_cons, List.nodup_cons, not_or, forall_eq_or_imp]
  constructor
  · rintro ⟨⟨hname, hrest⟩, ⟨hnotin, hnodup⟩, hseen, hall⟩
    exact ⟨Ne.symm hname, hseen, hrest, hnodup, fun n hn => ⟨fun h => hnotin (h ▸ hn), hall n hn⟩⟩
  · rintro ⟨hname, hseen, hrest, hnodup, hall⟩
    exact ⟨⟨Ne.symm hname, hrest⟩, ⟨fun h => (hall name h).1 rfl, hnodup⟩, hseen,
      fun n hn => (hall n hn).2⟩

/-- If the recipe names a category, it is a registered one. -/
def Recipe.Known (registered : Category → Bool) (recipe : Recipe) : Prop :=
  ∀ c, recipe.category? = some c → registered c = true

namespace Descriptor

variable {d : Descriptor} {registered : Category → Bool}

/-- **The descriptor is consistent:** fields of a declared shape are named and unlike each other,
    and all parameters are among them; there are parameters, if there is not one whole argument, and
    these are named and unlike each other; all categories are registered. -/
structure Consistent (registered : Category → Bool) (d : Descriptor) : Prop where
  shape {fields} : d.shape = some fields → Fresh [] fields
  declared {fields params separator} : d.shape = some fields →
    d.arguments = .params params separator →
    ∀ param ∈ params, param.name ∈ fields
  params {params separator} : d.arguments = .params params separator →
    params ≠ [] ∧ Fresh [] (params.map Field.name)
  recipes : ∀ recipe ∈ d.recipes, recipe.Known registered

/-- No name is repeated exactly if all are fresh. -/
theorem firstRepeated?_eq_none_iff {seen names : List String} :
    firstRepeated? seen names = none ↔ Fresh seen names := by
  induction names generalizing seen with
  | nil => exact ⟨fun _ => fresh_nil, fun _ => rfl⟩
  | cons name rest ih =>
    rw [firstRepeated?, fresh_cons]
    by_cases h : name = "" ∨ name ∈ seen
    · rw [if_pos h]
      simp only [reduceCtorEq, false_iff]
      tauto
    · rw [if_neg h, ih]
      tauto

theorem checkRecipe_eq_ok_iff {recipe : Recipe} :
    d.checkRecipe registered recipe = .ok () ↔ recipe.Known registered := by
  unfold checkRecipe Recipe.Known
  cases recipe.category? with
  | none => simp
  | some c => cases h : registered c <;> simp [h]

theorem checkParams_eq_ok_iff {seen : List String} {params : List Field} :
    d.checkParams registered seen params = .ok () ↔
      Fresh seen (params.map Field.name) ∧ ∀ param ∈ params, param.recipe.Known registered := by
  induction params generalizing seen with
  | nil => exact ⟨fun _ => ⟨fresh_nil, nofun⟩, fun _ => rfl⟩
  | cons param rest ih =>
    rw [checkParams, List.map_cons, fresh_cons, List.forall_mem_cons]
    by_cases hname : param.name = ""
    · simp [hname]
    · by_cases hseen : param.name ∈ seen
      · simp [hname, hseen]
      · rw [if_neg hname, if_neg hseen, ← checkRecipe_eq_ok_iff (d := d)]
        cases hcheck : d.checkRecipe registered param.recipe with
        | error err => simp [bind, Except.bind]
        | ok _ =>
          simp only [bind, Except.bind, ih]
          tauto

theorem checkDeclared_eq_ok_iff {fields : List String} :
    d.checkDeclared fields = .ok () ↔ Fresh [] fields ∧
      ∀ params separator, d.arguments = .params params separator →
        ∀ param ∈ params, param.name ∈ fields := by
  unfold checkDeclared
  rw [← firstRepeated?_eq_none_iff]
  -- A name is declared twice, or some parameter is not among the fields, or all is well.
  cases firstRepeated? [] fields with
  | some field => simp
  | none =>
    cases d.arguments with
    | whole => simp
    | params params separator =>
      have hmissing : (∀ param ∈ params, param.name ∈ fields) ↔
          params.find? (fun p => decide (p.name ∉ fields)) = none := by
        rw [List.find?_eq_none]
        simp
      simp only [Arguments.params.injEq, true_and, and_imp, forall_apply_eq_imp_iff,
        forall_eq', hmissing]
      cases params.find? (fun p => decide (p.name ∉ fields)) with
      | some missing => simp
      | none => simp

/-- The arguments are checked after the declared shape. -/
def checkArguments (d : Descriptor) (registered : Category → Bool) : Except Error Unit :=
  match d.arguments with
  | .whole recipe => d.checkRecipe registered recipe
  | .params [] _ => .error (d.fault "has no parameters")
  | .params params _ => d.checkParams registered [] params

theorem check_of_none (h : d.shape = none) : d.check registered = d.checkArguments registered := by
  unfold check
  rw [h]
  rfl

theorem check_of_some {fields : List String} (h : d.shape = some fields) :
    d.check registered = d.checkDeclared fields >>= fun _ => d.checkArguments registered := by
  unfold check
  rw [h]
  rfl

theorem checkArguments_eq_ok_iff : d.checkArguments registered = .ok () ↔
    (∀ params separator, d.arguments = .params params separator →
      params ≠ [] ∧ Fresh [] (params.map Field.name)) ∧
    ∀ recipe ∈ d.recipes, recipe.Known registered := by
  unfold checkArguments recipes
  cases d.arguments with
  | whole recipe => simp [checkRecipe_eq_ok_iff]
  | params params separator =>
    cases params with
    | nil => simp
    | cons param rest => simp [checkParams_eq_ok_iff]

/-- **A descriptor passes the check exactly if it is consistent.** -/
theorem check_eq_ok_iff : d.check registered = .ok () ↔ d.Consistent registered := by
  cases hshape : d.shape with
  | none =>
    rw [check_of_none hshape, checkArguments_eq_ok_iff]
    constructor
    · rintro ⟨hparams, hrecipes⟩
      exact ⟨fun h => by simp [hshape] at h, fun h => by simp [hshape] at h, hparams _ _, hrecipes⟩
    · exact fun h => ⟨fun _ _ => h.params, h.recipes⟩
  | some fields =>
    rw [check_of_some hshape]
    -- The check of the shape comes first, so the arguments are looked at only if it passes.
    constructor
    · intro h
      cases hdeclared : d.checkDeclared fields with
      | error err =>
        rw [hdeclared] at h
        cases h
      | ok _ =>
        rw [hdeclared] at h
        obtain ⟨hfresh, hall⟩ := checkDeclared_eq_ok_iff.mp hdeclared
        obtain ⟨hparams, hrecipes⟩ := checkArguments_eq_ok_iff.mp h
        refine ⟨fun h => ?_, fun h => ?_, hparams _ _, hrecipes⟩
        · cases hshape.symm.trans h
          exact hfresh
        · cases hshape.symm.trans h
          exact hall _ _
    · intro h
      rw [checkDeclared_eq_ok_iff.mpr ⟨h.shape hshape, fun _ _ => h.declared hshape⟩]
      exact checkArguments_eq_ok_iff.mpr ⟨fun _ _ => h.params, h.recipes⟩

/-! ### Faults -/

/-- The check finds a fault of this descriptor, or none. -/
def Faults (d : Descriptor) (result : Except Error Unit) : Prop :=
  ∀ err, result = .error err → ∃ message, err = d.fault message

theorem checkRecipe_faults (recipe : Recipe) : d.Faults (d.checkRecipe registered recipe) := by
  intro err h
  unfold checkRecipe at h
  cases hc : recipe.category? with
  | none =>
    rw [hc] at h
    cases h
  | some c =>
    simp only [hc] at h
    split at h
    · cases h
    · cases h
      exact ⟨_, rfl⟩

theorem checkParams_faults (seen : List String) (params : List Field) :
    d.Faults (d.checkParams registered seen params) := by
  intro err h
  -- The first fault ends the check: no name, a name given twice, or a category that is not there.
  induction params generalizing seen with
  | nil => cases h
  | cons param rest ih =>
    rw [checkParams] at h
    split at h
    · cases h
      exact ⟨_, rfl⟩
    · split at h
      · cases h
        exact ⟨_, rfl⟩
      · cases hcheck : d.checkRecipe registered param.recipe with
        | error err' =>
          rw [hcheck] at h
          cases h
          exact checkRecipe_faults param.recipe err hcheck
        | ok _ =>
          rw [hcheck] at h
          exact ih _ h

theorem checkDeclared_faults (fields : List String) : d.Faults (d.checkDeclared fields) := by
  intro err h
  unfold checkDeclared at h
  split at h
  · cases h
    exact ⟨_, rfl⟩
  · split at h
    · cases h
    · split at h
      · cases h
        exact ⟨_, rfl⟩
      · cases h

theorem checkArguments_faults : d.Faults (d.checkArguments registered) := by
  intro err h
  unfold checkArguments at h
  split at h
  · exact checkRecipe_faults _ err h
  · cases h
    exact ⟨_, rfl⟩
  · exact checkParams_faults [] _ err h

/-- **A descriptor that does not pass the check is malformed.** -/
theorem check_faults (d : Descriptor) (registered : Category → Bool) :
    d.Faults (d.check registered) := by
  intro err h
  cases hshape : d.shape with
  | none =>
    rw [check_of_none hshape] at h
    exact checkArguments_faults err h
  | some fields =>
    rw [check_of_some hshape] at h
    cases hdeclared : d.checkDeclared fields with
    | error err' =>
      rw [hdeclared] at h
      cases h
      exact checkDeclared_faults fields err hdeclared
    | ok _ =>
      rw [hdeclared] at h
      exact checkArguments_faults err h

end Descriptor

/-! ### Entries of a catalog -/

namespace CatalogBuilder

variable {registered : Category → Bool}

/-- **The entries are consistent:** the functions are, and no two of them have one name, and all
    categories of properties are registered. -/
structure Consistent (b : CatalogBuilder) : Prop where
  functions : ∀ d ∈ b.functions, d.Consistent b.registered
  names : (b.functions.map Descriptor.name).Nodup
  properties : ∀ entry ∈ b.properties, ∀ c, entry.2.category? = some c → b.registered c = true

/-- The catalog of the entries as they are. -/
def catalog (b : CatalogBuilder) : Catalog where
  categories := b.categories
  functions := b.functions.map fun d => (d.name, d)
  properties := b.properties.foldl (fun known entry => known.insert entry.1 entry.2) []

/-- Functions are added exactly if they are consistent and all have new names, in their order. -/
theorem addFunctions_eq_ok_iff {list : List Descriptor} {known out : Dict String Descriptor} :
    addFunctions registered list known = .ok out ↔
      (∀ d ∈ list, d.Consistent registered) ∧ (list.map Descriptor.name).Nodup ∧
        (∀ d ∈ list, d.name ∉ known.keys) ∧ out = known ++ list.map fun d => (d.name, d) := by
  induction list generalizing known with
  | nil => simp [addFunctions, eq_comm]
  | cons d rest ih =>
    rw [addFunctions, List.forall_mem_cons, List.forall_mem_cons, ← Descriptor.check_eq_ok_iff]
    cases d.check registered with
    | error err => simp [bind, Except.bind]
    | ok _ =>
      have hcontains : known.contains d.name = true ↔ d.name ∈ known.keys := Dict.isSome_get?_iff
      by_cases hknown : d.name ∈ known.keys
      · simp [bind, Except.bind, hcontains.mpr hknown, hknown]
      -- The new name joins the known ones, so the rest must differ from it as well.
      · have hnew : known.contains d.name = false := by
          rw [Bool.eq_false_iff]
          exact fun h => hknown (hcontains.mp h)
        have hkeys : ∀ value : Descriptor, ∀ name,
            name ∉ Dict.keys (known ++ [(d.name, value)]) ↔ name ≠ d.name ∧ name ∉ known.keys := by
          intro value name
          simp only [Dict.keys, List.map_append, List.map_cons, List.map_nil, List.mem_append,
            List.mem_singleton, not_or, and_comm]
        simp only [bind, Except.bind, hnew, Bool.false_eq_true, if_false, ih,
          Dict.insert_of_notMem hknown, hkeys, List.map_cons, List.nodup_cons, List.append_assoc,
          List.singleton_append, hknown, not_false_eq_true, true_and, forall_and, List.mem_map]
        constructor
        · rintro ⟨hrest, hnodup, ⟨hne, hkeys⟩, hout⟩
          exact ⟨hrest, ⟨fun ⟨e, he, heq⟩ => hne e he heq, hnodup⟩, hkeys, hout⟩
        · rintro ⟨hrest, ⟨hne, hnodup⟩, hkeys, hout⟩
          exact ⟨hrest, hnodup, ⟨fun e he heq => hne ⟨e, he, heq⟩, hkeys⟩, hout⟩

/-- Properties are added exactly if their categories are registered; the
    last one of a name stays. -/
theorem addProperties_eq_ok_iff {list : List (String × PropertyKind)}
    {known out : Dict String PropertyKind} :
    addProperties registered list known = .ok out ↔
      (∀ entry ∈ list, ∀ c, entry.2.category? = some c → registered c = true) ∧
        out = list.foldl (fun known entry => known.insert entry.1 entry.2) known := by
  induction list generalizing known with
  | nil =>
    rw [addProperties, Except.ok.injEq]
    exact ⟨fun h => ⟨nofun, h.symm⟩, fun h => h.2.symm⟩
  | cons entry rest ih =>
    obtain ⟨name, kind⟩ := entry
    rw [addProperties, List.forall_mem_cons, List.foldl_cons]
    cases hc : kind.category? with
    | none => simp [ih]
    | some c =>
      cases hregistered : registered c with
      | false => simp [hregistered]
      | true => simp [hregistered, ih]

/-- **Entries make a catalog exactly if they are consistent,** and then it
    is that of the entries. -/
theorem build_eq_ok_iff {b : CatalogBuilder} {catalog : Catalog} :
    b.build = .ok catalog ↔ b.Consistent ∧ catalog = b.catalog := by
  have hfunctions := @addFunctions_eq_ok_iff b.registered b.functions []
  have hproperties := @addProperties_eq_ok_iff b.registered b.properties []
  simp only [Dict.keys_nil, List.not_mem_nil, not_false_eq_true, implies_true, true_and,
    List.nil_append] at hfunctions
  unfold build
  constructor
  -- Functions are added before properties.
  · intro h
    cases hf : addFunctions b.registered b.functions [] with
    | error err =>
      rw [hf] at h
      cases h
    | ok functions =>
      rw [hf] at h
      cases hp : addProperties b.registered b.properties [] with
      | error err =>
        change (addProperties b.registered b.properties [] >>= _) = _ at h
        rw [hp] at h
        cases h
      | ok properties =>
        change (addProperties b.registered b.properties [] >>= _) = _ at h
        rw [hp] at h
        cases h
        obtain ⟨hall, hnames, rfl⟩ := hfunctions.mp hf
        obtain ⟨hknown, rfl⟩ := hproperties.mp hp
        exact ⟨⟨hall, hnames, hknown⟩, rfl⟩
  · rintro ⟨⟨hall, hnames, hknown⟩, rfl⟩
    rw [hfunctions.mpr ⟨hall, hnames, rfl⟩]
    change (addProperties b.registered b.properties [] >>= _) = _
    rw [hproperties.mpr ⟨hknown, rfl⟩]
    rfl

/-- Functions that are not added are malformed. -/
theorem addFunctions_error {list : List Descriptor} {known : Dict String Descriptor} {err : Error}
    (h : addFunctions registered list known = .error err) :
    ∃ name message, err = .malformedDescriptor name message := by
  induction list generalizing known with
  | nil => cases h
  | cons d rest ih =>
    rw [addFunctions] at h
    cases hcheck : d.check registered with
    | error err' =>
      rw [hcheck] at h
      cases h
      obtain ⟨message, rfl⟩ := d.check_faults _ err hcheck
      exact ⟨_, _, rfl⟩
    | ok _ =>
      rw [hcheck] at h
      simp only [bind, Except.bind] at h
      split at h
      · cases h
        exact ⟨_, _, rfl⟩
      · exact ih h

/-- So are properties. -/
theorem addProperties_error {list : List (String × PropertyKind)}
    {known : Dict String PropertyKind} {err : Error}
    (h : addProperties registered list known = .error err) :
    ∃ name message, err = .malformedDescriptor name message := by
  induction list generalizing known with
  | nil => cases h
  | cons entry rest ih =>
    rw [addProperties] at h
    split at h
    · split at h
      · exact ih h
      · cases h
        exact ⟨_, _, rfl⟩
    · exact ih h

/-- **Entries that make no catalog are malformed.** -/
theorem build_error {b : CatalogBuilder} {err : Error} (h : b.build = .error err) :
    ∃ name message, err = .malformedDescriptor name message := by
  unfold build at h
  cases hf : addFunctions b.registered b.functions [] with
  | error err' =>
    rw [hf] at h
    cases h
    exact addFunctions_error hf
  | ok functions =>
    rw [hf] at h
    change (addProperties b.registered b.properties [] >>= _) = _ at h
    cases hp : addProperties b.registered b.properties [] with
    | error err' =>
      rw [hp] at h
      cases h
      exact addProperties_error hp
    | ok properties =>
      rw [hp] at h
      cases h

variable {b : CatalogBuilder}

/-- The functions of the catalog are those of the entries. -/
theorem mem_functions_of_descriptor? {name : String} {d : Descriptor}
    (h : b.catalog.descriptor? name = some d) : d ∈ b.functions := by
  obtain ⟨d', hd', heq⟩ := List.mem_map.mp (Dict.mem_of_get? h)
  cases heq
  exact hd'

/-- The properties of the catalog are those of the entries. -/
theorem mem_properties_of_get? {name : String} {kind : PropertyKind}
    (h : b.catalog.properties.get? name = some kind) : (name, kind) ∈ b.properties := by
  -- The fold keeps what it started with, unless an entry of the list has the name.
  have hfold : ∀ (list : List (String × PropertyKind)) (known : Dict String PropertyKind),
      Dict.get? name (list.foldl (fun known entry => known.insert entry.1 entry.2) known) =
      some kind →
        (name, kind) ∈ list ∨ known.get? name = some kind := by
    intro list
    induction list with
    | nil => exact fun known h => .inr h
    | cons entry rest ih =>
      intro known h
      rcases ih _ h with hmem | hget
      · exact .inl (List.mem_cons_of_mem _ hmem)
      · rw [Dict.get?_insert] at hget
        by_cases hname : name = entry.1
        · rw [if_pos hname] at hget
          cases hget
          subst hname
          exact .inl List.mem_cons_self
        · rw [if_neg hname] at hget
          exact .inr hget
  rcases hfold _ _ h with hmem | hnone
  · exact hmem
  · cases hnone

end CatalogBuilder

/-! ### The standard catalog -/

/-- No function of the recipe refuses a value. -/
def Recipe.Tolerant (recipe : Recipe) : Prop := ∀ err, ¬ recipe.Throws err

namespace Standard

/-- **The recipe is like the standard ones:** it has no function for lists and none for what nothing
    else supports, the only records that it writes are shadows, and its only function
    is that of their flag. -/
structure Customary (recipe : Recipe) : Prop where
  list {shape} : recipe = .shaped shape → shape.ofList = none
  other {shape} : recipe = .shaped shape → shape.ofOther = none
  record {shape specs separator} : recipe = .shaped shape →
    shape.ofRecord = some (specs, separator) →
    specs = shadowFields
  own {write} : recipe = .own write → write = insetFlag

namespace Customary

variable {recipe : Recipe} {shape : Shape}

/-- Recipes without shapes and functions are. -/
theorem simple (hshaped : ∀ shape, recipe ≠ .shaped shape) (hown : ∀ write, recipe ≠ .own write) :
    Customary recipe :=
  ⟨fun h => absurd h (hshaped _), fun h => absurd h (hshaped _), fun h _ => absurd h (hshaped _),
    fun h => absurd h (hown _)⟩

theorem shaped (hlist : shape.ofList = none) (hother : shape.ofOther = none)
    (hrecord : ∀ specs separator, shape.ofRecord = some (specs, separator) → specs = shadowFields) :
    Customary (.shaped shape) where
  list h := by
    cases h
    exact hlist
  other h := by
    cases h
    exact hother
  record h := by
    cases h
    exact hrecord _ _
  own h := by cases h

/-- They refuse no value by a function. -/
theorem tolerant (h : Customary recipe) : recipe.Tolerant := by
  intro err hthrows
  cases hthrows with
  | @own write v hwrite =>
    rw [h.own rfl] at hwrite
    unfold insetFlag at hwrite
    split at hwrite <;> cases hwrite
  | list hlist _ => simp [h.list rfl] at hlist
  | other hother _ => simp [h.other rfl] at hother

end Customary

/-- The standard categories are written by such recipes. -/
theorem categories_customary : ∀ entry ∈ categories, entry.2.All Customary := by
  have hcategory : ∀ c, (Recipe.category c).All Customary :=
    fun c => .category (.simple nofun nofun)
  have hsimple : ∀ shape : Shape, shape.ofList = none → shape.ofOther = none → shape.item = none →
      shape.ofRecord = none → (Recipe.shaped shape).All Customary := by
    intro shape hlist hother hitem hrecord
    exact .shaped (.shaped hlist hother (by simp [hrecord])) (by simp [hitem]) (by simp [hrecord])
  have hradius : (Recipe.choice Value.startsWithList (.each (.category .length) " / ")
      (.category .length)).All Customary :=
    .choice (.simple nofun nofun) (.each (.simple nofun nofun) (hcategory _)) (hcategory _)
  have hgrid : gridItem.All Customary :=
    .choice (.simple nofun nofun) (.enclosed (.simple nofun nofun) (.plain (.simple nofun nofun)))
      (hcategory _)
  have hinset : (Recipe.own insetFlag).All Customary := by
    refine .own ⟨nofun, nofun, nofun, fun h => ?_⟩
    cases h
    rfl
  have hshadow : (Recipe.shaped
      { item := some (.category .length), ofRecord := some (shadowFields, " ") }).All Customary :=
      by
    refine .shaped (.shaped rfl rfl fun specs separator h => ?_) (fun inner h => ?_)
      fun _ _ h spec hspec => ?_
    · cases h
      rfl
    · cases h
      exact hcategory _
    · cases h
      simp only [shadowFields, List.mem_cons, List.not_mem_nil, or_false] at hspec
      rcases hspec with rfl | rfl | rfl | rfl | rfl | rfl
      · exact hinset
      all_goals exact hcategory _
  -- One proof for each entry of the table, in its order.
  simp only [categories, List.forall_mem_cons, List.not_mem_nil, false_imp_iff,
    implies_true, and_true]
  have hnumeric : ∀ family, (Recipe.numeric family).All Customary :=
    fun _ => hsimple _ rfl rfl rfl rfl
  have hnumbers : ∀ write, (Recipe.numbers write).All Customary :=
    fun _ => hsimple _ rfl rfl rfl rfl
  exact ⟨hnumeric _, hnumeric _, hnumeric _, hnumeric _, hnumeric _, hnumeric _, hnumeric _,
    hnumbers _, hnumbers _, hnumbers _, hcategory _,
    .leading (.simple nofun nofun) (hcategory _), hradius,
    hcategory _, .each (.simple nofun nofun) hgrid, hshadow, hsimple _ rfl rfl rfl rfl⟩

/-- So are the arguments of the standard functions. -/
theorem functions_customary : ∀ d ∈ functions, ∀ recipe ∈ d.recipes, recipe.All Customary := by
  have hplain : Recipe.plain.All Customary := .plain (.simple nofun nofun)
  have hcategory : ∀ c, (Recipe.category c).All Customary :=
    fun c => .category (.simple nofun nofun)
  have hstop : gradientStop.All Customary :=
    .choice (.simple nofun nofun)
    (.headed (.simple nofun nofun) (hcategory _) (hcategory _)) (hcategory _)
  have hstops : (Recipe.each gradientStop ",").All Customary := .each (.simple nofun nofun) hstop
  have hmatrix : (Recipe.each (.category .number) ",").All Customary :=
    .each (.simple nofun nofun) (hcategory _)
  have hpolygon : (Recipe.labelled "fill" "points" (.each (.category .length) ",")).All Customary :=
    .labelled (.simple nofun nofun) (.each (.simple nofun nofun) (hcategory _))
  simp [functions, filters, Descriptor.ofParams, Descriptor.ofWhole, Descriptor.withShape,
    Descriptor.withRepeating, Descriptor.recipes, Field.ofCategory, Field.plain, Field.after,
    gradientStops, hplain, hcategory, hstops, hmatrix, hpolygon]

end Standard

namespace Catalog

/-- **All recipes of the standard catalog are customary.** -/
theorem standard_customary : Catalog.standard.All Standard.Customary where
  category h := Standard.categories_customary _ (Dict.mem_of_get? h)
  function h := by
    obtain ⟨_, hd, heq⟩ := List.mem_map.mp (Dict.mem_of_get? h)
    cases heq
    exact Standard.functions_customary _ hd _

/-- **No function of the standard catalog refuses a value.** -/
theorem standard_tolerant : Catalog.standard.All Recipe.Tolerant where
  category h := (standard_customary.category h).mono fun _ => Standard.Customary.tolerant
  function h hrecipe := (standard_customary.function h hrecipe).mono fun _ =>
    Standard.Customary.tolerant

/-- The standard catalog has all categories. -/
theorem standard_contains (c : Category) : Catalog.standard.categories.contains c = true := by
  cases c <;> rfl

end Catalog

end StyleBook
