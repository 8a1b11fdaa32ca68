import Mathlib.Order.Filter.AtTopBot.Basic
import Mathlib.Order.Filter.Finite
import StyleBook.Proofs.Conversion.CatalogChecks

namespace StyleBook

/-!
# Converters

A function of a recipe sees the value only. A converter is any function at all: it may ask the
catalog for other texts, go on as it is answered, and read and change what conversions share. It may
ask for what it was asked for itself, so its conversions need not come to an end,
and are cut off at a limit.

* `Program` — a converter at work on a value, and `Converters` — which functions of recipes stand
  for one;
* `Conversion.textWithin`, `Conversion.answer` — conversions by a catalog with converters;
  `Conversion.textWithin_eventually` — without converters, they are those without a limit;
* `Catalog.SelfContained` — the converters ask for registered categories only, and find no fault of
  their own; `Catalog.standard_selfContained` — those of the standard catalog do;
* `CatalogBuilder.build_sound` — no conversion by such a catalog finds a descriptor malformed;
  `CatalogBuilder.build_misses` — what may happen by others.
-/

/-! ### Programs -/

/-- **What a converter may ask a catalog for.** -/
inductive Inquiry
  /-- The text of a value, each kind at its default. -/
  | value (v : Value)
  /-- The text of a value of a category. -/
  | category (c : Category) (v : Value)
  /-- The text of a call. -/
  | call (function : String) (args : Value) (repeating : Bool)
  /-- The text of the value of a property. -/
  | property (name : String) (v : Value)

/-- **A converter at work on a value.** -/
inductive Program
  /-- It ends, with a text or an error. -/
  | done (result : Except Error String)
  /-- It asks the catalog, and goes on with the answer, which may be an error. -/
  | ask (inquiry : Inquiry) (next : Except Error String → Program)
  /-- It reads what there is to read beside the value, and may change it. -/
  | look (change : Names → Ambient → Ambient) (next : Names → Ambient → Program)

/-- The program carried out, with these answers. -/
def Program.run (names : Names) (answer : Inquiry → Convert String) : Program → Convert String
  | .done result => .ofExcept result
  | .ask inquiry next => do
    let text ← Convert.attempt (answer inquiry)
    (next text).run names answer
  | .look change next => fun a => (next names a).run names answer (change names a)

/-- **The converters of a catalog:** which functions of its recipes are but
    the names of converters. -/
abbrev Converters := (Value → Except Error String) → Option (Value → Program)

namespace Converters

/-- All functions are what they are. -/
def empty : Converters := fun _ => none

/-- The converter that a recipe stands for. -/
def of? (converters : Converters) : Recipe → Option (Value → Program)
  | .own write => converters write
  | _ => none

@[simp] theorem empty_of? (recipe : Recipe) : empty.of? recipe = none := by
  cases recipe <;> rfl

end Converters

/-! ### Conversions with converters -/

open Conversion in
/-- What a converter asks for, as a task. -/
def Inquiry.task (catalog : Catalog) : Inquiry → Task
  | .value v => ⟨[], .plain, v⟩
  | .category c v => ⟨[], .category c, v⟩
  | .call function args repeating => ⟨[], .plain, .call function args repeating⟩
  | .property name v => ⟨[], catalog.propertyRecipe name, v⟩

namespace Conversion

/-- **The text of a conversion by a catalog with converters,** if no more than so many conversions
    are inside each other. One that comes to an end has the same result for all
    limits from some one on. -/
def textWithin (converters : Converters) (s : Setting) : Nat → Task → Convert String
  | 0, _ => throw (.endless "")
  | limit + 1, t =>
    match converters.of? t.recipe with
    | some converter =>
      (converter t.value).run s.names fun inquiry =>
        textWithin converters s limit (inquiry.task s.catalog)
    | none => outline s (textWithin converters s limit) (Task.text ⟨.standard, s.names⟩) t

/-- What the catalog answers. -/
def answer (converters : Converters) (s : Setting) (limit : Nat) (inquiry : Inquiry) :
    Convert String :=
  textWithin converters s limit (inquiry.task s.catalog)

/-! ### Without converters -/

/-- The fields that are there, each to be written by its recipe. -/
def fieldTasks (specs : List Field) (fields : List (String × Value)) : List Task :=
  specs.map fun spec => ⟨[], spec.recipe, (Dict.get? spec.name fields).getD .null⟩

theorem mem_fieldTasks {specs : List Field} {fields : List (String × Value)} {spec : Field}
    {v : Value} (hspec : spec ∈ specs) (hv : Dict.get? spec.name fields = some v) :
    ⟨[], spec.recipe, v⟩ ∈ fieldTasks specs fields :=
  List.mem_map.mpr ⟨spec, hspec, by rw [hv, Option.getD_some]⟩

/-- What a shape may lead to on a value. -/
def shapeTasks (catalog : Catalog) (shape : Shape) (item : Recipe) : Value → List Task
  | .list items => items.map fun v => ⟨[], item, v⟩
  | .record fields => fieldTasks ((shape.ofRecord.map Prod.fst).getD []) fields
  | .call function args _ =>
    match catalog.descriptor? function with
    | none => []
    | some d =>
      match d.arguments with
      | .whole inner => [⟨[], inner, args⟩]
      | .params params _ =>
        match d.fieldsFor params args with
        | .error _ => []
        | .ok fields => fieldTasks params fields
  | _ => []

/-- **What a conversion may ask for:** no more than these. -/
def Task.nexts (catalog : Catalog) : Task → List Task
  | ⟨_, .plain, v⟩ => shapeTasks catalog {} .plain v
  | ⟨_, .shaped shape, v⟩ => shapeTasks catalog shape (shape.item.getD (.shaped shape)) v
  | ⟨followed, .category c, v⟩ =>
    [⟨c :: followed, (catalog.categories.get? c).getD .plain, v⟩]
  | ⟨_, .own _, _⟩ => []
  | ⟨followed, .leading _ inner, v⟩ => [⟨followed, inner, v⟩]
  | ⟨followed, .enclosed _ _ inner, v⟩ => [⟨followed, inner, v⟩]
  | ⟨followed, .choice _ yes no, v⟩ => [⟨followed, yes, v⟩, ⟨followed, no, v⟩]
  | ⟨_, .each item _, .list items⟩ => items.map fun v => ⟨[], item, v⟩
  | ⟨followed, .each item _, v⟩ => [⟨followed, item, v⟩]
  | ⟨_, .headed first others, .list items⟩ =>
    (items.map fun v => ⟨[], first, v⟩) ++ items.map fun v => ⟨[], others, v⟩
  | ⟨followed, .headed first _, v⟩ => [⟨followed, first, v⟩]
  | ⟨_, .labelled _ field inner, .record fields⟩ =>
    [⟨[], inner, (Dict.get? field fields).getD .null⟩]
  | ⟨followed, .labelled _ _ inner, v⟩ => [⟨followed, inner, v⟩]

/-- A conversion asks for no other ones. -/
theorem Leads.mem_nexts {catalog : Catalog} {t t' : Task} (h : Leads catalog t t') :
    t' ∈ t.nexts catalog := by
  -- A recipe that is a shape leads to parts of the value.
  have hshape : ∀ {recipe : Recipe} {shape : Shape} {followed v}, recipe.shape? = some shape →
      Task.nexts catalog ⟨followed, recipe, v⟩ =
        shapeTasks catalog shape (shape.item.getD recipe) v := by
    intro recipe shape followed v h
    cases recipe with
    | plain =>
      cases h
      rfl
    | shaped shape' =>
      cases h
      rfl
    | _ => cases h
  cases h with
  | item h _ hv =>
    rw [hshape h]
    exact List.mem_map_of_mem hv
  | field h hrecord hspec hv _ =>
    rw [hshape h, shapeTasks, hrecord]
    exact mem_fieldTasks hspec hv
  | whole h hd hargs => simp [hshape h, shapeTasks, hd, hargs]
  | argument h hd hargs hfields hspec hv _ =>
    simp only [hshape h, shapeTasks, hd, hargs, hfields]
    exact mem_fieldTasks hspec hv
  | category _ h => simp [Task.nexts, h]
  | leading | enclosed => simp [Task.nexts]
  | yes | no => simp [Task.nexts]
  | each hv => exact List.mem_map_of_mem hv
  | @one followed item separator v h =>
    cases v with
    | list items => exact absurd rfl (h items)
    | _ => exact List.mem_singleton_self _
  | head => simp [Task.nexts]
  | others hv => exact List.mem_append_right _ (List.mem_map_of_mem (List.mem_cons_of_mem _ hv))
  | @alone followed first others v h =>
    cases v with
    | list items => exact absurd rfl (h items)
    | _ => exact List.mem_singleton_self _
  | labelled => exact List.mem_singleton_self _
  | @unlabelled followed label field inner v h =>
    cases v with
    | record fields => exact absurd rfl (h fields)
    | _ => exact List.mem_singleton_self _

open Filter in
/-- **Without converters, a conversion within a limit is the conversion,** if the limit is high
    enough. -/
theorem textWithin_eventually (s : Setting) (t : Task) :
    ∀ᶠ limit in atTop, textWithin .empty s limit t = t.text s := by
  induction t using (calls_wf s.catalog).induction with
  | _ t ih =>
    -- It asks for some texts only, so there is one limit that is high enough for all of them.
    have hasked : ∀ᶠ limit in atTop, ∀ t' ∈ t.nexts s.catalog, Leads s.catalog t t' →
        textWithin .empty s limit t' = t'.text s := by
      refine (List.finite_toSet _).eventually_all.mpr fun t' _ => ?_
      by_cases h : Leads s.catalog t t'
      · exact (ih t' (.inl h)).mono fun _ heq _ => heq
      · exact .of_forall fun _ h' => absurd h' h
    rw [← map_add_atTop_eq_nat 1, eventually_map]
    refine hasked.mono fun limit hlimit => ?_
    rw [textWithin, Converters.empty_of?, text_eq]
    exact outline_congr ⟨rfl, fun _ => rfl, fun _ => rfl⟩
      (fun t' h => hlimit t' h.mem_nexts h) fun _ _ => rfl

end Conversion

/-! ### Converters that find no fault -/

/-- An error that is about no descriptor. -/
def Error.Proper (err : Error) : Prop := ∀ name message, err ≠ .malformedDescriptor name message

/-- **The conversion finds no descriptor malformed.** -/
abbrev Convert.FindsNoFault (c : Convert String) : Prop := c.Fails Error.Proper

/-- What is asked for is not of a category that is not registered. -/
def Inquiry.Known (registered : Category → Bool) : Inquiry → Prop
  | .category c _ => registered c = true
  | _ => True

/-- **The converter keeps to the categories that are registered:** it asks for no other ones, and
    finds no descriptor malformed if it is told of none. -/
inductive Program.Keeps (registered : Category → Bool) : Program → Prop
  | done {result} (h : ∀ err, result = .error err → err.Proper) : Keeps registered (.done result)
  | ask {inquiry next} (hknown : inquiry.Known registered)
    (h : ∀ text, (∀ err, text = .error err → err.Proper) → Keeps registered (next text)) :
    Keeps registered (.ask inquiry next)
  | look {change next} (h : ∀ names a, Keeps registered (next names a)) :
    Keeps registered (.look change next)

/-- Then it finds none, if the catalog answers so. -/
theorem Program.Keeps.findsNoFault {registered : Category → Bool} {program : Program}
    (h : program.Keeps registered) {names : Names} {answer : Inquiry → Convert String}
    (hanswer : ∀ inquiry : Inquiry, inquiry.Known registered → (answer inquiry).FindsNoFault) :
    (program.run names answer).FindsNoFault := by
  induction h with
  | done h => exact .ofExcept h
  | @ask inquiry next hknown _ ih =>
    intro a err herr
    unfold run at herr
    rcases hrun : answer inquiry a with ⟨text, b⟩
    have hattempt : Convert.attempt (answer inquiry) a = (.ok text, b) := by
      unfold Convert.attempt
      rw [hrun]
    rw [stateful_bind_ok hattempt] at herr
    exact ih text (fun err' htext => hanswer inquiry hknown a err' (by rw [hrun, htext])) b err herr
  | look _ ih => exact fun a err herr => ih names a _ err herr

namespace Catalog

variable {catalog : Catalog} {converters : Converters} {recipe : Recipe}

/-- **The recipe keeps to the catalog:** if it names a category, then a registered one; if it stands
    for a converter, that one does; else none of its functions finds a descriptor malformed. -/
def Admits (converters : Converters) (catalog : Catalog) (recipe : Recipe) : Prop :=
  recipe.Known catalog.categories.contains ∧
    match converters.of? recipe with
    | some converter => ∀ v, (converter v).Keeps catalog.categories.contains
    | none => ∀ err, recipe.Throws err → err.Proper

/-- **The converters of the catalog keep to it:** those of categories, and those of arguments that
    are not of any category. -/
structure SelfContained (converters : Converters) (catalog : Catalog) : Prop where
  category {c recipe} : catalog.categories.get? c = some recipe →
    recipe.All (catalog.Admits converters)
  argument {name d recipe} : catalog.descriptor? name = some d → recipe ∈ d.recipes →
    recipe.category? = none → recipe.All (catalog.Admits converters)

/-- Recipes without functions keep to every catalog, if they name no category. -/
theorem admits_of_simple (hc : recipe.category? = none) (hown : ∀ write, recipe ≠ .own write)
    (h : ∀ err, ¬ recipe.Throws err) : catalog.Admits converters recipe := by
  have hof : converters.of? recipe = none := by
    cases recipe with
    | own write => exact absurd rfl (hown write)
    | _ => rfl
  refine ⟨fun c hcategory => by simp [hc] at hcategory, ?_⟩
  rw [hof]
  exact fun err herr => absurd herr (h err)

/-- A registered category keeps to the catalog. -/
theorem all_admits_category {c : Category} (h : catalog.categories.contains c = true) :
    (Recipe.category c).All (catalog.Admits converters) := by
  refine .category ⟨fun c' hc' => ?_, fun _ herr => by cases herr⟩
  cases hc'
  exact h

/-- So does the recipe of a property, if its category is registered. -/
theorem all_admits_kind {kind : PropertyKind}
    (h : ∀ c, kind.category? = some c → catalog.categories.contains c = true) :
    kind.recipe.All (catalog.Admits converters) := by
  have hone : kind.one.All (catalog.Admits converters) := by
    unfold PropertyKind.one
    cases hc : kind.category? with
    | some c => exact all_admits_category (h c hc)
    | none => exact .plain (admits_of_simple rfl nofun nofun)
  exact PropertyKind.all_recipe hone (fun _ _ _ => admits_of_simple rfl nofun nofun)
    fun _ _ => admits_of_simple rfl nofun nofun

/-- **The converters of the standard catalog keep to it.** -/
theorem standard_selfContained : Catalog.standard.SelfContained .empty := by
  have hadmits : ∀ {recipe : Recipe}, recipe.Tolerant → Catalog.standard.Admits .empty recipe := by
    intro recipe h
    refine ⟨fun c _ => standard_contains c, ?_⟩
    rw [Converters.empty_of?]
    exact fun err herr => absurd herr (h err)
  exact ⟨fun h => (standard_tolerant.category h).mono fun _ => hadmits,
    fun h hrecipe _ => (standard_tolerant.function h hrecipe).mono fun _ => hadmits⟩

end Catalog

namespace Conversion

variable {s : Setting} {converters : Converters}

/-- **No conversion finds a descriptor malformed** if all recipes keep to the catalog. -/
theorem textWithin_findsNoFault (hcatalog : s.catalog.All (s.catalog.Admits converters))
    (hproperty : ∀ name, (s.catalog.propertyRecipe name).All (s.catalog.Admits converters))
    (limit : Nat) {t : Task} (ht : t.recipe.All (s.catalog.Admits converters)) :
    (textWithin converters s limit t).FindsNoFault := by
  -- On the limit: what is asked is asked with a lower one.
  induction limit generalizing t with
  | zero => exact .throw fun _ _ h => by cases h
  | succ limit ih =>
    obtain ⟨hknown, hhere⟩ := ht.here
    have hplain : Recipe.plain.All (s.catalog.Admits converters) :=
      .plain (Catalog.admits_of_simple rfl nofun nofun)
    rw [textWithin]
    -- A converter of the recipe asks its own questions; otherwise the outline of the recipe does.
    cases hof : converters.of? t.recipe with
    | some converter =>
      rw [hof] at hhere
      refine (hhere t.value).findsNoFault fun inquiry hinquiry => ih ?_
      cases inquiry with
      | value => exact hplain
      | category c v => exact Catalog.all_admits_category hinquiry
      | call => exact hplain
      | property name v => exact hproperty name
    | none =>
      rw [hof] at hhere
      refine outline_fails (fun err hobjects => ?_) fun t' h => ih (h.all hcatalog ht)
      -- Errors of the outline's own are not faults, but for a category that is not there.
      cases hobjects with
      | unsupported => exact fun _ _ h => by cases h
      | nameless h =>
        unfold NameRef.render at h
        split at h <;> cases h
        exact fun _ _ h => by cases h
      | thrown h => exact hhere err h
      | endless => exact fun _ _ h => by cases h
      | @missing followed c v hc h =>
        have hcontains : s.catalog.categories.contains c = true := hknown c rfl
        unfold Dict.contains at hcontains
        rw [h] at hcontains
        cases hcontains

/-- Neither does one without a limit, if there are no converters. -/
theorem text_findsNoFault (hcatalog : s.catalog.All (s.catalog.Admits .empty))
    (hproperty : ∀ name, (s.catalog.propertyRecipe name).All (s.catalog.Admits .empty))
    {recipe : Recipe} (h : recipe.All (s.catalog.Admits .empty)) (v : Value) :
    (convert s recipe v).FindsNoFault := by
  obtain ⟨limit, hlimit⟩ := (textWithin_eventually s ⟨[], recipe, v⟩).exists
  have htext : textWithin .empty s limit ⟨[], recipe, v⟩ = convert s recipe v := hlimit
  exact htext ▸ textWithin_findsNoFault hcatalog hproperty limit h

end Conversion

/-! ### Catalogs that are built -/

namespace CatalogBuilder

open Conversion

variable {b : CatalogBuilder} {catalog : Catalog} {converters : Converters}

/-- **A function or a property refers to a category that is not registered.** -/
def Dangles (b : CatalogBuilder) : Prop :=
  (∃ d ∈ b.functions, ∃ recipe ∈ d.recipes, ∃ c, recipe.category? = some c ∧
    b.registered c = false) ∨
  ∃ entry ∈ b.properties, ∃ c, entry.2.category? = some c ∧ b.registered c = false

/-- Entries with such a reference make no catalog. -/
theorem build_dangling (h : b.Dangles) :
    ∃ name message, b.build = .error (.malformedDescriptor name message) := by
  cases hb : b.build with
  | error err =>
    obtain ⟨name, message, rfl⟩ := build_error hb
    exact ⟨name, message, rfl⟩
  | ok catalog =>
    obtain ⟨hconsistent, -⟩ := build_eq_ok_iff.mp hb
    rcases h with ⟨d, hd, recipe, hrecipe, c, hc, hnot⟩ | ⟨entry, hentry, c, hc, hnot⟩
    · have hknown := (hconsistent.functions d hd).recipes recipe hrecipe c hc
      rw [hnot] at hknown
      cases hknown
    · have hknown := hconsistent.properties entry hentry c hc
      rw [hnot] at hknown
      cases hknown

/-- **All recipes of a built catalog keep to it,** if its converters do. -/
theorem all_admits (hb : b.build = .ok catalog) (hself : catalog.SelfContained converters) :
    catalog.All (catalog.Admits converters) := by
  obtain ⟨hconsistent, rfl⟩ := build_eq_ok_iff.mp hb
  refine ⟨hself.category, fun {name d recipe} hd hrecipe => ?_⟩
  cases hc : recipe.category? with
  | none => exact hself.argument hd hrecipe hc
  | some c =>
    -- The check has seen that this one is registered.
    have hknown : b.registered c = true :=
      (hconsistent.functions d (mem_functions_of_descriptor? hd)).recipes recipe hrecipe c hc
    cases recipe with
    | category c' =>
      cases hc
      exact Catalog.all_admits_category hknown
    | _ => cases hc

/-- So do those of its properties. -/
theorem all_admits_property (hb : b.build = .ok catalog) (name : String) :
    (catalog.propertyRecipe name).All (catalog.Admits converters) := by
  obtain ⟨hconsistent, rfl⟩ := build_eq_ok_iff.mp hb
  refine Catalog.all_admits_kind fun c hc => ?_
  unfold Catalog.propertyKind at hc
  cases hkind : b.catalog.properties.get? (dashCase name) with
  | none =>
    rw [hkind] at hc
    cases hc
  | some kind =>
    rw [hkind] at hc
    exact hconsistent.properties _ (mem_properties_of_get? hkind) c hc

/-- **References to unregistered categories are found when the catalog is built.** Entries with one
    make no catalog. By a catalog whose converters keep to its categories no conversion finds a
    descriptor malformed: not what a converter asks for, nor any recipe that keeps to the catalog;
    and without converters, for which there are no limits, no value, no registered category, no call
    and no property. -/
theorem build_sound (b : CatalogBuilder) :
    (b.Dangles → ∃ name message, b.build = .error (.malformedDescriptor name message)) ∧
      ∀ catalog, b.build = .ok catalog → ∀ converters, catalog.SelfContained converters →
        ∀ names : Names,
          (∀ limit, ∀ inquiry : Inquiry, inquiry.Known catalog.categories.contains →
            (answer converters ⟨catalog, names⟩ limit inquiry).FindsNoFault) ∧
          (∀ limit v, ∀ recipe : Recipe, recipe.All (catalog.Admits converters) →
            (textWithin converters ⟨catalog, names⟩ limit ⟨[], recipe, v⟩).FindsNoFault) ∧
          (converters = .empty → ∀ v,
            (convert ⟨catalog, names⟩ .plain v).FindsNoFault ∧
            (∀ c, catalog.categories.contains c = true →
              (Setting.category ⟨catalog, names⟩ c v).FindsNoFault) ∧
            (∀ function repeating,
              (Setting.call ⟨catalog, names⟩ function v repeating).FindsNoFault) ∧
            ∀ property, (Setting.property ⟨catalog, names⟩ property v).FindsNoFault) := by
  refine ⟨build_dangling, fun catalog hb converters hself names => ?_⟩
  have hall := all_admits hb hself
  have hproperty : ∀ name, (catalog.propertyRecipe name).All (catalog.Admits converters) :=
    all_admits_property hb
  have hplain : Recipe.plain.All (catalog.Admits converters) :=
    .plain (Catalog.admits_of_simple rfl nofun nofun)
  have hlimited : ∀ limit {t : Task}, t.recipe.All (catalog.Admits converters) →
      (textWithin converters ⟨catalog, names⟩ limit t).FindsNoFault :=
    fun limit _ ht => textWithin_findsNoFault hall hproperty limit ht
  refine ⟨fun limit inquiry hknown => hlimited limit ?_, fun limit v recipe h => hlimited limit h,
    ?_⟩
  -- What is asked from outside: a value, a registered category, a call or a property.
  · cases inquiry with
    | value => exact hplain
    | category c v => exact Catalog.all_admits_category hknown
    | call => exact hplain
    | property name v => exact hproperty name
  · rintro rfl v
    have hconvert : ∀ {recipe : Recipe} {v : Value}, recipe.All (catalog.Admits .empty) →
        (convert ⟨catalog, names⟩ recipe v).FindsNoFault :=
      fun h => text_findsNoFault hall hproperty h _
    refine ⟨hconvert hplain, fun c hc => hconvert (Catalog.all_admits_category hc),
      fun function repeating => ?_, fun property => hconvert (hproperty property)⟩
    rw [← convert_call]
    exact hconvert hplain

/-! ### Samples -/

/-- A converter that asks for the text of a length twice, and writes the answers side by side. -/
def pair (v : Value) : Program :=
  .ask (.category .length v) fun
    | .error err => .done (.error err)
    | .ok first => .ask (.category .length v) fun second =>
        .done (second.map fun text => first ++ " " ++ text)

/-- The function that gives the text `name` to all values stands for `converter`. -/
def converterNamed (name : String) (converter : Value → Program) : Converters := fun write =>
  match write .null with
  | .ok text => if text = name then some converter else none
  | .error _ => none

/-- Entries with that converter, and a category for it. -/
def pairs : CatalogBuilder :=
  (empty.category .length (.numeric .length)).function (.ofWhole "pair" (.own fun _ => .ok "pair"))

theorem pairs_selfContained : pairs.catalog.SelfContained (converterNamed "pair" pair) where
  category {c recipe} h := by
    obtain ⟨-, rfl⟩ : c = .length ∧ recipe = .numeric .length := by
      have hmem := Dict.mem_of_get? h
      simpa [pairs, CatalogBuilder.catalog, function, category, empty, Dict.insert] using hmem
    refine .shaped (Catalog.admits_of_simple rfl (fun _ h => by cases h) fun err herr => ?_)
      (fun _ h => by cases h) fun _ _ h => by cases h
    cases herr with
    | list hlist _ => cases hlist
    | other hother _ => cases hother
  argument {name d recipe} h hrecipe _ := by
    obtain rfl : d = .ofWhole "pair" (.own fun _ => .ok "pair") := by
      have hmem := mem_functions_of_descriptor? h
      simpa [pairs, function, category, empty] using hmem
    obtain rfl := List.mem_singleton.mp hrecipe
    -- The converter asks for its value twice and passes on what goes wrong.
    refine .own ⟨fun _ h => (by cases h), fun v => .ask rfl fun first hfirst => ?_⟩
    cases first with
    | error err => exact .done hfirst
    | ok first =>
      refine .ask rfl fun second hsecond => .done fun err herr => ?_
      cases second with
      | error err' =>
        cases herr
        exact hsecond _ rfl
      | ok second => cases herr

/-- No call of that function is malformed, whatever the limit, no call at all by the standard
    catalog, and a property alone, of a category that is not there, makes no catalog. -/
theorem build_sound_of_samples :
    (pairs.build = .ok pairs.catalog ∧
      (answer (converterNamed "pair" pair) ⟨pairs.catalog, fun _ => none⟩ 5
        (.call "pair" (.text "auto") false)
        .initial).1 = .ok "pair(auto auto)" ∧
      ∀ names limit args, (answer (converterNamed "pair" pair) ⟨pairs.catalog, names⟩ limit
        (.call "pair" args false)).FindsNoFault) ∧
    (∀ names function args repeating,
      (Setting.call ⟨.standard, names⟩ function args repeating).FindsNoFault) ∧
    ∃ name message, (empty.property "width" (.category .length)).build =
      .error (.malformedDescriptor name message) := by
  have hpairs : pairs.build = .ok pairs.catalog := rfl
  refine ⟨⟨hpairs, by decide +kernel, fun names limit args => ?_⟩,
    fun names function args repeating => ?_, ?_⟩
  · exact ((build_sound pairs).2 _ hpairs _ pairs_selfContained names).1 limit _ trivial
  · obtain ⟨-, -, hclosed⟩ := (build_sound _).2 .standard build_standard _
      Catalog.standard_selfContained names
    exact (hclosed rfl args).2.2.1 function repeating
  · refine (build_sound _).1 (.inr ⟨("width", .category .length), ?_, .length, rfl, rfl⟩)
    exact List.mem_singleton_self _

/-- A converter that asks for the text of an angle. -/
def angle (v : Value) : Program := .ask (.category .angle v) .done

/-- **What converters do is not checked:** a catalog is built of one that gives up as if its
    descriptor were malformed, and of one that asks for a category that is not registered. Both are
    found out when a value is converted. -/
theorem build_misses :
    (∃ catalog, (empty.function (.ofWhole "f" (.own fun _ =>
        .error (.malformedDescriptor "f" "broken")))).build = .ok catalog ∧
      (Setting.call ⟨catalog, fun _ => none⟩ "f" .null false .initial).1 =
        .error (.malformedDescriptor "f" "broken")) ∧
    ∃ catalog, (empty.function (.ofWhole "f" (.own fun _ => .ok "angle"))).build = .ok catalog ∧
      (answer (converterNamed "angle" angle) ⟨catalog, fun _ => none⟩ 5
        (.call "f" .null false) .initial).1 =
        .error (.malformedDescriptor "Angle" "well-known function is not registered") := by
  refine ⟨⟨_, rfl, ?_⟩, _, rfl, by decide +kernel⟩
  have hbroken : ∀ s,
    Task.text s ⟨[], .own fun _ => .error (.malformedDescriptor "f" "broken"), .null⟩ =
      Convert.ofExcept (.error (.malformedDescriptor "f" "broken")) := fun s => text_eq s _
  unfold Setting.call
  rw [call_eq_callBy]
  show ((argumentsBy _ (.ofWhole "f" _) .null >>= _) _).1 = _
  unfold argumentsBy
  simp only [Descriptor.ofWhole, hbroken]
  rfl

end CatalogBuilder

end StyleBook
