import Mathlib.Data.List.Forall2
import Mathlib.Data.List.Perm.Subperm
import Mathlib.Logic.Function.Iterate
import StyleBook.Proofs.Conversion.CatalogChecks

namespace StyleBook

/-!
# Which sources a conversion asks

A conversion writes each part of a value at most once. So it asks each source at most as often as
the source occurs in the value, and the next conversion asks again.

* `Value.sources` — the sources in a value, from left to right;
* `Convert.Asks` — the sources that a conversion asks, in any state, and whether it succeeds;
  `Convert.AsksWithin` — it asks no source more often than it is among the given ones;
* `Catalog.Apart` — no record is written with two fields of one name; `Catalog.standard_apart` — not
  by the standard catalog;
* `Conversion.outline_within`, `Conversion.text_within` — what a step asks,
  and what a conversion asks;
* `Value.Listed`, `Conversion.listed_asks` — lists of sources, however nested, have all of them
  asked, in order;
* `conversions_ask` — both of them, for what values are put through.
-/

/-! ### The sources in a value -/

namespace Value

mutual

/-- The ids of the sources in a value, from left to right, each as often as it occurs. -/
def sources : Value → List Nat
  | .list items => itemsSources items
  | .record fields => fieldsSources fields
  | .call _ args _ => sources args
  | .lazy source | .custom source => [source.id]
  | .math id _ _ operands => id :: itemsSources operands
  | _ => []

/-- The sources in items. -/
def itemsSources : List Value → List Nat
  | [] => []
  | v :: rest => sources v ++ itemsSources rest

/-- The sources in fields. -/
def fieldsSources : List (String × Value) → List Nat
  | [] => []
  | (_, v) :: rest => sources v ++ fieldsSources rest

end

mutual

/-- The values that are computed on demand in a list of lists, from left to right. -/
def lazies : Value → List Value
  | .list items => itemsLazies items
  | .lazy source => [.lazy source]
  | .math id function family operands => [.math id function family operands]
  | _ => []

/-- Those in items. -/
def itemsLazies : List Value → List Value
  | [] => []
  | v :: rest => lazies v ++ itemsLazies rest

end

/-- **The value consists of lists,** nested in any way, of values that are computed on demand and of
    plain ones. -/
inductive Listed : Value → Prop
  | null : Listed .null
  | bool {b} : Listed (.bool b)
  | number {x} : Listed (.number x)
  | text {t} : Listed (.text t)
  | lazy {source} : Listed (.lazy source)
  | math {id function family operands} : Listed (.math id function family operands)
  | list {items} (h : ∀ v ∈ items, Listed v) : Listed (.list items)

/-- Fields that are left out have no sources. -/
theorem fieldsSources_filter_sublist (p : String × Value → Bool) (fields : List (String × Value)) :
    (fieldsSources (fields.filter p)).Sublist (fieldsSources fields) := by
  induction fields with
  | nil => exact .slnil
  | cons entry rest ih =>
    obtain ⟨name, v⟩ := entry
    rw [List.filter_cons]
    split
    · exact ih.append_left _
    · exact ih.trans (List.sublist_append_right _ _)

/-- Items under names have no more sources than without. -/
theorem fieldsSources_zip_sublist (names : List String) (items : List Value) :
    (fieldsSources (names.zip items)).Sublist (itemsSources items) := by
  induction names generalizing items with
  | nil => exact List.nil_sublist _
  | cons name names ih =>
    cases items with
    | nil => exact .slnil
    | cons v items => exact (ih items).append_left _

/-- The fields without one of them. -/
theorem fieldsSources_erase_sublist (name : String) (fields : List (String × Value)) :
    (fieldsSources (Dict.erase name fields)).Sublist (fieldsSources fields) := by
  induction fields with
  | nil => exact .slnil
  | cons entry rest ih =>
    obtain ⟨name', w⟩ := entry
    rw [Dict.erase]
    split
    · exact ih.trans (List.sublist_append_right _ _)
    · exact ih.append_left _

/-- **The sources of a field are apart from those of the others.** -/
theorem sources_subperm_of_get? {fields : List (String × Value)} {name : String} {v : Value}
    (h : Dict.get? name fields = some v) :
    (v.sources ++ fieldsSources (Dict.erase name fields)).Subperm (fieldsSources fields) := by
  induction fields with
  | nil => cases h
  | cons entry rest ih =>
    obtain ⟨name', w⟩ := entry
    rw [Dict.get?] at h
    rw [Dict.erase, fieldsSources]
    split at h
    · next hname =>
      cases h
      rw [if_pos hname]
      exact ((fieldsSources_erase_sublist name rest).append_left _).subperm
    · next hname =>
      rw [if_neg hname, fieldsSources]
      -- The entry that stays and the field that is taken out change places.
      have hswap : (v.sources ++ (w.sources ++ fieldsSources (Dict.erase name rest))).Perm
          (w.sources ++ (v.sources ++ fieldsSources (Dict.erase name rest))) := by
        rw [← List.append_assoc, ← List.append_assoc]
        exact List.perm_append_comm.append_right _
      exact hswap.subperm.trans ((List.subperm_append_left _).mpr (ih h))

/-- A field, or no value, has no more sources than the record. -/
theorem sources_getD_subperm (name : String) (fields : List (String × Value)) :
    ((Dict.get? name fields).getD .null).sources.Subperm (fieldsSources fields) := by
  cases h : Dict.get? name fields with
  | none => exact List.nil_subperm
  | some v => exact (List.sublist_append_left _ _).subperm.trans (sources_subperm_of_get? h)

end Value

/-- The fields for parameters have the sources of the arguments. -/
theorem Descriptor.sources_of_fieldsFor {d : Descriptor} {params : List Field} {args : Value}
    {fields : List (String × Value)} (h : d.fieldsFor params args = .ok fields) :
    (Value.fieldsSources fields).Sublist args.sources := by
  -- A single value is the list of itself.
  have hone : ∀ v : Value,
      (Value.fieldsSources ((params.map Field.name).zip [v])).Sublist v.sources := fun v => by
    have hzip := Value.fieldsSources_zip_sublist (params.map Field.name) [v]
    rwa [Value.itemsSources, Value.itemsSources, List.append_nil] at hzip
  cases args with
  | record given =>
    simp only [fieldsFor] at h
    split at h
    · cases hcheck : d.checkShape _ given with
      | error err =>
        rw [hcheck] at h
        cases h
      | ok _ =>
        rw [hcheck] at h
        cases h
        exact Value.fieldsSources_filter_sublist _ given
    · cases h
      exact .refl _
  | list items =>
    simp only [fieldsFor] at h
    split at h
    · cases h
    · cases h
      exact Value.fieldsSources_zip_sublist _ items
  | _ =>
    cases h
    exact hone _

/-! ### Conversions that ask -/

namespace Convert

variable {α β γ : Type} {c : Convert α} {succeeds : Bool} {asked asked' : List Nat}

/-- **The conversion asks these sources, one after the other, in any state,** and succeeds or fails
    in any state. -/
def Asks (c : Convert α) (succeeds : Bool) (asked : List Nat) : Prop :=
  ∀ a, (c a).1.isOk = succeeds ∧ (c a).2.asked = asked.reverse ++ a.asked

namespace Asks

theorem pure (x : α) : Asks (Pure.pure x) true [] := fun _ => ⟨rfl, rfl⟩

theorem throw (err : Error) : Asks (MonadExcept.throw err : Convert α) false [] :=
    fun _ => ⟨rfl, rfl⟩

theorem ofExcept (r : Except Error α) : Asks (Convert.ofExcept r) r.isOk [] := fun _ => ⟨rfl, rfl⟩

theorem units : Asks Convert.units true [] := fun _ => ⟨rfl, rfl⟩

theorem report (event : Event) : Asks (Convert.report event) true [] := fun _ => ⟨rfl, rfl⟩

theorem ask (id : Nat) : Asks (Convert.ask id) true [id] := fun _ => ⟨rfl, rfl⟩

/-- One conversion after the other. -/
theorem bind {f : α → Convert β} (hc : Asks c true asked) (hf : ∀ x, Asks (f x) succeeds asked') :
    Asks (c >>= f) succeeds (asked ++ asked') := fun a => by
  obtain ⟨hok, hasked⟩ := hc a
  rw [stateful_bind]
  rcases hrun : c a with ⟨err | x, a'⟩ <;> rw [hrun] at hok hasked
  · cases hok
  · obtain ⟨hok', hasked'⟩ := hf x a'
    refine ⟨hok', ?_⟩
    rw [hasked', hasked, List.reverse_append, List.append_assoc]

/-- Nothing comes after a failure. -/
theorem stop (hc : Asks c false asked) (f : α → Convert β) : Asks
    (c >>= f) false asked := fun a => by
  obtain ⟨hok, hasked⟩ := hc a
  rw [stateful_bind]
  rcases hrun : c a with ⟨err | x, a'⟩ <;> rw [hrun] at hok hasked
  · exact ⟨rfl, hasked⟩
  · cases hok

/-- What comes after it asks nothing. -/
theorem quiet {f : α → Convert β} (hc : Asks c succeeds asked) (hf : ∀ x, Asks (f x) true []) :
    Asks (c >>= f) succeeds asked := by
  cases succeeds with
  | true => simpa using hc.bind hf
  | false => exact hc.stop f

theorem attempt (hc : Asks c succeeds asked) : Asks (Convert.attempt c) true asked := fun a =>
  ⟨rfl, (hc a).2⟩

theorem mapError (hc : Asks c succeeds asked) (f : Error → Error) :
    Asks (Convert.mapError f c) succeeds asked := fun a => by
  obtain ⟨hok, hasked⟩ := hc a
  unfold Convert.mapError
  refine ⟨?_, hasked⟩
  rw [← hok]
  rcases c a with ⟨err | x, a'⟩ <;> rfl

/-- **Each time it asks again.** -/
theorem again (hc : Asks c succeeds asked) (n : Nat) (a : Ambient) :
    ((fun a => (c a).2)^[n] a).asked = (List.replicate n asked).flatten.reverse ++ a.asked := by
  induction n generalizing a with
  | zero => rfl
  | succ n ih =>
    rw [Function.iterate_succ_apply, ih, (hc a).2, List.replicate_succ, List.flatten_cons,
      List.reverse_append,
      List.append_assoc]

end Asks

/-- **The conversion asks each source at most as often as it is among the given ones.** -/
def AsksWithin (sources : List Nat) (c : Convert α) : Prop :=
  ∃ succeeds asked, asked.Subperm sources ∧ Asks c succeeds asked

namespace AsksWithin

variable {sources sources' : List Nat}

theorem mono (hc : AsksWithin sources c) (h : sources.Subperm sources') :
    AsksWithin sources' c := by
  obtain ⟨succeeds, asked, hsub, hasks⟩ := hc
  exact ⟨succeeds, asked, hsub.trans h, hasks⟩

/-- It asks nothing. -/
theorem silent (hc : Asks c succeeds []) : AsksWithin sources c := ⟨_, [], List.nil_subperm, hc⟩

theorem quiet {f : α → Convert β} (hc : AsksWithin sources c) (hf : ∀ x, Asks (f x) true []) :
    AsksWithin sources (c >>= f) := by
  obtain ⟨succeeds, asked, hsub, hasks⟩ := hc
  exact ⟨succeeds, asked, hsub, hasks.quiet hf⟩

theorem map (hc : AsksWithin sources c) (f : α → β) : AsksWithin sources (do return f (← c)) :=
  hc.quiet fun x => .pure (f x)

/-- A result that needs two conversions. -/
theorem both {d : Convert β} (hc : AsksWithin sources c) (hd : AsksWithin sources' d)
    (f : α → β → γ) :
    AsksWithin (sources ++ sources') (do return f (← c) (← d)) := by
  obtain ⟨succeeds, asked, hsub, hasks⟩ := hc
  obtain ⟨succeeds', asked', hsub', hasks'⟩ := hd
  cases succeeds with
  | false =>
    exact ⟨_, _, hsub.trans (List.sublist_append_left _ _).subperm, hasks.stop _⟩
  | true =>
    exact ⟨_, _, hsub.append hsub', hasks.bind fun x => hasks'.quiet fun y => .pure (f x y)⟩

end AsksWithin

end Convert

/-! ### Catalogs whose fields are apart -/

/-- The recipe does not write two fields of one name, if it is a shape that writes records. -/
def Recipe.Apart (recipe : Recipe) : Prop :=
  ∀ shape specs separator, recipe.shape? = some shape → shape.ofRecord = some (specs, separator) →
    (specs.map Field.name).Nodup

/-- Recipes that are no shapes write no records. -/
theorem Recipe.apart_of_shape? {recipe : Recipe} (h : recipe.shape? = none) : recipe.Apart := by
  intro shape specs separator hshape
  rw [h] at hshape
  cases hshape

theorem Recipe.apart_plain : Recipe.plain.Apart := by
  intro shape specs separator hshape hrecord
  cases hshape
  cases hrecord

/-- **No two fields have one name** in the records that the catalog writes, and no two parameters in
    the functions. -/
structure Catalog.Apart (catalog : Catalog) : Prop where
  recipes : catalog.All Recipe.Apart
  params {function d params separator} : catalog.descriptor? function = some d →
    d.arguments = .params params separator → (params.map Field.name).Nodup

/-- Categories and plain values have no fields. -/
theorem Recipe.all_apart_category (c : Category) : (Recipe.category c).All Recipe.Apart :=
  .category (apart_of_shape? rfl)

theorem Recipe.all_apart_plain : Recipe.plain.All Recipe.Apart := .plain apart_plain

theorem Recipe.all_apart_several (separator : String) :
    (Recipe.plain.several separator).All Recipe.Apart :=
  .choice (apart_of_shape? rfl) (.each (apart_of_shape? rfl) all_apart_plain) all_apart_plain

/-- Nor have numbers. -/
theorem Recipe.all_apart_numeric (family : NumericFamily) :
    (Recipe.numeric family).All Recipe.Apart := by
  refine .shaped (fun shape specs separator hshape hrecord => ?_) nofun nofun
  cases hshape
  cases hrecord

/-- Nor has what a property is written by, if its categories have none. -/
theorem Recipe.all_apart_kind (kind : PropertyKind) : kind.recipe.All Recipe.Apart := by
  refine PropertyKind.all_recipe ?_ (fun _ _ _ => apart_of_shape? rfl) fun _ _ =>
    apart_of_shape? rfl
  unfold PropertyKind.one
  split
  · exact all_apart_category _
  · exact all_apart_plain

/-- A customary recipe writes no records but shadows. -/
theorem Standard.Customary.apart {recipe : Recipe} (h : Standard.Customary recipe) :
    recipe.Apart := by
  intro shape specs separator hshape hrecord
  cases recipe with
  | plain => exact Recipe.apart_plain shape specs separator hshape hrecord
  | shaped shape' =>
    cases hshape
    rw [h.record rfl hrecord]
    decide
  | _ => cases hshape

/-- **The standard catalog keeps fields apart.** -/
theorem Catalog.standard_apart : Catalog.standard.Apart where
  recipes :=
    ⟨fun h => (standard_customary.category h).mono fun _ => Standard.Customary.apart,
      fun h hrecipe => (standard_customary.function h hrecipe).mono fun _ =>
      Standard.Customary.apart⟩
  params {function d params separator} hd hargs := by
    obtain ⟨hconsistent, hcatalog⟩ := CatalogBuilder.build_eq_ok_iff.mp build_standard
    -- Names of parameters were compared when the catalog was built.
    rw [hcatalog] at hd
    have hd := CatalogBuilder.mem_functions_of_descriptor? hd
    exact ((hconsistent.functions d hd).params hargs).2.2.1

/-! ### What a step asks -/

namespace Conversion

open StyleBook.Convert (Asks AsksWithin)

section Steps

variable {s : Setting} {ask operand : Task → Convert String}

theorem textsBy_within {write : Value → Convert String} {items : List Value}
    (h : ∀ v ∈ items, AsksWithin v.sources (write v)) :
    AsksWithin (Value.itemsSources items) (textsBy write items) := by
  induction items with
  | nil => exact .silent (.pure _)
  | cons v rest ih =>
    rw [List.forall_mem_cons] at h
    exact .both h.1 (ih h.2) _

/-- Fields are found among others, from which those that were written are taken away. -/
theorem fieldTextsBy_within {write : Recipe → Value → Convert String}
    {fields : List (String × Value)}
    {specs : List Field} (hnames : (specs.map Field.name).Nodup)
    (h : ∀ spec ∈ specs, ∀ v, Dict.get? spec.name fields = some v → v.isNull = false →
      AsksWithin v.sources (write spec.recipe v)) :
    AsksWithin (Value.fieldsSources fields) (fieldTextsBy write fields specs) := by
  -- What is written is taken away from what is left, and fields that are still
  -- to be written stay there.
  suffices hleft : ∀ left : List (String × Value),
      (∀ spec ∈ specs, Dict.get? spec.name left = Dict.get? spec.name fields) →
        AsksWithin (Value.fieldsSources left) (fieldTextsBy write fields specs) from
    hleft fields fun _ _ => rfl
  induction specs with
  | nil => exact fun _ _ => .silent (.pure _)
  | cons spec rest ih =>
    intro left hleft
    rw [List.map_cons, List.nodup_cons] at hnames
    rw [List.forall_mem_cons] at h hleft
    rw [fieldTextsBy]
    cases hv : Dict.get? spec.name fields with
    | none => exact ih hnames.2 h.2 left hleft.2
    | some v =>
      cases hnull : v.isNull with
      | true => simpa only [hnull, if_true] using ih hnames.2 h.2 left hleft.2
      | false =>
        simp only [hnull, Bool.false_eq_true, if_false]
        refine .mono (.both (h.1 v hv hnull) (ih hnames.2 h.2 (Dict.erase spec.name left) ?_) _)
          (Value.sources_subperm_of_get? (hleft.1.trans hv))
        intro other hother
        have hne : other.name ≠ spec.name := fun heq =>
          hnames.1 (heq ▸ List.mem_map_of_mem hother)
        rw [Dict.get?_erase_of_ne hne, hleft.2 other hother]

theorem recordBy_within {write : Recipe → Value → Convert String} {fields : List (String × Value)}
    {specs : List Field} {separator : String} (hnames : (specs.map Field.name).Nodup)
    (h : ∀ spec ∈ specs, ∀ v, Dict.get? spec.name fields = some v → v.isNull = false →
      AsksWithin v.sources (write spec.recipe v)) :
    AsksWithin (Value.fieldsSources fields) (recordBy write specs separator fields) := by
  rw [recordBy]
  cases unknownField? specs fields with
  | some name => exact .silent (.throw _)
  | none => exact .map (fieldTextsBy_within hnames h) _

/-- An operand that has no text has asked nevertheless. -/
theorem orDropped_asks {family : NumericFamily} {text : Convert String} {succeeds : Bool}
    {asked : List Nat}
    (h : Asks text succeeds asked) : Asks (orDropped family text) true asked := by
  refine h.attempt.quiet fun result => ?_
  cases result with
  | ok text => exact .pure _
  | error err => exact (Asks.report _).bind fun _ => .pure _

/-- The operands of a math function are asked, and nothing fails. -/
theorem operands_ask {family : NumericFamily} {operands : List Value}
    (h : ∀ v ∈ operands, AsksWithin v.sources (operand ⟨[], .numeric family, v⟩)) :
    ∃ asked, asked.Subperm (Value.itemsSources operands) ∧
      Asks (textsBy (fun v => orDropped family (operand ⟨[], .numeric family, v⟩)) operands)
      true asked := by
  induction operands with
  | nil => exact ⟨[], List.nil_subperm, .pure _⟩
  | cons v rest ih =>
    rw [List.forall_mem_cons] at h
    obtain ⟨⟨_, asked, hsub, hasks⟩, hrest⟩ := h
    obtain ⟨asked', hsub', hasks'⟩ := ih hrest
    exact ⟨asked ++ asked', hsub.append hsub',
      (orDropped_asks hasks).bind fun _ => hasks'.quiet fun _ => .pure _⟩

/-- The arguments of a call ask what is in them. -/
theorem argumentsBy_within {d : Descriptor} {args : Value}
    (hnames : ∀ params separator, d.arguments = .params params separator →
      (params.map Field.name).Nodup)
    (hwhole : ∀ inner, d.arguments = .whole inner → AsksWithin args.sources (ask ⟨[], inner, args⟩))
    (hparams : ∀ params separator fields, d.arguments = .params params separator →
      d.fieldsFor params args = .ok fields → ∀ spec ∈ params, ∀ v,
        Dict.get? spec.name fields = some v → v.isNull = false →
          AsksWithin v.sources (ask ⟨[], spec.recipe, v⟩)) :
    AsksWithin args.sources (argumentsBy ask d args) := by
  unfold argumentsBy
  -- The check of the arguments asks nothing; what is asked is asked by their recipes.
  cases hargs : d.arguments with
  | whole inner =>
    obtain ⟨succeeds, asked, hsub, hasks⟩ := hwhole inner hargs
    have hcheck := Asks.ofExcept (d.checkWhole args)
    cases hok : (d.checkWhole args).isOk <;> rw [hok] at hcheck
    · exact .silent (hcheck.stop _)
    · exact ⟨succeeds, asked, hsub, hcheck.bind fun _ => hasks⟩
  | params params separator =>
    cases hfields : d.fieldsFor params args with
    | error err =>
      simp only [hfields]
      exact .silent (.throw _)
    | ok fields =>
      simp only [hfields]
      have hrecord : AsksWithin (Value.fieldsSources fields)
          (recordBy (fun inner v => ask ⟨[], inner, v⟩) params separator fields) :=
        recordBy_within (hnames params separator hargs)
          (hparams params separator fields hargs hfields)
      obtain ⟨succeeds, asked, hsub, hasks⟩ := hrecord
      exact ⟨succeeds, asked, hsub.trans (Descriptor.sources_of_fieldsFor hfields).subperm,
        hasks.mapError _⟩

/-- **A step asks no source more often than it occurs,** if what it leads to does not. -/
theorem outline_within {t : Task} (hcatalog : s.catalog.Apart) (ht : t.recipe.Apart)
    (hask : ∀ t', Leads s.catalog t t' → AsksWithin t'.value.sources (ask t'))
    (hoperand : ∀ t', Operates t t' → AsksWithin t'.value.sources (operand t')) :
    AsksWithin t.value.sources (outline s ask operand t) := by
  obtain ⟨followed, recipe, v⟩ := t
  -- A recipe that is a shape leads to parts of the value.
  have hshaped : ∀ {shape : Shape}, recipe.shape? = some shape →
      AsksWithin v.sources (shapedBy s ask operand shape (shape.item.getD recipe) v) := by
    intro shape h
    cases v with
    | null => exact .silent (.pure _)
    | bool => exact .silent (.pure _)
    | number x =>
      unfold shapedBy
      cases shape.ofNumber with
      | some style => exact .map (.silent .units) _
      | none => exact .silent (.pure _)
    | text => exact .silent (.pure _)
    | list items =>
      unfold shapedBy
      cases hlist : shape.ofList with
      | some write => exact .silent (.ofExcept _)
      | none => exact .map (textsBy_within fun v hv => hask _ (.item h hlist hv)) _
    | record fields =>
      unfold shapedBy
      cases hrecord : shape.ofRecord with
      | some written =>
        exact recordBy_within (ht shape _ _ h hrecord) fun spec hspec v hv hnull =>
          hask _ (.field h hrecord hspec hv hnull)
      | none =>
        cases shape.ofOther with
        | some write => exact .silent (.ofExcept _)
        | none => exact .silent (.throw _)
    | call function args repeating =>
      show AsksWithin args.sources (callBy s ask function args repeating)
      unfold callBy
      cases hd : s.catalog.descriptor? function with
      | none => exact .silent (.throw _)
      | some d =>
        simp only
        split
        · exact .silent (.throw _)
        · refine .map (argumentsBy_within (fun _ _ => hcatalog.params hd) ?_ ?_) _
          · exact fun inner hargs => hask _ (.whole h hd hargs)
          · exact fun params separator fields hargs hfields spec hspec v hv hnull =>
              hask _ (.argument h hd hargs hfields hspec hv hnull)
    | ref name => exact .silent (.ofExcept _)
    | lazy source => exact .map ⟨true, _, .refl _, .ask source.id⟩ _
    | math id function family operands =>
      obtain ⟨asked, hsub, hasks⟩ := operands_ask fun v hv => hoperand _ (.operand h hv)
      exact ⟨true, id :: asked, (List.subperm_cons id).mpr hsub,
        (Asks.ask id).bind fun _ => hasks.quiet fun _ => .pure _⟩
    | custom source => exact .map ⟨true, _, .refl _, .ask source.id⟩ _
  cases recipe with
  | plain => exact hshaped rfl
  | shaped shape => exact hshaped rfl
  | category c =>
    rw [outline]
    by_cases hc : c ∈ followed
    · rw [if_pos hc]
      exact .silent (.throw _)
    · rw [if_neg hc]
      cases h : s.catalog.categories.get? c with
      | some inner => exact hask _ (.category hc h)
      | none => exact .silent (.throw _)
  | own write => exact .silent (.ofExcept _)
  | leading text inner => exact .map (hask _ .leading) _
  | enclosed opening closing inner => exact .map (hask _ .enclosed) _
  | choice test yes no =>
    rw [outline]
    cases h : test v with
    | true => exact hask _ (.yes h)
    | false => exact hask _ (.no h)
  | each item separator =>
    cases v with
    | list items => exact .map (textsBy_within fun v hv => hask _ (.each hv)) _
    | _ => exact hask _ (.one fun _ h => by cases h)
  | headed first others =>
    cases v with
    | list items =>
      cases items with
      | nil => exact .silent (.pure _)
      | cons head items =>
        exact .both (hask _ .head) (textsBy_within fun v hv => hask _ (.others hv)) _
    | _ => exact hask _ (.alone fun _ h => by cases h)
  | labelled label field inner =>
    cases v with
    | record fields =>
      rw [outline]
      refine .quiet (.mono (hask _ .labelled) ?_) fun text => ?_
      · exact Value.sources_getD_subperm field fields
      · cases (Dict.get? label fields).bind Value.text? with
        | some label => exact .pure _
        | none => exact .pure _
    | _ => exact hask _ (.unlabelled fun _ h => by cases h)

end Steps

/-- **No conversion by the standard catalog asks a source more often than it occurs,** if its recipe
    keeps fields apart. -/
theorem text_within (names : Names) {t : Task} (ht : t.recipe.All Recipe.Apart) :
    AsksWithin t.value.sources (t.text ⟨.standard, names⟩) := by
  induction t using (calls_wf Catalog.standard).induction with
  | _ t ih =>
    rw [text_eq]
    refine outline_within Catalog.standard_apart ht.here (fun t' h => ?_) fun t' h => ?_
    · exact ih t' (.inl h) (h.all Catalog.standard_apart.recipes ht)
    · refine ih t' (.inr h) ?_
      cases h with
      | operand => exact Recipe.all_apart_numeric _

theorem convert_within (names : Names) {recipe : Recipe} (h : recipe.All Recipe.Apart) (v : Value) :
    AsksWithin v.sources (convert ⟨.standard, names⟩ recipe v) :=
  text_within (t := ⟨[], recipe, v⟩) names h

/-! ### Lists of sources -/

/-- What is asked for a value that is computed on demand: its source, and behind it what occurs in
    its operands. -/
inductive AskedFor : Value → List Nat → Prop
  | lazy {source} : AskedFor (.lazy source) [source.id]
  | math {id function family operands asked} (h : asked.Subperm (Value.itemsSources operands)) :
    AskedFor (.math id function family operands) (id :: asked)

/-- **These values are asked for, one after the other:** each of them once. -/
def AsksFor {α : Type} (values : List Value) (c : Convert α) : Prop :=
  ∃ blocks, List.Forall₂ AskedFor values blocks ∧ Asks c true blocks.flatten

theorem textsBy_asksFor {write : Value → Convert String} {items : List Value}
    (h : ∀ v ∈ items, AsksFor v.lazies (write v)) :
    AsksFor (Value.itemsLazies items) (textsBy write items) := by
  induction items with
  | nil => exact ⟨[], .nil, .pure _⟩
  | cons v rest ih =>
    rw [List.forall_mem_cons] at h
    obtain ⟨⟨blocks, hblocks, hasks⟩, hrest⟩ := h
    obtain ⟨blocks', hblocks', hasks'⟩ := ih hrest
    refine ⟨blocks ++ blocks', List.rel_append hblocks hblocks', ?_⟩
    rw [List.flatten_append]
    exact hasks.bind fun _ => hasks'.quiet fun _ => .pure _

section Plain

variable (s : Setting) (separator : String)

/-- By default, values are written as the default shape says. -/
theorem convert_plain (v : Value) :
    convert s .plain v = shapedBy s (Task.text s) (Task.text ⟨.standard, s.names⟩) {} .plain v :=
  text_eq s ⟨[], .plain, v⟩

/-- Where several values are allowed, compound items of a list are separated. -/
theorem convert_several (v : Value) :
    convert s (Recipe.plain.several separator) v =
      if v.hasCompound then convert s (.each .plain separator) v else convert s .plain v :=
  text_eq s ⟨[], Recipe.plain.several separator, v⟩

theorem convert_each_list (items : List Value) :
    convert s (.each .plain separator) (.list items) = (do
      let parts ← textsBy (convert s .plain) items
      return separator.intercalate parts) :=
  text_eq s ⟨[], .each .plain separator, .list items⟩

end Plain

/-- **Lists of values that are computed on demand ask for all of them,** from left to right. -/
theorem listed_asks (names : Names) {v : Value} (hv : v.Listed) :
    AsksFor v.lazies (convert ⟨.standard, names⟩ .plain v) := by
  induction hv with
  | null | bool | number | text =>
    rw [convert_plain]
    exact ⟨[], .nil, .pure _⟩
  | @lazy source =>
    rw [convert_plain]
    exact ⟨[[source.id]], .cons .lazy .nil, (Asks.ask _).quiet fun _ => .pure _⟩
  | @math id function family operands =>
    -- In operands, sources are asked at most once: one that has no text is left out.
    have hoperands : ∀ v ∈ operands,
        AsksWithin v.sources (Task.text ⟨.standard, names⟩ ⟨[], .numeric family, v⟩) := fun v _ =>
      convert_within names (Recipe.all_apart_numeric family) v
    obtain ⟨asked, hsub, hasks⟩ := operands_ask hoperands
    refine ⟨[id :: asked], .cons (.math hsub) .nil, ?_⟩
    rw [convert_plain, List.flatten_singleton]
    exact (Asks.ask id).bind fun _ => hasks.quiet fun _ => .pure _
  | list _ ih =>
    obtain ⟨blocks, hblocks, hasks⟩ := textsBy_asksFor ih
    rw [convert_plain]
    exact ⟨blocks, hblocks, hasks.quiet fun _ => .pure _⟩

/-- They do so also where several values are allowed. -/
theorem listed_asks_several (names : Names) (separator : String) {v : Value} (hv : v.Listed) :
    AsksFor v.lazies (convert ⟨.standard, names⟩ (Recipe.plain.several separator) v) := by
  rw [convert_several]
  split
  · next hcompound =>
    cases hv with
    | list hitems =>
      obtain ⟨blocks, hblocks, hasks⟩ := textsBy_asksFor fun v hv => listed_asks names (hitems v hv)
      rw [convert_each_list]
      exact ⟨blocks, hblocks, hasks.quiet fun _ => .pure _⟩
    | _ => cases hcompound
  · exact listed_asks names hv

/-! ### What values are put through -/

/-- **The conversions of a value:** at the default, as several values, by a category, as the
    arguments of a function, and as the value of a property. -/
inductive Direct (s : Setting) (v : Value) : Convert String → Prop
  | plain : Direct s v (convert s .plain v)
  | several (separator : String) : Direct s v (convert s (Recipe.plain.several separator) v)
  | category (c : Category) : Direct s v (s.category c v)
  | call (function : String) (repeating : Bool) : Direct s v (s.call function v repeating)
  | property (name : String) : Direct s v (s.property name v)

/-- None of them asks a source more often than it occurs. -/
theorem Direct.within {names : Names} {v : Value} {c : Convert String}
    (h : Direct ⟨.standard, names⟩ v c) : AsksWithin v.sources c := by
  cases h with
  | plain => exact convert_within names Recipe.all_apart_plain v
  | several separator => exact convert_within names (Recipe.all_apart_several separator) v
  | category c => exact convert_within names (Recipe.all_apart_category c) v
  | call function repeating =>
    rw [← convert_call]
    exact convert_within names Recipe.all_apart_plain (.call function v repeating)
  | property name => exact convert_within names (Recipe.all_apart_kind _) v

end Conversion

open Conversion in
/-- **What conversions ask.** A conversion of a value asks each of its sources at most as often as
    the source occurs, the same ones in any state, and again each time it is done. For lists, nested
    in any way, of values that are computed on demand and of plain ones, it succeeds and asks for
    each of the former once, from left to right. The text of a source is its answer to the question
    that this conversion asks. -/
theorem conversions_ask (names : Names) (v : Value) :
    (∀ c, Direct ⟨.standard, names⟩ v c → ∃ succeeds asked, asked.Subperm v.sources ∧
      c.Asks succeeds asked ∧
        ∀ n a, ((fun a => (c a).2)^[n] a).asked =
        (List.replicate n asked).flatten.reverse ++ a.asked) ∧
    (v.Listed → AsksFor v.lazies (convert ⟨.standard, names⟩ .plain v) ∧
      ∀ separator, AsksFor v.lazies (convert ⟨.standard, names⟩ (Recipe.plain.several separator) v))
      ∧
    ∀ source a, convert ⟨.standard, names⟩ .plain (.lazy source) a =
      (.ok (source.text (a.count source.id)), a.ask source.id) := by
  refine ⟨fun c hc => ?_, fun hv => ⟨listed_asks names hv, fun separator => ?_⟩, fun source a => ?_⟩
  · obtain ⟨succeeds, asked, hsub, hasks⟩ := hc.within
    exact ⟨succeeds, asked, hsub, hasks, hasks.again⟩
  · exact listed_asks_several names separator hv
  · exact convert_lazy _ source a

/-- A source, and behind it, in a list, a math function of another one. -/
def nestedValue : Value :=
  .list [.lazy ⟨1, Nat.repr⟩,
    .list [.text "auto", .math 2 .min .length [.lazy ⟨3, Nat.repr⟩, .null]]]

open Conversion in
/-- As the arguments of a function, it asks no source twice; as it is, it asks the source, the math
    function and what occurs in it. -/
theorem conversions_ask_of_nested :
    (∃ succeeds asked, asked.Subperm [1, 2, 3] ∧
      (Setting.call ⟨.standard, fun _ => none⟩ "rgb" nestedValue false).Asks succeeds asked) ∧
    ∃ inner : List Nat, inner.Subperm [3] ∧
      (convert ⟨.standard, fun _ => none⟩ .plain nestedValue).Asks true (1 :: 2 :: inner) := by
  obtain ⟨hdirect, hlisted, -⟩ := conversions_ask (fun _ => none) nestedValue
  have hinner : (Value.list
    [.text "auto", .math 2 .min .length [.lazy ⟨3, Nat.repr⟩, .null]]).Listed :=
    .list (List.forall_mem_cons.mpr ⟨.text, List.forall_mem_singleton.mpr .math⟩)
  have hnested : nestedValue.Listed :=
    .list (List.forall_mem_cons.mpr ⟨.lazy, List.forall_mem_singleton.mpr hinner⟩)
  constructor
  · obtain ⟨succeeds, asked, hsub, hasks, -⟩ := hdirect _ (.call "rgb" false)
    exact ⟨succeeds, asked, hsub, hasks⟩
  · obtain ⟨⟨blocks, hblocks, hasks⟩, -⟩ := hlisted hnested
    cases hblocks with
    | cons hfirst hrest =>
      cases hfirst
      cases hrest with
      | cons hsecond hrest =>
        cases hsecond with
        | math hinner =>
          cases hrest
          exact ⟨_, hinner, by simpa using hasks⟩

end StyleBook
