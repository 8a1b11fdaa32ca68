import StyleBook.Proofs.Conversion.CatalogChecks
import StyleBook.Proofs.Conversion.Operands

namespace StyleBook

/-!
# Registering in any order

A catalog is built from a sequence of registrations. What is checked depends on what was registered,
not on the order; so does what the catalog answers, unless something was registered again to replace
what was there.

* `Dict.foldl_insert_of_nodup`, `Dict.get?_perm` — dictionaries made of
  entries with keys of their own;
* `Registration`, `CatalogBuilder.collect` — the calls of a builder, and what they have collected;
* `Registration.Acceptable` — what they have to be like for a catalog;
* `Catalog.Alike` — two catalogs find the same, and write the same;
* `CatalogBuilder.collect_build` — which sequences make a catalog, in whatever order.
-/

/-! ### Dictionaries of entries -/

namespace Dict

variable {κ α : Type} [DecidableEq κ] {entries entries' d : Dict κ α}

/-- Entries with new keys are put in as they are. -/
theorem foldl_insert_of_nodup (h : (keys (d ++ entries)).Nodup) :
    entries.foldl (fun d (k, v) => insert k v d) d = d ++ entries := by
  induction entries generalizing d with
  | nil => rw [List.foldl_nil, List.append_nil]
  | cons entry rest ih =>
    obtain ⟨k, v⟩ := entry
    have hnew : k ∉ d.keys := by
      unfold keys at h
      rw [List.map_append, List.map_cons, List.nodup_append] at h
      exact fun hk => h.2.2 k hk k List.mem_cons_self rfl
    rw [List.append_cons] at h
    rw [List.foldl_cons]
    simp only [insert_of_notMem hnew]
    rw [ih h, ← List.append_cons]

/-- What is found does not depend on the order of entries, if each key has one. -/
theorem get?_perm (h : entries.Perm entries') (hnodup : entries.keys.Nodup) (key : κ) :
    entries.get? key = entries'.get? key := by
  have hkeys : entries.keys.Perm entries'.keys := h.map Prod.fst
  cases hget : entries.get? key with
  | some value => exact (get?_of_mem (hkeys.nodup_iff.mp hnodup) (h.subset (mem_of_get? hget))).symm
  | none =>
    rw [get?_eq_none_iff] at hget
    exact (get?_eq_none_iff.mpr fun hkey => hget (hkeys.symm.subset hkey)).symm

end Dict

/-! ### Registrations -/

/-- **A call of a builder.** -/
inductive Registration
  /-- The recipe of a category, which may replace another one. -/
  | category (c : Category) (recipe : Recipe)
  /-- A function. -/
  | function (d : Descriptor)
  /-- The kind of a property. -/
  | property (name : String) (kind : PropertyKind)
  /-- All standard entries. -/
  | standard

namespace Registration

/-- The categories that the call registers. -/
def categories : Registration → Dict Category Recipe
  | category c recipe => [(c, recipe)]
  | standard => Standard.categories
  | _ => []

/-- The functions that the call registers. -/
def functions : Registration → List Descriptor
  | function d => [d]
  | standard => Standard.functions
  | _ => []

/-- The properties that the call registers. -/
def properties : Registration → Dict String PropertyKind
  | property name kind => [(name, kind)]
  | standard => Standard.properties
  | _ => []

/-- What the call does. -/
def apply : Registration → CatalogBuilder → CatalogBuilder
  | category c recipe => .category c recipe
  | function d => .function d
  | property name kind => .property name kind
  | standard => .addStandard

/-- **The calls make a catalog:** each function is consistent, with the categories that are
    registered by any of the calls, no two functions have one name, and the categories of
    properties are registered. -/
structure Acceptable (calls : List Registration) : Prop where
  consistent : ∀ d ∈ calls.flatMap functions,
    d.Consistent fun c => c ∈ Dict.keys (calls.flatMap categories)
  names : ((calls.flatMap functions).map Descriptor.name).Nodup
  known : ∀ entry ∈ calls.flatMap properties, ∀ c, entry.2.category? = some c →
    c ∈ Dict.keys (calls.flatMap categories)

variable {calls calls' : List Registration}

/-- The order of calls does not matter for that. -/
theorem Acceptable.perm (h : Acceptable calls) (hperm : calls.Perm calls') : Acceptable calls' := by
  have hcategories : ∀ c, c ∈ Dict.keys (calls.flatMap categories) ↔
      c ∈ Dict.keys (calls'.flatMap categories) := fun c =>
    ((hperm.flatMap_right categories).map Prod.fst).mem_iff
  have hfunctions := hperm.flatMap_right functions
  refine ⟨fun d hd => ?_, ?_, fun entry hentry c hc => ?_⟩
  · simp only [← hcategories]
    exact h.consistent d (hfunctions.mem_iff.mpr hd)
  · exact (hfunctions.map Descriptor.name).nodup_iff.mp h.names
  · rw [← hcategories]
    exact h.known entry ((hperm.flatMap_right properties).mem_iff.mpr hentry) c hc

end Registration

namespace CatalogBuilder

open Registration (Acceptable)

variable {calls calls' : List Registration} {catalog catalog' : Catalog}

/-- **What the calls have collected,** one after the other. -/
def collect (calls : List Registration) : CatalogBuilder :=
  calls.foldl (fun b call => call.apply b) .empty

/-- A call puts its categories in, and its functions and properties behind all others. -/
theorem apply_eq (call : Registration) (b : CatalogBuilder) :
    call.apply b =
      { categories := call.categories.foldl (fun d (k, v) => Dict.insert k v d) b.categories
        functions := b.functions ++ call.functions
        properties := b.properties ++ call.properties } := by
  cases call with
  | category c recipe =>
    show CatalogBuilder.mk _ _ _ = .mk _ (_ ++ []) (_ ++ [])
    rw [List.append_nil, List.append_nil]
    rfl
  | function d =>
    show CatalogBuilder.mk _ _ _ = .mk _ _ (_ ++ [])
    rw [List.append_nil]
    rfl
  | property name kind =>
    show CatalogBuilder.mk _ _ _ = .mk _ (_ ++ []) _
    rw [List.append_nil]
    rfl
  | standard => rfl

/-- Together they have put in all their categories, functions and properties. -/
theorem collect_eq (calls : List Registration) :
    collect calls =
      { categories :=
          (calls.flatMap Registration.categories).foldl (fun d (k, v) => Dict.insert k v d) []
        functions := calls.flatMap Registration.functions
        properties := calls.flatMap Registration.properties } := by
  -- Put in on top of what a builder holds already.
  have hfold : ∀ b : CatalogBuilder, calls.foldl (fun b call => call.apply b) b =
      { categories := (calls.flatMap Registration.categories).foldl
          (fun d (k, v) => Dict.insert k v d) b.categories
        functions := b.functions ++ calls.flatMap Registration.functions
        properties := b.properties ++ calls.flatMap Registration.properties } := by
    induction calls with
    | nil =>
      intro b
      simp
    | cons call rest ih =>
      intro b
      rw [List.foldl_cons, ih, apply_eq]
      simp only [List.flatMap_cons, List.foldl_append, List.append_assoc]
  rw [collect, hfold]
  rfl

/-- A category is registered if one of the calls has registered it. -/
theorem registered_collect (c : Category) :
    (collect calls).registered c = true ↔
    c ∈ Dict.keys (calls.flatMap Registration.categories) := by
  rw [collect_eq]
  show (Dict.get? c _).isSome = true ↔ _
  rw [Dict.isSome_get?_iff, Dict.mem_keys_foldl_insert]
  simp

/-- **The collected entries are consistent exactly if the calls are acceptable.** -/
theorem consistent_collect : (collect calls).Consistent ↔ Acceptable calls := by
  have hregistered : (collect calls).registered =
      fun c => decide (c ∈ Dict.keys (calls.flatMap Registration.categories)) := by
    funext c
    rw [Bool.eq_iff_iff, registered_collect, decide_eq_true_iff]
  have hfunctions : (collect calls).functions = calls.flatMap Registration.functions := by
    rw [collect_eq]
  have hproperties : (collect calls).properties = calls.flatMap Registration.properties := by
    rw [collect_eq]
  constructor
  · rintro ⟨hfun, hnames, hprop⟩
    rw [hfunctions] at hfun hnames
    rw [hproperties] at hprop
    exact ⟨by rwa [hregistered] at hfun, hnames,
      fun entry hentry c hc => (registered_collect c).mp (hprop entry hentry c hc)⟩
  · rintro ⟨hfun, hnames, hprop⟩
    refine ⟨?_, ?_, fun entry hentry c hc => (registered_collect c).mpr ?_⟩
    · rwa [hfunctions, hregistered]
    · rwa [hfunctions]
    · exact hprop entry (hproperties ▸ hentry) c hc

/-- **A catalog is built exactly if the calls are acceptable.** -/
theorem collect_build_iff :
    (∃ catalog, (collect calls).build = .ok catalog) ↔ Acceptable calls := by
  rw [← consistent_collect]
  constructor
  · rintro ⟨catalog, h⟩
    exact (build_eq_ok_iff.mp h).1
  · exact fun h => ⟨_, build_eq_ok_iff.mpr ⟨h, rfl⟩⟩

/-- The catalog, when no category and no property is registered twice: all entries as they came. -/
theorem collect_catalog (hcategories : (Dict.keys (calls.flatMap Registration.categories)).Nodup)
    (hproperties : (Dict.keys (calls.flatMap Registration.properties)).Nodup)
    (h : (collect calls).build = .ok catalog) :
    catalog =
      { categories := calls.flatMap Registration.categories
        functions := (calls.flatMap Registration.functions).map fun d => (d.name, d)
        properties := calls.flatMap Registration.properties } := by
  obtain ⟨-, rfl⟩ := build_eq_ok_iff.mp h
  have hc : (calls.flatMap Registration.categories).foldl (fun d (k, v) => Dict.insert k v d) [] =
      calls.flatMap Registration.categories :=
    Dict.foldl_insert_of_nodup (by rwa [List.nil_append])
  have hp : (calls.flatMap Registration.properties).foldl
      (fun known entry => Dict.insert entry.1 entry.2 known) [] =
      calls.flatMap Registration.properties :=
    Dict.foldl_insert_of_nodup (by rwa [List.nil_append])
  unfold CatalogBuilder.catalog
  rw [collect_eq]
  simp only [hc, hp]

end CatalogBuilder

/-! ### Catalogs that answer alike -/

namespace Catalog

/-- **Both catalogs find the same:** recipes of categories, descriptors of functions and kinds of
    properties, and as many of each. -/
structure Alike (catalog catalog' : Catalog) : Prop where
  category (c : Category) : catalog.categories.get? c = catalog'.categories.get? c
  descriptor (name : String) : catalog.descriptor? name = catalog'.descriptor? name
  property (name : String) : catalog.properties.get? name = catalog'.properties.get? name
  built : catalog.built = catalog'.built

variable {catalog catalog' : Catalog}

/-- **Then both write the same,** by every recipe. -/
theorem Alike.convert (h : catalog.Alike catalog') (names : Names) (recipe : Recipe) (v : Value) :
    convert ⟨catalog, names⟩ recipe v = convert ⟨catalog', names⟩ recipe v := by
  have hknown : Conversion.KnownAlike ⟨catalog, names⟩ ⟨catalog', names⟩ ⟨[], recipe, v⟩ :=
    fun _ _ => ⟨rfl, fun _ => h.category _, fun _ => h.descriptor _⟩
  exact Conversion.text_congr hknown

theorem Alike.propertyKind (h : catalog.Alike catalog') (name : String) :
    catalog.propertyKind name = catalog'.propertyKind name := by
  unfold Catalog.propertyKind
  rw [h.property]

end Catalog

namespace CatalogBuilder

open Registration (Acceptable)

variable {calls calls' : List Registration} {catalog catalog' : Catalog}

/-- The order of the calls does not matter, if none of them replaces what
    another one has registered. -/
theorem collect_alike (hperm : calls.Perm calls')
    (hcategories : (Dict.keys (calls.flatMap Registration.categories)).Nodup)
    (hproperties : (Dict.keys (calls.flatMap Registration.properties)).Nodup)
    (h : (collect calls).build = .ok catalog) (h' : (collect calls').build = .ok catalog') :
    catalog.Alike catalog' := by
  have hcats := hperm.flatMap_right Registration.categories
  have hfuns := hperm.flatMap_right Registration.functions
  have hprops := hperm.flatMap_right Registration.properties
  -- Functions have different names since the catalog was built.
  have hnames : (Dict.keys
    ((calls.flatMap Registration.functions).map fun d => (d.name, d))).Nodup := by
    unfold Dict.keys
    rw [List.map_map]
    exact (collect_build_iff.mp ⟨catalog, h⟩).names
  rw [collect_catalog hcategories hproperties h,
    collect_catalog ((hcats.map Prod.fst).nodup_iff.mp hcategories)
      ((hprops.map Prod.fst).nodup_iff.mp hproperties) h']
  refine ⟨fun c => Dict.get?_perm hcats hcategories c, fun name => ?_,
    fun name => Dict.get?_perm hprops hproperties name, ?_⟩
  · exact Dict.get?_perm (hfuns.map _) hnames name
  · unfold Catalog.built
    rw [hcats.length_eq, (hfuns.map _).length_eq, hprops.length_eq]

/-- **Which calls make a catalog, and that their order does not matter.** A catalog is built exactly
    if all fields and parameters of functions are as they have to be, all categories that are
    referred to are registered, and no function is registered twice. Two orders of the same calls,
    in which no category and no property is registered twice, make a catalog or do not, together; if
    they do, both catalogs find and write the same. -/
theorem collect_build (calls : List Registration) :
    ((∃ catalog, (collect calls).build = .ok catalog) ↔ Acceptable calls) ∧
    ∀ calls' : List Registration, calls.Perm calls' →
      (Dict.keys (calls.flatMap Registration.categories)).Nodup →
      (Dict.keys (calls.flatMap Registration.properties)).Nodup →
        ((∃ catalog, (collect calls).build = .ok catalog) ↔
          ∃ catalog, (collect calls').build = .ok catalog) ∧
        ∀ catalog catalog', (collect calls).build = .ok catalog →
          (collect calls').build = .ok catalog' →
            catalog.Alike catalog' ∧
            (∀ name, catalog.propertyKind name = catalog'.propertyKind name) ∧
            ∀ (names : Names) (v : Value),
              (∀ recipe, convert ⟨catalog, names⟩ recipe v = convert ⟨catalog', names⟩ recipe v) ∧
              (∀ c, Setting.category ⟨catalog, names⟩ c v = Setting.category ⟨catalog', names⟩ c v)
              ∧
              (∀ function repeating, Setting.call ⟨catalog, names⟩ function v repeating =
                Setting.call ⟨catalog', names⟩ function v repeating) ∧
              ∀ name, Setting.property ⟨catalog, names⟩ name v =
                Setting.property ⟨catalog', names⟩ name v := by
  -- Acceptance does not depend on the order, and neither does what is found.
  refine ⟨collect_build_iff, fun calls' hperm hcategories hproperties => ⟨?_, ?_⟩⟩
  · rw [collect_build_iff, collect_build_iff]
    exact ⟨fun h => h.perm hperm, fun h => h.perm hperm.symm⟩
  · intro catalog catalog' h h'
    have halike := collect_alike hperm hcategories hproperties h h'
    refine ⟨halike, halike.propertyKind,
      fun names v => ⟨fun recipe => halike.convert names recipe v,
      fun c => halike.convert names (.category c) v, fun function repeating => ?_, fun name => ?_⟩⟩
    · rw [← Conversion.convert_call, ← Conversion.convert_call]
      exact halike.convert names .plain _
    · unfold Setting.property Catalog.propertyRecipe
      rw [← halike.propertyKind name]
      exact halike.convert names _ v

/-- Calls that refer to a category before it is registered. -/
def lateCalls : List Registration :=
  [.property "gap" (.category .length),
    .function (.ofParams "inset" "," [.ofCategory "side" .length, .plain "rest"]),
    .category .length (.numeric .length)]

/-- They make a catalog, also the other way round, and both write a gap the same way. Without the
    category they make none. -/
theorem collect_build_of_late :
    Acceptable lateCalls ∧ ¬ Acceptable (lateCalls.take 2) ∧
    ∃ catalog catalog', (collect lateCalls).build = .ok catalog ∧
      (collect lateCalls.reverse).build = .ok catalog' ∧
      Setting.property ⟨catalog, fun _ => none⟩ "gap" (.number 1) =
        Setting.property ⟨catalog', fun _ => none⟩ "gap" (.number 1) := by
  have hboth : ∃ catalog catalog', (collect lateCalls).build = .ok catalog ∧
      (collect lateCalls.reverse).build = .ok catalog' := ⟨_, _, rfl, rfl⟩
  obtain ⟨catalog, catalog', h, h'⟩ := hboth
  have hwithout : ∃ err, (collect (lateCalls.take 2)).build = .error err := ⟨_, rfl⟩
  obtain ⟨hmakes, horder⟩ := collect_build lateCalls
  refine ⟨hmakes.mp ⟨catalog, h⟩, fun hacceptable => ?_, catalog, catalog', h, h', ?_⟩
  · obtain ⟨err, herr⟩ := hwithout
    obtain ⟨other, hother⟩ := (collect_build (lateCalls.take 2)).1.mpr hacceptable
    cases herr.symm.trans hother
  · obtain ⟨-, halike⟩ := horder _ (List.reverse_perm _).symm (by decide) (by decide)
    obtain ⟨-, -, hwrites⟩ := halike catalog catalog' h h'
    exact (hwrites (fun _ => none) (.number 1)).2.2.2 "gap"

end CatalogBuilder

end StyleBook
