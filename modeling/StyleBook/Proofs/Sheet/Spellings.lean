import Mathlib.Data.List.Basic
import Mathlib.Tactic.IntervalCases
import StyleBook.Proofs.Conversion.Registrations
import StyleBook.Sheet.Styleset

namespace StyleBook

/-!
# Spellings of a property

The name of a property consists of words, and is written with capitals or with dashes. Dash-case
makes the spelling with dashes of both, with one more dash in front of a vendor's word. Lookups in
stylesets and catalogs see nothing else of a name, so they take two spellings for one property
exactly if both have one dash-case name.

A property is looked up under any spelling of its name, and found if it was registered in dash-case.
If it was registered several times, the last time counts.

* `dashCase_dashCase`, `DashCase.any_isCapital_ofChars` — names in dash-case are their own dash-case
  names, and have no capitals;
* `DashCase.startsWithVendor_append`, `DashCase.ofChars_append` — names by their first capital: what
  stands in front of it is a vendor's word or not, whatever other vendors' words begin like it;
* `Word`, `Word.camelCase`, `Word.hyphenated` — words, and both spellings of a list of them;
* `Word.dashCase_camelCase` — dash-case leads from the first spelling to the second one, and
  `Word.splitOn_hyphenated` from there back to the words;
* `Styleset.get?_congr_iff`, `Styleset.isImportant_congr_iff`, `Catalog.propertyKind_congr_iff` —
  which names a lookup does not tell apart;
* `dashCase_spellings` — all of it;
* `Registration.lastProperty?` — the property registered last, of all that have certain names;
* `CatalogBuilder.property_found` — the kind that is found for a name, after any registrations;
* `CatalogBuilder.property_lost` — a property that was registered under
  another spelling is not found.
-/

/-! ### Without capitals -/

namespace DashCase

variable {name : List Char}

/-- The small letter of a capital is no capital. -/
theorem isCapital_toLower {c : Char} (h : isCapital c = true) : isCapital c.toLower = false := by
  obtain ⟨hlow, hhigh⟩ : 'A' ≤ c ∧ c ≤ 'Z' := by simpa [isCapital] using h
  have hlow : 65 ≤ c.toNat := hlow
  have hhigh : c.toNat ≤ 90 := hhigh
  obtain ⟨n, hn⟩ : ∃ n, c.toNat = n := ⟨_, rfl⟩
  obtain rfl : c = Char.ofNat n := by rw [← hn, Char.ofNat_toNat]
  rw [hn] at hlow hhigh
  interval_cases n <;> rfl

theorem any_isCapital_lower (name : List Char) : (lower name).any isCapital = false := by
  induction name with
  | nil => rfl
  | cons c rest ih =>
    rw [lower]
    cases hc : isCapital c with
    | true =>
      simp only [if_true, List.any_cons, isCapital_toLower hc, ih, Bool.or_false]
      rfl
    | false => simp only [Bool.false_eq_true, if_false, List.any_cons, hc, ih, Bool.or_false]

/-- A name without capitals stays as it is. -/
theorem ofChars_of_any (h : name.any isCapital = false) : ofChars name = name := by
  rw [ofChars, h, Bool.not_false, Bool.or_true, if_pos rfl]

/-- Names of custom properties stay as they are. -/
theorem ofChars_of_isCustom (h : isCustom name = true) : ofChars name = name := by
  rw [ofChars, h, Bool.true_or, if_pos rfl]

/-- All others have no capitals in dash-case. -/
theorem any_isCapital_ofChars (h : isCustom name = false) :
    (ofChars name).any isCapital = false := by
  cases hplain : name.any isCapital with
  | false => rw [ofChars_of_any hplain, hplain]
  | true =>
    rw [ofChars, h, hplain, if_neg (by decide)]
    split
    · rw [List.any_cons, any_isCapital_lower]
      rfl
    · exact any_isCapital_lower name

theorem ofChars_ofChars (name : List Char) : ofChars (ofChars name) = ofChars name := by
  cases hcustom : isCustom name with
  | true => rw [ofChars_of_isCustom hcustom, ofChars_of_isCustom hcustom]
  | false => exact ofChars_of_any (any_isCapital_ofChars hcustom)

end DashCase

/-- **Names in dash-case are their own dash-case names.** -/
theorem dashCase_dashCase (name : String) : dashCase (dashCase name) = dashCase name := by
  unfold dashCase
  rw [String.toList_ofList, DashCase.ofChars_ofChars]

/-! ### Up to the first capital -/

namespace DashCase

variable {word : List Char} {c : Char}

theorem lower_append (first second : List Char) : lower (first ++ second) = lower first ++
    lower second := by
  induction first with
  | nil => rfl
  | cons c rest ih =>
    rw [List.cons_append, lower, lower, ih]
    split <;> rfl

/-- There is nothing to lower without capitals. -/
theorem lower_of_any (h : word.any isCapital = false) : lower word = word := by
  induction word with
  | nil => rfl
  | cons c rest ih =>
    rw [List.any_cons, Bool.or_eq_false_iff] at h
    rw [lower, h.1, ih h.2, if_neg Bool.false_ne_true]

/-- What stands in front of the first capital can be read off a name. -/
theorem takeWhile_append (hword : word.any isCapital = false) (hc : isCapital c = true)
    (rest : List Char) : (word ++ c :: rest).takeWhile (fun c => !isCapital c) = word := by
  have hplain : ∀ d ∈ word, (!isCapital d) = true := by simpa using hword
  rw [List.takeWhile_append_of_pos hplain, List.takeWhile_cons, hc, Bool.not_true,
    if_neg Bool.false_ne_true, List.append_nil]

/-- Vendors' words have no capitals. -/
theorem any_isCapital_vendors : ∀ word ∈ vendors, word.any isCapital = false := by decide

/-- **A vendor's word counts exactly if it is all that stands in front of the first capital.** -/
theorem startsWithVendor_append (hword : word.any isCapital = false) (hc : isCapital c = true)
    (rest : List Char) : startsWithVendor (word ++ c :: rest) = true ↔ word ∈ vendors := by
  unfold startsWithVendor
  rw [List.any_eq_true]
  constructor
  · rintro ⟨vendor, hvendor, h⟩
    rw [Bool.and_eq_true, List.isPrefixOf_iff_prefix] at h
    obtain ⟨⟨behind, hname⟩, hnext⟩ := h
    rw [← hname, List.drop_left] at hnext
    cases behind with
    | nil => cases hnext
    | cons d behind =>
      have hd : isCapital d = true := hnext
      -- Both words end at the first capital.
      have hsame : vendor = word :=
        calc vendor
          _ = (vendor ++ d :: behind).takeWhile (fun c => !isCapital c) :=
            (takeWhile_append (any_isCapital_vendors vendor hvendor) hd behind).symm
          _ = (word ++ c :: rest).takeWhile (fun c => !isCapital c) := by rw [hname]
          _ = word := takeWhile_append hword hc rest
      exact hsame ▸ hvendor
  · intro hvendor
    refine ⟨word, hvendor, ?_⟩
    rw [Bool.and_eq_true, List.isPrefixOf_iff_prefix, List.drop_left]
    exact ⟨List.prefix_append word _, hc⟩

/-- **Dash-case leaves a name as it is up to its first capital,** but for the dash in front of a
    vendor's word. -/
theorem ofChars_append (hword : word.any isCapital = false) (hc : isCapital c = true)
    (hcustom : isCustom (word ++ c :: rest) = false) :
    ofChars (word ++ c :: rest) =
      (if word ∈ vendors then ['-'] else []) ++ (word ++ lower (c :: rest)) := by
  have hcapital : (word ++ c :: rest).any isCapital = true := by simp [hc]
  have hlower : lower (word ++ c :: rest) = word ++ lower (c :: rest) := by
    rw [lower_append, lower_of_any hword]
  rw [ofChars, hcustom, hcapital, if_neg (by decide), hlower]
  by_cases hvendor : word ∈ vendors
  · rw [if_pos hvendor, if_pos ((startsWithVendor_append hword hc rest).mpr hvendor)]
    rfl
  · rw [if_neg hvendor, if_neg fun h => hvendor ((startsWithVendor_append hword hc rest).mp h)]
    rfl

end DashCase

/-! ### Words -/

/-- **A word of a name:** a small letter, and neither dashes nor capitals behind it. -/
structure Word where
  /-- The letter that it starts with. -/
  first : Char
  /-- What stands behind it. -/
  others : List Char
  small : 'a' ≤ first ∧ first ≤ 'z'
  dashless : '-' ∉ others
  plain : others.any DashCase.isCapital = false

namespace Word

open DashCase

/-- The characters of a word. -/
def chars (w : Word) : List Char := w.first :: w.others

/-- The word as a text. -/
def text (w : Word) : String := String.ofList w.chars

/-- The characters of a word with a capital. -/
def capitalized (w : Word) : List Char := w.first.toUpper :: w.others

/-- **The words in one,** each but the first with a capital. -/
def camelCase (first : Word) (others : List Word) : String :=
  String.ofList (first.chars ++ others.flatMap capitalized)

/-- **The words with dashes between them.** -/
def hyphenated (words : List Word) : String := "-".intercalate (words.map text)

/-- A small letter is the small letter of its capital. -/
theorem toUpper_small {c : Char} (h : 'a' ≤ c ∧ c ≤ 'z') :
    isCapital c = false ∧ isCapital c.toUpper = true ∧ c.toUpper.toLower = c := by
  obtain ⟨hlow, hhigh⟩ : 97 ≤ c.toNat ∧ c.toNat ≤ 122 := h
  have hchar := Char.ofNat_toNat c
  generalize c.toNat = n at *
  subst hchar
  interval_cases n <;> decide

theorem any_isCapital_chars (w : Word) : w.chars.any isCapital = false := by
  rw [chars, List.any_cons, (toUpper_small w.small).1, w.plain, Bool.or_false]

theorem dash_notMem_chars (w : Word) : '-' ∉ w.chars := by
  rw [chars, List.mem_cons, not_or]
  refine ⟨fun h => ?_, w.dashless⟩
  have hsmall := w.small.1
  rw [← h] at hsmall
  exact absurd hsmall (by decide)

/-- A word with a capital is lowered to a dash and the word. -/
theorem lower_capitalized (w : Word) : lower w.capitalized = '-' :: w.chars := by
  obtain ⟨-, hcapital, hlower⟩ := toUpper_small w.small
  rw [capitalized, lower, if_pos hcapital, hlower, lower_of_any w.plain, chars]

theorem lower_flatMap_capitalized (words : List Word) :
    lower (words.flatMap capitalized) = words.flatMap fun w => '-' :: w.chars := by
  induction words with
  | nil => rfl
  | cons w rest ih => rw [List.flatMap_cons, lower_append, lower_capitalized, ih, List.flatMap_cons]

theorem toList_hyphenated (words : List Word) :
    (hyphenated words).toList = ['-'].intercalate (words.map chars) := by
  rw [hyphenated, String.toList_intercalate, List.map_map]
  congr 1
  exact List.map_congr_left fun w _ => String.toList_ofList

/-- Each word but the first has a dash in front. -/
theorem toList_hyphenated_cons (w : Word) (words : List Word) :
    (hyphenated (w :: words)).toList = w.chars ++ words.flatMap fun w => '-' :: w.chars := by
  rw [toList_hyphenated]
  induction words generalizing w with
  | nil => simp
  | cons next rest ih =>
    rw [List.map_cons, List.map_cons, List.intercalate_cons_cons, ← List.map_cons, ih]
    simp

/-- **The words can be read off the spelling with dashes.** -/
theorem splitOn_hyphenated (w : Word) (words : List Word) :
    (hyphenated (w :: words)).toList.splitOn '-' = (w :: words).map chars := by
  rw [toList_hyphenated]
  refine List.splitOn_intercalate '-' (fun l hl => ?_) (List.cons_ne_nil _ _)
  obtain ⟨w, -, rfl⟩ := List.mem_map.mp hl
  exact w.dash_notMem_chars

/-- The vendors' words. -/
theorem chars_mem_vendors_iff (w : Word) : w.chars ∈ vendors ↔
    w.text ∈ ["webkit", "moz", "ms", "o"] := by
  have hvendors : vendors = ["webkit", "moz", "ms", "o"].map String.toList := rfl
  have hchars : w.chars = w.text.toList := String.toList_ofList.symm
  rw [hvendors, hchars, List.mem_map_of_injective fun _ _ => String.toList_injective]

/-- **Dash-case puts dashes between the words,** and one in front of a vendor's. -/
theorem dashCase_camelCase (first second : Word) (more : List Word) :
    dashCase (first.camelCase (second :: more)) =
      (if first.text ∈ ["webkit", "moz", "ms", "o"] then "-" else "") ++
        hyphenated (first :: second :: more) := by
  have hcapital : isCapital second.first.toUpper = true := (toUpper_small second.small).2.1
  have hcustom : isCustom (first.chars ++ (second :: more).flatMap capitalized) = false := by
    -- The first word starts with a letter.
    have hdash : '-' ≠ first.first := fun h => first.dash_notMem_chars (h ▸ List.mem_cons_self)
    simp [isCustom, chars, List.isPrefixOf, hdash]
  have hlower : lower ((second :: more).flatMap capitalized) =
      (second :: more).flatMap fun w => '-' :: w.chars := lower_flatMap_capitalized _
  apply String.toList_injective
  calc (dashCase (first.camelCase (second :: more))).toList
    _ = ofChars (first.chars ++ (second :: more).flatMap capitalized) := by
      rw [dashCase, camelCase, String.toList_ofList, String.toList_ofList]
    _ = (if first.chars ∈ vendors then ['-'] else []) ++
        (first.chars ++ lower ((second :: more).flatMap capitalized)) :=
      ofChars_append first.any_isCapital_chars hcapital hcustom
    _ = (if first.text ∈ ["webkit", "moz", "ms", "o"] then ['-'] else []) ++
        (hyphenated (first :: second :: more)).toList := by
      rw [hlower, toList_hyphenated_cons]
      simp only [chars_mem_vendors_iff]
    _ = _ := by
      rw [String.toList_append, apply_ite String.toList]
      rfl

end Word

/-! ### Lookups -/

/-- Answers about the entry of a key differ between keys, if they differ
    between an entry and none. -/
theorem Dict.get?_congr_iff {κ α β : Type} [DecidableEq κ] (f : Option α → β) {value : α}
    (hf : f (some value) ≠ f none) (key other : κ) :
    (∀ d : Dict κ α, f (d.get? key) = f (d.get? other)) ↔ key = other := by
  constructor
  · intro h
    have hinserted := h (insert key value [])
    rw [get?_insert, get?_insert, if_pos rfl] at hinserted
    split at hinserted
    · next hsame => exact hsame.symm
    · exact absurd hinserted hf
  · rintro rfl d
    rfl

variable {name other : String}

/-- **Stylesets have the same values under two names exactly if both are
    spellings of one property.** -/
theorem Styleset.get?_congr_iff :
    (∀ s : Styleset, s.get? name = s.get? other) ↔ dashCase name = dashCase other := by
  have hvalue : Option.map Declaration.value (some ⟨.null, false⟩) ≠ none := nofun
  have hdict := Dict.get?_congr_iff (Option.map Declaration.value) hvalue (dashCase name)
    (dashCase other)
  exact ⟨fun h => hdict.mp fun d => h ⟨d, [], []⟩, fun h s => hdict.mpr h s.properties⟩

/-- So it is with the importance of properties. -/
theorem Styleset.isImportant_congr_iff :
    (∀ s : Styleset, s.isImportant name = s.isImportant other) ↔
    dashCase name = dashCase other := by
  let important (d : Option Declaration) : Bool := (d.map (·.important)).getD false
  have himportant : important (some ⟨.null, true⟩) ≠ important none := by decide
  have hdict := Dict.get?_congr_iff important himportant (dashCase name) (dashCase other)
  exact ⟨fun h => hdict.mp fun d => h ⟨d, [], []⟩, fun h s => hdict.mpr h s.properties⟩

/-- So it is with the kinds of properties. -/
theorem Catalog.propertyKind_congr_iff :
    (∀ catalog : Catalog, catalog.propertyKind name = catalog.propertyKind other) ↔
      dashCase name = dashCase other := by
  let kind (k : Option PropertyKind) : PropertyKind := k.getD .plain
  have hkind : kind (some (.category .length)) ≠ kind none := by decide
  have hdict := Dict.get?_congr_iff kind hkind (dashCase name) (dashCase other)
  exact ⟨fun h => hdict.mp fun d => h ⟨[], [], d⟩, fun h catalog => hdict.mpr h catalog.properties⟩

/-! ### All together -/

/-- **One property, many spellings.** Names in dash-case are their own dash-case names. They have no
    capitals, but for names of custom properties, which stay as they are. Two or more words have one
    dash-case name with capitals and with dashes: the words with dashes between them, from which
    they can be read off, and one more dash in front if the first word is a vendor's. All stylesets
    have the same values, and the same importance, under two names, and all catalogs the same kinds,
    exactly if both names have one dash-case name. -/
theorem dashCase_spellings :
    (∀ name, dashCase (dashCase name) = dashCase name ∧
      (['-', '-'] <+: name.toList → dashCase name = name) ∧
      (¬ ['-', '-'] <+: name.toList → (dashCase name).toList.any DashCase.isCapital = false)) ∧
    (∀ (first second : Word) (more : List Word),
      let words := first :: second :: more
      let vendor := if first.text ∈ ["webkit", "moz", "ms", "o"] then "-" else ""
      dashCase (first.camelCase (second :: more)) = vendor ++ Word.hyphenated words ∧
      dashCase (vendor ++ Word.hyphenated words) = vendor ++ Word.hyphenated words ∧
      (Word.hyphenated words).toList.splitOn '-' = words.map Word.chars) ∧
    ∀ name other,
      ((∀ s : Styleset, s.get? name = s.get? other) ↔ dashCase name = dashCase other) ∧
      ((∀ s : Styleset, s.isImportant name = s.isImportant other) ↔
        dashCase name = dashCase other) ∧
      ((∀ catalog : Catalog, catalog.propertyKind name = catalog.propertyKind other) ↔
        dashCase name = dashCase other) := by
  -- What dash-case names are, how words are spelled, and what look-ups tell apart.
  refine ⟨fun name => ⟨dashCase_dashCase name, fun hcustom => ?_, fun hcustom => ?_⟩,
    fun first second more => ?_, fun name other => ⟨Styleset.get?_congr_iff,
      Styleset.isImportant_congr_iff, Catalog.propertyKind_congr_iff⟩⟩
  · rw [dashCase, DashCase.ofChars_of_isCustom (List.isPrefixOf_iff_prefix.mpr hcustom),
      String.ofList_toList]
  · rw [dashCase, String.toList_ofList]
    refine DashCase.any_isCapital_ofChars ?_
    rwa [Bool.eq_false_iff, DashCase.isCustom, ne_eq, List.isPrefixOf_iff_prefix]
  · have hdash := Word.dashCase_camelCase first second more
    refine ⟨hdash, ?_, Word.splitOn_hyphenated first (second :: more)⟩
    rw [← hdash]
    exact dashCase_dashCase _

/-- A vendor's word counts, and does not count if it only begins the first word. -/
example :
    let ms : Word := ⟨'m', ['s'], by decide, by decide, by decide⟩
    let flow : Word := ⟨'f', ['l', 'o', 'w'], by decide, by decide, by decide⟩
    ms.camelCase [flow] = "msFlow" ∧ dashCase "msFlow" = "-ms-flow" ∧
      dashCase "objectFit" = "object-fit" := by decide +kernel

/-! ### Properties under all spellings of their names -/

/-! ### The last entry of a key -/

namespace Dict

variable {κ α : Type} [DecidableEq κ]

/-- When entries were put in, the last one of a key is found, or what was found before. -/
theorem get?_foldl_insert_last (key : κ) (entries d : Dict κ α) :
    get? key (entries.foldl (fun d entry => insert entry.1 entry.2 d) d) =
      ((entries.reverse.find? fun entry => entry.1 = key).map Prod.snd).or (d.get? key) := by
  induction entries generalizing d with
  | nil => rfl
  | cons entry rest ih =>
    rw [List.foldl_cons, ih, List.reverse_cons, List.find?_append, get?_insert]
    cases rest.reverse.find? fun entry => entry.1 = key with
    | some last => rfl
    | none =>
      by_cases h : entry.1 = key
      · simp [h]
      · simp [h, Ne.symm h]

end Dict

/-- The first item of many is the first one of few, if it is one of them. -/
theorem find?_eq_of_imp {α : Type} {few many : α → Bool} {list : List α}
    (himp : ∀ x, few x = true → many x = true)
    (hfirst : ∀ x, list.find? many = some x → few x = true) : list.find? few = list.find? many := by
  induction list with
  | nil => rfl
  | cons x rest ih =>
    cases hmany : many x with
    | true =>
      have hfew : few x = true := hfirst x (by rw [List.find?_cons, hmany])
      rw [List.find?_cons, List.find?_cons, hmany, hfew]
    | false =>
      have hfew : few x = false := by
        rw [Bool.eq_false_iff]
        exact fun hfew => by rw [himp x hfew] at hmany; cases hmany
      rw [List.find?_cons, List.find?_cons, hmany, hfew]
      exact ih fun y hy => hfirst y (by rw [List.find?_cons, hmany]; exact hy)

/-! ### What is found -/

/-- **The property registered last,** of those whose names, as they were given, pass a test. -/
def Registration.lastProperty? (test : String → Bool) (calls : List Registration) :
    Option (String × PropertyKind) :=
  (calls.flatMap properties).reverse.find? fun entry => test entry.1

/-- The kind that was registered last under a name that passes the test, or the default. -/
def Registration.lastKind (test : String → Bool) (calls : List Registration) : PropertyKind :=
  ((lastProperty? test calls).map Prod.snd).getD .plain

namespace CatalogBuilder

open Registration (Acceptable lastProperty? lastKind)

variable {calls : List Registration} {catalog : Catalog}

/-- A lookup finds what was registered last under the dash-case name. -/
theorem propertyKind_collect (h : (collect calls).build = .ok catalog) (name : String) :
    catalog.propertyKind name = lastKind (fun given => given = dashCase name) calls := by
  obtain ⟨-, rfl⟩ := build_eq_ok_iff.mp h
  have hproperties : (collect calls).properties = calls.flatMap Registration.properties := by
    rw [collect_eq]
  unfold Catalog.propertyKind CatalogBuilder.catalog lastKind lastProperty?
  rw [hproperties, Dict.get?_foldl_insert_last, Dict.get?_nil, Option.or_none]

/-- **Which kind a property has.** When all functions are consistent and the categories of all
    properties are registered, there is a catalog. Under any spelling of a name it finds the kind
    that was registered last under the dash-case name. All spellings find the same; and they find
    the kind that was registered last for the property, under any spelling, if that
    registration was in dash-case. -/
theorem property_found (h : Acceptable calls) :
    ∃ catalog, (collect calls).build = .ok catalog ∧ ∀ name,
      catalog.propertyKind name = lastKind (fun given => given = dashCase name) calls ∧
      (∀ other, dashCase other = dashCase name →
        catalog.propertyKind other = catalog.propertyKind name) ∧
      ((∀ entry, lastProperty? (fun given => dashCase given = dashCase name) calls = some entry →
          dashCase entry.1 = entry.1) →
        catalog.propertyKind name =
          lastKind (fun given => dashCase given = dashCase name) calls) := by
  obtain ⟨catalog, hbuild⟩ := collect_build_iff.mpr h
  refine ⟨catalog, hbuild, fun name => ⟨propertyKind_collect hbuild name, fun other hother => ?_,
    fun hlast => ?_⟩⟩
  · rw [propertyKind_collect hbuild, propertyKind_collect hbuild, hother]
  -- The last registration in dash-case is then the last one under any spelling.
  · have hsame : lastProperty? (fun given => given = dashCase name) calls =
        lastProperty? (fun given => dashCase given = dashCase name) calls := by
      refine find?_eq_of_imp (fun entry hgiven => ?_) fun entry hentry => ?_
      · have hgiven : entry.1 = dashCase name := of_decide_eq_true hgiven
        exact decide_eq_true (by rw [hgiven, dashCase_dashCase])
      · have hfound := List.find?_some hentry
        have hnamed : dashCase entry.1 = dashCase name := of_decide_eq_true hfound
        exact decide_eq_true ((hlast entry hentry).symm.trans hnamed)
    rw [propertyKind_collect hbuild, lastKind, hsame, lastKind]

/-- A property that is registered under two spellings, last in dash-case. -/
def respelledCalls : List Registration :=
  [.property "scrollMargin" .plain, .category .length (.numeric .length),
    .property "scroll-margin" (.category .length)]

/-- It is found under the other spelling too. -/
theorem property_found_respelled :
    Acceptable respelledCalls ∧
    (∀ entry, lastProperty? (fun given => dashCase given = dashCase "scrollMargin") respelledCalls =
      some entry → dashCase entry.1 = entry.1) ∧
    ∃ catalog, (collect respelledCalls).build = .ok catalog ∧
      catalog.propertyKind "scrollMargin" = .category .length := by
  have hacceptable : Acceptable respelledCalls := collect_build_iff.mp ⟨_, rfl⟩
  have hlast : lastProperty? (fun given => dashCase given = dashCase "scrollMargin")
    respelledCalls =
      some ("scroll-margin", .category .length) := by decide +kernel
  have hdash : ∀ entry, lastProperty? (fun given => dashCase given = dashCase "scrollMargin")
      respelledCalls = some entry → dashCase entry.1 = entry.1 := by
    intro entry hentry
    rw [hlast] at hentry
    cases hentry
    decide +kernel
  obtain ⟨catalog, hbuild, hfound⟩ := property_found hacceptable
  refine ⟨hacceptable, hdash, catalog, hbuild, ?_⟩
  rw [(hfound "scrollMargin").2.2 hdash, lastKind, hlast]
  rfl

/-- **A property that was registered under another spelling is not found,**
    not even under that one. -/
theorem property_lost :
    ∃ calls catalog,
      calls = [.category .length (.numeric .length), .property "scrollMargin" (.category .length)] ∧
      (collect calls).build = .ok catalog ∧
      lastKind (fun given => dashCase given = dashCase "scrollMargin") calls = .category .length ∧
      catalog.propertyKind "scrollMargin" = .plain ∧
      catalog.propertyKind "scroll-margin" = .plain := by
  refine ⟨_, _, rfl, rfl, ?_, ?_, ?_⟩ <;> decide +kernel

end CatalogBuilder

end StyleBook
