import StyleBook.Proofs.Sheet.Overlays
import StyleBook.Proofs.Sheet.Spellings

namespace StyleBook

/-!
# What is written last

However a styleset was made, it is the ordered dictionary of all properties that were written on the
way, those of merged stylesets in their place. A property is found under each spelling of its name,
with the value and the importance of the last write; properties are listed in the
order of their first writes.

* `Dict.keys_insertAll`, `Dict.map_eq_filterMap` — the keys of a dictionary that was put together,
  and its entries by their keys;
* `Styleset.Write`, `Styleset.writesOf` — all that edits write, in order;
  `Styleset.properties_applyAll` — that is all that matters for properties;
* `Styleset.lastWrite?`, `Styleset.written` — the last write under a name, and the names in order;
* `Styleset.splitBy` — edits of a styleset whose flags stand apart from its properties;
* `Styleset.build_ordered` — what is found, listed and flagged behind any edits.
-/

/-! ### Dictionaries that are put together -/

namespace Dict

variable {κ α : Type} [DecidableEq κ] {d : Dict κ α}

theorem insertAll_append (first second d : Dict κ α) :
    insertAll (first ++ second) d = insertAll second (insertAll first d) := List.foldl_append

/-- The keys stand in the order in which they came in first. -/
theorem keys_insertAll (entries : Dict κ α) : keys
    (insertAll entries []) = (keys entries).eraseDups := by
  -- From the end: the last entry finds the keys of all others.
  induction entries using List.reverseRecOn with
  | nil => rfl
  | append_singleton before entry ih =>
    obtain ⟨k, v⟩ := entry
    have hkeys : keys (before ++ [(k, v)]) = keys before ++ [k] := by simp [keys]
    rw [insertAll_append, insertAll_cons, insertAll_nil, keys_insert, ih, hkeys,
      List.eraseDups_append]
    by_cases h : k ∈ keys before
    · simp [h, List.removeAll]
    · simp [h, List.removeAll, List.eraseDups_cons]

/-- Entries are listed by their keys. -/
theorem map_eq_filterMap {β : Type} (hd : d.keys.Nodup) (f : α → β) :
    d.map (Prod.map id f) = d.keys.filterMap fun k => (d.get? k).map fun v => (k, f v) := by
  unfold keys
  rw [List.filterMap_map, ← List.filterMap_eq_map]
  refine List.filterMap_congr fun entry hentry => ?_
  obtain ⟨k, v⟩ := entry
  simp [get?_of_mem hd hentry]

end Dict

namespace Styleset

/-! ### All that is written -/

/-- A property that is written, under a name in any spelling. -/
structure Write where
  /-- The name. -/
  name : String
  /-- The value. -/
  value : Value
  /-- Whether it is `!important`. -/
  important : Bool

/-- The declaration that is written. -/
def Write.declaration (w : Write) : Declaration := ⟨w.value, w.important⟩

/-- The entry that is written, under the dash-case name. -/
def Write.entry (w : Write) : String × Declaration := (dashCase w.name, w.declaration)

mutual

/-- What an edit writes. -/
def Edit.writes : Edit → List Write
  | .set name value => [⟨name, value, false⟩]
  | .setImportant name value => [⟨name, value, true⟩]
  | .merge source => writesOf source
  | _ => []

/-- **What edits write,** in order. -/
def writesOf : List Edit → List Write
  | [] => []
  | edit :: rest => edit.writes ++ writesOf rest

end

mutual

/-- An edit puts in what it writes. -/
theorem Edit.properties_apply : ∀ (edit : Edit) (s : Styleset),
    (edit.apply s).properties = Dict.insertAll (edit.writes.map Write.entry) s.properties
  | .set _ _, _ => rfl
  | .setImportant _ _, _ => rfl
  | .addCustom _, _ => rfl
  | .customNamed _ _ _, _ => rfl
  | .dependent _ _, _ => rfl
  | .merge source, s => by
    rw [Edit.apply, properties_merge, properties_applyAll source]
    -- The merged styleset was put together from nothing.
    exact Dict.insertAll_insertAll proper_empty _ s.properties

/-- **Edits put in what they write,** one after the other. -/
theorem properties_applyAll : ∀ (edits : List Edit) (s : Styleset),
    (applyAll edits s).properties = Dict.insertAll ((writesOf edits).map Write.entry) s.properties
  | [], _ => rfl
  | edit :: rest, s => by
    show (applyAll rest (edit.apply s)).properties = _
    rw [properties_applyAll rest, Edit.properties_apply edit, writesOf, List.map_append,
      Dict.insertAll_append]

end

/-- The last write under a name, of all spellings. -/
def lastWrite? (name : String) (log : List Write) : Option Write :=
  log.reverse.find? fun w => dashCase w.name = dashCase name

/-- The names that are written, in dash-case, each where it is written first. -/
def written (log : List Write) : List String := (log.map fun w => dashCase w.name).eraseDups

/-- **The last write counts.** -/
theorem declaration?_build (edits : List Edit) (name : String) :
    (build edits).declaration? name = (lastWrite? name (writesOf edits)).map Write.declaration := by
  unfold declaration? build
  rw [properties_applyAll]
  refine (Dict.get?_foldl_insert_last _ _ _).trans ?_
  rw [show empty.properties = [] from rfl, Dict.get?_nil, Option.or_none, ← List.map_reverse,
    List.find?_map, Option.map_map]
  rfl

/-- **The first writes give the order.** -/
theorem keys_build (edits : List Edit) :
    Dict.keys (build edits).properties = written (writesOf edits) := by
  unfold build written
  rw [properties_applyAll]
  show Dict.keys (Dict.insertAll _ []) = _
  rw [Dict.keys_insertAll]
  simp [Dict.keys, Write.entry, Function.comp_def]

/-- Properties are declared under names in dash-case. -/
theorem dashCase_of_mem_keys {edits : List Edit} {key : String}
    (h : key ∈ Dict.keys (build edits).properties) : dashCase key = key := by
  rw [keys_build, written, List.mem_eraseDups] at h
  obtain ⟨w, -, rfl⟩ := List.mem_map.mp h
  exact dashCase_dashCase w.name

theorem applyAll_append (first second : List Edit) (s : Styleset) :
    applyAll (first ++ second) s = applyAll second (applyAll first s) := by
  induction first generalizing s with
  | nil => rfl
  | cons edit rest ih => exact ih (edit.apply s)

/-- What another styleset declares is written when that is merged. -/
theorem declaration?_merge (ht : t.Proper) (s : Styleset) (name : String) :
    (s.merge t).declaration? name = (t.declaration? name).or (s.declaration? name) :=
  Dict.get?_foldl_insert ht

/-! ### Flags apart from properties -/

mutual

/-- An edit of a styleset with flags apart from its properties. -/
def Edit.splitBy : Edit → Split → Split
  | .set name value, p => p.put (dashCase name) value false
  | .setImportant name value, p => p.put (dashCase name) value true
  | .addCustom property, p => { p with custom := p.custom ++ [property] }
  | .customNamed token name value, p =>
    let name := String.ofList (stripDashes name.toList)
    { p with custom := p.custom ++ [⟨.ofName token name .customProperty, none, value⟩] }
  | .dependent selector styles, p => { p with dependents := p.dependents ++ [(selector, styles)] }
  | .merge source, p => p.merge (splitBy source .empty)

/-- **Edits of a styleset with flags apart from its properties,** one after the other. -/
def splitBy : List Edit → Split → Split
  | [], p => p
  | edit :: rest, p => splitBy rest (edit.splitBy p)

end

mutual

theorem Edit.split_apply : ∀ (edit : Edit) (s : Styleset),
    (edit.apply s).split = edit.splitBy s.split
  | .set name value, s => split_insert s (dashCase name) ⟨value, false⟩
  | .setImportant name value, s => split_insert s (dashCase name) ⟨value, true⟩
  | .addCustom _, _ => rfl
  | .customNamed _ _ _, _ => rfl
  | .dependent _ _, _ => rfl
  | .merge source, s => by
    show (s.merge (build source)).split = s.split.merge (splitBy source .empty)
    rw [split_merge (proper_build source), build, split_applyAll source]
    rfl

/-- **Flags can be kept apart** whatever is done. -/
theorem split_applyAll : ∀ (edits : List Edit) (s : Styleset),
    (applyAll edits s).split = splitBy edits s.split
  | [], _ => rfl
  | edit :: rest, s => by
    show (applyAll rest (edit.apply s)).split = splitBy rest (edit.splitBy s.split)
    rw [split_applyAll rest, Edit.split_apply edit]

end

/-- **What is found, listed and flagged behind any edits.** A property has the value and the
    importance that were written last under its name, in any spelling; merging writes what the other
    styleset declares. Each property is listed once, in the order of first writes. Flags that are
    kept apart tell the same, and all of them are about properties that are there. -/
theorem build_ordered (edits : List Edit) :
    let s := build edits
    let log := writesOf edits
    let p := splitBy edits .empty
    (∀ name, s.get? name = (lastWrite? name log).map (·.value)) ∧
    (∀ name, s.isImportant name = true ↔ ∃ w, lastWrite? name log = some w ∧ w.important = true) ∧
    (∀ source name, (build (edits ++ [.merge source])).declaration? name =
      ((build source).declaration? name).or (s.declaration? name)) ∧
    (Dict.keys s.properties).Nodup ∧ Dict.keys s.properties = written log ∧
    s.properties.map (Prod.map id (·.value)) =
      (written log).filterMap (fun key => (lastWrite? key log).map fun w => (key, w.value)) ∧
    p = s.split ∧ (∀ name, dashCase name ∈ p.flagged ↔ s.isImportant name = true) ∧
    ∀ name ∈ p.flagged, name ∈ Dict.keys p.values := by
  intro s log p
  have hp : p = s.split := (split_applyAll edits empty).symm
  refine ⟨fun name => ?_, fun name => ?_, fun source name => ?_, proper_build edits,
    keys_build edits, ?_,
    hp, fun name => ?_, fun name hname => ?_⟩
  · rw [get?, declaration?_build, Option.map_map]
    rfl
  · rw [isImportant, declaration?_build]
    cases lastWrite? name log with
    | none => simp
    | some w => simp [Write.declaration]
  · rw [build, applyAll_append]
    exact declaration?_merge (proper_build source) s name
  · rw [Dict.map_eq_filterMap (proper_build edits), keys_build]
    -- Keys are looked up as they are, names in dash-case; keys are in dash-case already.
    refine List.filterMap_congr fun key hkey => ?_
    have hdash : dashCase key = key := dashCase_of_mem_keys ((keys_build edits).symm ▸ hkey)
    have hfound : Dict.get? key s.properties = (lastWrite? key log).map Write.declaration := by
      have := declaration?_build edits key
      rwa [declaration?, hdash] at this
    rw [hfound, Option.map_map]
    rfl
  · rw [hp, mem_flagged_split, isImportant, declaration?]
    cases Dict.get? (dashCase name) s.properties <;> simp
  · rw [hp, mem_flagged_split] at hname
    rw [hp, keys_values_split]
    obtain ⟨d, hd, -⟩ := (Option.any_eq_true _ _).mp hname
    exact Dict.mem_keys_of_get? hd

/-- The flag of a merged property is found under the name in another spelling. -/
example :
    let s := build [.setImportant "width" .null, .set "backgroundColor" .null,
      .merge [.setImportant "background-color" (.bool true), .set "width" .null]]
    s.properties.map (fun entry => (entry.1, entry.2.important)) =
      [("width", false), ("background-color", true)] := by
  decide +kernel

end Styleset

end StyleBook
