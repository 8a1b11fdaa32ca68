import Mathlib
import StyleBook.Proofs.Conversion.Registrations
import StyleBook.Sheet.Styleset

namespace StyleBook

/-!
# Stylesets one over the other

Properties of the upper styleset replace those of the lower one where they stand, new ones go to the
end, and all else is appended. It does not matter which of three stylesets are put together first,
and the empty one changes nothing; so a rule may inherit what its parents have put together before.

* `Dict.insertAll`, `Dict.insertAll_insertAll` — entries put into a dictionary one after the other,
  and those of a dictionary that was itself put together in this way;
* `Styleset.Proper` — each property is declared once;
  `Styleset.merge_assoc`, `Styleset.empty_merge`;
* `Styleset.Split` — a styleset whose flags stand apart from its properties; `Styleset.split_merge`;
* `Styleset.Edit`, `Styleset.build` — what is done to stylesets, and what comes of it;
* `Styleset.build_merge_laws` — how stylesets that were made in this way are merged.
-/

/-! ### Dictionaries -/

namespace Dict

variable {κ α : Type} [DecidableEq κ] {key other : κ} {v w : α} {b d entries : Dict κ α}

/-- Entries put in, one after the other. -/
def insertAll (entries d : Dict κ α) : Dict κ α := entries.foldl (fun d (k, v) => insert k v d) d

@[simp] theorem insertAll_nil (d : Dict κ α) : insertAll [] d = d := rfl

@[simp] theorem insertAll_cons (key : κ) (v : α) (entries d : Dict κ α) :
    insertAll ((key, v) :: entries) d = insertAll entries (insert key v d) := rfl

/-- What was inserted last counts. -/
theorem insert_insert (key : κ) (v w : α) (d : Dict κ α) :
    insert key v (insert key w d) = insert key v d := by
  induction d with
  | nil => simp [insert]
  | cons entry rest ih =>
    obtain ⟨k, u⟩ := entry
    by_cases h : k = key
    · simp [insert, h]
    · simp [insert, h, ih]

/-- A key that is there keeps its place, so it may as well be inserted first. -/
theorem insert_comm_of_mem (hne : key ≠ other) (h : key ∈ d.keys) :
    insert key v (insert other w d) = insert other w (insert key v d) := by
  -- Of two new keys, the one that is inserted first would stand first.
  induction d with
  | nil => simp at h
  | cons entry rest ih =>
    obtain ⟨k, u⟩ := entry
    by_cases hk : k = key
    · subst hk
      simp [insert, hne]
    · have hrest : key ∈ keys rest := by simpa [Ne.symm hk] using h
      by_cases ho : k = other
      · subst ho
        simp [insert, hk]
      · simp [insert, hk, ho, ih hrest]

theorem insert_insertAll_of_mem (hnew : key ∉ entries.keys) (h : key ∈ d.keys) :
    insert key v (insertAll entries d) = insertAll entries (insert key v d) := by
  induction entries generalizing d with
  | nil => rfl
  | cons entry rest ih =>
    obtain ⟨k, u⟩ := entry
    rw [keys_cons, List.mem_cons, not_or] at hnew
    have hmem : key ∈ keys (insert k u d) := by
      rw [keys_insert]
      split
      · exact h
      · exact List.mem_append_left _ h
    rw [insertAll_cons, insertAll_cons, ih hnew.2 hmem, insert_comm_of_mem hnew.1 h]

/-- One more entry among those that are put in comes last, wherever it stands among them. -/
theorem insertAll_insert (hentries : entries.keys.Nodup) (key : κ) (v : α) (d : Dict κ α) :
    insertAll (insert key v entries) d = insert key v (insertAll entries d) := by
  induction entries generalizing d with
  | nil => rfl
  | cons entry rest ih =>
    obtain ⟨k, u⟩ := entry
    rw [keys_cons, List.nodup_cons] at hentries
    by_cases h : k = key
    · subst h
      -- The key has no other entry, so the value it had may be put in and overwritten at the end.
      have hmem : k ∈ keys (insert k u d) := isSome_get?_iff.mp (by rw [get?_insert_self]; rfl)
      rw [insert, if_pos rfl, insertAll_cons, insertAll_cons,
        insert_insertAll_of_mem hentries.1 hmem,
        insert_insert]
    · rw [insert, if_neg h, insertAll_cons, insertAll_cons, ih hentries.2]

/-- **Putting in what was put together is putting in all of it.** -/
theorem insertAll_insertAll (hb : b.keys.Nodup) (c a : Dict κ α) :
    insertAll (insertAll c b) a = insertAll c (insertAll b a) := by
  induction c generalizing b with
  | nil => rfl
  | cons entry rest ih =>
    obtain ⟨k, u⟩ := entry
    rw [insertAll_cons, insertAll_cons, ih (nodup_keys_insert hb k u), insertAll_insert hb]

end Dict

namespace Styleset

/-! ### One over the other -/

/-- **Each property is declared once.** -/
def Proper (s : Styleset) : Prop := (Dict.keys s.properties).Nodup

variable {s t : Styleset}

/-- Stylesets that declare the same properties in the same order, and all else in the same order,
    are equal. -/
@[ext] theorem ext (hproperties : s.properties = t.properties) (hcustom : s.custom = t.custom)
    (hdependents : s.dependents = t.dependents) : s = t := by
  cases s
  cases t
  cases hproperties
  cases hcustom
  cases hdependents
  rfl

theorem properties_merge (s t : Styleset) :
    (s.merge t).properties = Dict.insertAll t.properties s.properties := rfl

theorem proper_empty : empty.Proper := List.nodup_nil

theorem Proper.declare (h : s.Proper) (name : String) (value : Value) (important : Bool) :
    (s.declare name value important).Proper := Dict.nodup_keys_insert h _ _

theorem Proper.merge (h : s.Proper) (t : Styleset) : (s.merge t).Proper :=
  Dict.nodup_keys_foldl_insert h

@[simp] theorem merge_empty (s : Styleset) : s.merge empty = s := by
  ext1
  · rfl
  · exact List.append_nil _
  · exact List.append_nil _

/-- The empty styleset changes nothing below another one. -/
theorem empty_merge (h : s.Proper) : empty.merge s = s := by
  ext1
  · exact Dict.foldl_insert_of_nodup h
  · rfl
  · rfl

/-- **It does not matter which stylesets are put together first.** -/
theorem merge_assoc (ht : t.Proper) (s u : Styleset) :
    (s.merge t).merge u = s.merge (t.merge u) := by
  ext1
  · exact (Dict.insertAll_insertAll ht u.properties s.properties).symm
  · exact List.append_assoc s.custom t.custom u.custom
  · exact List.append_assoc s.dependents t.dependents u.dependents

/-- What is put together from proper stylesets is proper. -/
theorem proper_foldl_merge (hs : s.Proper) (parents : List Styleset) :
    (parents.foldl merge s).Proper := by
  induction parents generalizing s with
  | nil => exact hs
  | cons parent rest ih => exact ih (hs.merge parent)

/-- **Parents can be put together before,** the first of them. -/
theorem merged_append (ps qs : List Styleset) (own : Styleset) :
    merged (ps ++ qs) own = merged (merged ps empty :: qs) own := by
  have hproper : (ps.foldl merge empty).Proper := proper_foldl_merge proper_empty ps
  unfold merged
  rw [List.foldl_append, List.foldl_cons, merge_empty, empty_merge hproper]

/-! ### Flags apart from properties -/

/-- A styleset with flags apart from its properties, in a set of their own. -/
structure Split where
  /-- The values of properties by dash-case name. -/
  values : Dict String Value
  /-- The names that are flagged as important. -/
  flagged : Finset String
  /-- Custom properties, in order. -/
  custom : List CustomProperty
  /-- Stylesets for selectors relative to the rule's own, in order. -/
  dependents : List (Selector × Styleset)

namespace Split

/-- The one that declares nothing. -/
def empty : Split := ⟨[], ∅, [], []⟩

/-- With a property declared, which is flagged, or loses the flag that it had. -/
def put (name : String) (value : Value) (important : Bool) (p : Split) : Split :=
  { p with
    values := Dict.insert name value p.values
    flagged := if important then insert name p.flagged else p.flagged.erase name }

/-- With the properties of another one declared that are flagged there, or are not, and with all
    else of it. -/
def merge (p source : Split) : Split :=
  { source.values.foldl (fun p (name, value) => p.put name value (name ∈ source.flagged)) p with
    custom := p.custom ++ source.custom
    dependents := p.dependents ++ source.dependents }

end Split

/-- The styleset with its flags apart from its properties. -/
def split (s : Styleset) : Split where
  values := s.properties.map (Prod.map id Declaration.value)
  flagged := ((Dict.keys s.properties).filter fun name =>
    (Dict.get? name s.properties).any (·.important)).toFinset
  custom := s.custom
  dependents := s.dependents

/-- The names of important properties are flagged. -/
theorem mem_flagged_split {name : String} :
    name ∈ s.split.flagged ↔ (Dict.get? name s.properties).any (·.important) = true := by
  unfold split
  simp only [List.mem_toFinset, List.mem_filter, and_iff_right_iff_imp]
  intro h
  obtain ⟨d, hd, -⟩ := (Option.any_eq_true _ _).mp h
  exact Dict.mem_keys_of_get? hd

theorem keys_values_split (s : Styleset) : Dict.keys s.split.values = Dict.keys s.properties := by
  simp [split, Dict.keys]

/-- Declaring a property puts it among the values, and sets its flag. -/
theorem split_insert (s : Styleset) (name : String) (d : Declaration) :
    split { s with properties := Dict.insert name d s.properties } =
      s.split.put name d.value d.important := by
  have hvalues := Dict.map_insert Declaration.value name d s.properties
  have hflagged : (split { s with properties := Dict.insert name d s.properties }).flagged =
      if d.important then insert name s.split.flagged else s.split.flagged.erase name := by
    ext other
    rw [mem_flagged_split, Dict.get?_insert]
    by_cases h : other = name
    · cases hd : d.important <;> simp [h, hd]
    · cases hd : d.important <;> simp [h, mem_flagged_split]
  unfold Split.put
  rw [← hflagged]
  exact congrArg (fun values => Split.mk values _ s.custom s.dependents) hvalues

/-- So does declaring several of them, when names tell which of them are important. -/
theorem split_insertAll {entries : Dict String Declaration} {flagged : Finset String}
    (h : ∀ entry ∈ entries, entry.1 ∈ flagged ↔ entry.2.important = true) (s : Styleset) :
    split { s with properties := Dict.insertAll entries s.properties } =
      (entries.map (Prod.map id Declaration.value)).foldl
        (fun p (name, value) => p.put name value (name ∈ flagged)) s.split := by
  induction entries generalizing s with
  | nil => cases s; rfl
  | cons entry rest ih =>
    obtain ⟨name, d⟩ := entry
    have hflag : decide (name ∈ flagged) = d.important := by
      rw [Bool.eq_iff_iff, decide_eq_true_iff]
      exact h _ List.mem_cons_self
    have hfirst := split_insert s name d
    -- The flags that are asked for are those of the whole dictionary, also for the rest of it.
    have hrest := ih (fun entry hentry => h entry (List.mem_cons_of_mem _ hentry))
      { s with properties := Dict.insert name d s.properties }
    rw [List.map_cons, List.foldl_cons]
    show _ = List.foldl _ (s.split.put name d.value (decide (name ∈ flagged))) _
    rw [hflag, ← hfirst]
    exact hrest

/-- **Flags can be kept apart when stylesets are merged.** -/
theorem split_merge (ht : t.Proper) (s : Styleset) : (s.merge t).split = s.split.merge t.split := by
  have hflag : ∀ entry ∈ t.properties, entry.1 ∈ t.split.flagged ↔ entry.2.important = true := by
    intro entry hentry
    rw [mem_flagged_split, Dict.get?_of_mem ht hentry]
    rfl
  -- All else is appended on both sides.
  exact congrArg (fun p : Split =>
    { p with custom := s.custom ++ t.custom, dependents := s.dependents ++ t.dependents })
    (split_insertAll hflag s)

/-! ### Stylesets as they are made -/

/-- **What is done to a styleset.** What is merged over it was made in this way too. -/
inductive Edit
  /-- A property is declared that is not important. -/
  | set (name : String) (value : Value)
  /-- A property is declared that is important. -/
  | setImportant (name : String) (value : Value)
  /-- A custom property is declared. -/
  | addCustom (property : CustomProperty)
  /-- A custom property of a fixed name is declared. -/
  | customNamed (token : Nat) (name : String) (value : Value)
  /-- A dependent styleset is added. -/
  | dependent (selector : Selector) (styles : Styleset)
  /-- Another styleset is merged over it. -/
  | merge (source : List Edit)

mutual

/-- The styleset behind an edit. -/
def Edit.apply : Edit → Styleset → Styleset
  | .set name value, s => s.set name value
  | .setImportant name value, s => s.setImportant name value
  | .addCustom property, s => s.addCustom property
  | .customNamed token name value, s => s.customNamed token name value
  | .dependent selector styles, s => s.dependent selector styles
  | .merge source, s => s.merge (applyAll source empty)

/-- The styleset behind edits, one after the other. -/
def applyAll : List Edit → Styleset → Styleset
  | [], s => s
  | edit :: rest, s => applyAll rest (edit.apply s)

end

/-- **The styleset that edits make.** -/
def build (edits : List Edit) : Styleset := applyAll edits empty

theorem Proper.apply (h : s.Proper) (edit : Edit) : (edit.apply s).Proper := by
  cases edit with
  | set name value => exact h.declare name value false
  | setImportant name value => exact h.declare name value true
  | merge source => exact h.merge _
  | _ => exact h

theorem Proper.applyAll (h : s.Proper) (edits : List Edit) : (applyAll edits s).Proper := by
  induction edits generalizing s with
  | nil => exact h
  | cons edit rest ih => exact ih (h.apply edit)

/-- Stylesets that edits make declare each property once. -/
theorem proper_build (edits : List Edit) : (build edits).Proper := proper_empty.applyAll edits

/-- What is put together from parents is made by edits too. -/
theorem merged_build (parents : List (List Edit)) (own : List Edit) :
    merged (parents.map build) (build own) = build (parents.map .merge ++ [.merge own]) := by
  have hparents : ∀ s, applyAll (parents.map .merge ++ [.merge own]) s =
      ((parents.map build).foldl merge s).merge (build own) := by
    induction parents with
    | nil => exact fun s => rfl
    | cons parent rest ih => exact fun s => ih (s.merge (build parent))
  exact (hparents empty).symm

/-- **How stylesets that edits make are merged.** It does not matter which of them are put together
    first, and the empty one changes nothing. Parents can be put together before, the first of them;
    what comes of it is made by edits again. Flags can be kept apart from properties. -/
theorem build_merge_laws (a b c own : List Edit) (ps qs : List (List Edit)) :
    ((build a).merge (build b)).merge (build c) = (build a).merge ((build b).merge (build c)) ∧
    empty.merge (build a) = build a ∧ (build a).merge empty = build a ∧
    (∀ setting, declarations setting (((build a).merge (build b)).merge (build c)) =
      declarations setting ((build a).merge ((build b).merge (build c)))) ∧
    merged ((ps ++ qs).map build) (build own) =
      merged (merged (ps.map build) empty :: qs.map build) (build own) ∧
    merged (ps.map build) (build own) = build (ps.map .merge ++ [.merge own]) ∧
    ((build a).merge (build b)).split = (build a).split.merge (build b).split := by
  have hassoc := merge_assoc (proper_build b) (build a) (build c)
  refine ⟨hassoc, empty_merge (proper_build a), merge_empty _, fun setting => ?_, ?_,
    merged_build ps own, split_merge (proper_build b) _⟩
  · rw [hassoc]
  · rw [List.map_append]
    exact merged_append _ _ _

end Styleset

end StyleBook
