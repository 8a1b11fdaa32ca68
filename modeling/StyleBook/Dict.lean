namespace StyleBook

/-!
# Dictionaries in insertion order

A dictionary is the list of its entries, each key once, in the order in which the keys came in.

* `Dict.get?`, `Dict.contains` — look a key up;
* `Dict.insert` — replaces the value of a key where it stands, and appends a new key;
* `Dict.erase` — removes a key and closes the gap.
-/

/-- Entries in insertion order. -/
abbrev Dict (κ α : Type) := List (κ × α)

namespace Dict

variable {κ α : Type} [DecidableEq κ]

/-- The value of a key. -/
def get? (key : κ) : Dict κ α → Option α
  | [] => none
  | (k, v) :: rest => if k = key then some v else get? key rest

/-- Whether a key is present. -/
def contains (key : κ) (d : Dict κ α) : Bool := (d.get? key).isSome

/-- The value of a key replaced in its place, or a new entry at the end. -/
def insert (key : κ) (value : α) : Dict κ α → Dict κ α
  | [] => [(key, value)]
  | (k, v) :: rest => if k = key then (key, value) :: rest else (k, v) :: insert key value rest

/-- The dictionary without a key. -/
def erase (key : κ) : Dict κ α → Dict κ α
  | [] => []
  | (k, v) :: rest => if k = key then erase key rest else (k, v) :: erase key rest

/-- The keys, in order. -/
def keys (d : Dict κ α) : List κ := d.map Prod.fst

/-- The values, in the order of their keys. -/
def values (d : Dict κ α) : List α := d.map Prod.snd

@[simp] theorem get?_nil (key : κ) : get? key ([] : Dict κ α) = none := rfl

/-- What was inserted is found. -/
@[simp] theorem get?_insert_self (key : κ) (value : α) (d : Dict κ α) :
    (d.insert key value).get? key = some value := by
  induction d with
  | nil => simp [insert, get?]
  | cons entry rest ih =>
    obtain ⟨k, v⟩ := entry
    by_cases h : k = key
    · simp [insert, get?, h]
    · simp [insert, get?, h, ih]

/-- Inserting a key leaves every other key alone. -/
theorem get?_insert_of_ne {key other : κ} (h : other ≠ key) (value : α) (d : Dict κ α) :
    (d.insert key value).get? other = d.get? other := by
  induction d with
  | nil => simp [insert, get?, Ne.symm h]
  | cons entry rest ih =>
    obtain ⟨k, v⟩ := entry
    by_cases hk : k = key
    · subst hk
      simp [insert, get?, Ne.symm h]
    · simp [insert, get?, hk, ih]

omit [DecidableEq κ] in
@[simp] theorem keys_nil : keys ([] : Dict κ α) = [] := rfl

omit [DecidableEq κ] in
@[simp] theorem keys_cons (entry : κ × α) (d : Dict κ α) :
    keys (entry :: d) = entry.1 :: keys d := rfl

/-- Inserting appends the key if it is new and keeps the order of the keys otherwise. -/
theorem keys_insert (key : κ) (value : α) (d : Dict κ α) :
    (d.insert key value).keys = if key ∈ d.keys then d.keys else d.keys ++ [key] := by
  induction d with
  | nil => simp [insert]
  | cons entry rest ih =>
    obtain ⟨k, v⟩ := entry
    by_cases h : k = key
    · simp [insert, h]
    · have h' : ¬ key = k := fun e => h e.symm
      by_cases hm : key ∈ keys rest
      · rw [if_pos hm] at ih
        simp [insert, h, ih, hm]
      · rw [if_neg hm] at ih
        simp [insert, h, h', ih, hm]

/-- A key once erased is not found. -/
@[simp] theorem get?_erase_self (key : κ) (d : Dict κ α) : (d.erase key).get? key = none := by
  induction d with
  | nil => rfl
  | cons entry rest ih =>
    obtain ⟨k, v⟩ := entry
    by_cases h : k = key
    · simp [erase, h, ih]
    · simp [erase, get?, h, ih]

/-- Erasing a key leaves every other key alone. -/
theorem get?_erase_of_ne {key other : κ} (h : other ≠ key) (d : Dict κ α) :
    (d.erase key).get? other = d.get? other := by
  induction d with
  | nil => rfl
  | cons entry rest ih =>
    obtain ⟨k, v⟩ := entry
    by_cases hk : k = key
    · subst hk
      simp [erase, get?, Ne.symm h, ih]
    · simp [erase, get?, hk, ih]

/-- What is found after an insertion. -/
theorem get?_insert (key other : κ) (value : α) (d : Dict κ α) :
    (d.insert key value).get? other = if other = key then some value else d.get? other := by
  by_cases h : other = key
  · subst h
    simp
  · rw [get?_insert_of_ne h, if_neg h]

/-- What is found after an erasure. -/
theorem get?_erase (key other : κ) (d : Dict κ α) :
    (d.erase key).get? other = if other = key then none else d.get? other := by
  by_cases h : other = key
  · subst h
    simp
  · rw [get?_erase_of_ne h, if_neg h]

/-- A key is found exactly if it is one of the keys. -/
theorem isSome_get?_iff {key : κ} {d : Dict κ α} : (d.get? key).isSome ↔ key ∈ d.keys := by
  induction d with
  | nil => simp
  | cons entry rest ih =>
    obtain ⟨k, v⟩ := entry
    by_cases h : k = key
    · simp [get?, h]
    · simp [get?, h, ih, Ne.symm h]

/-- A key is not found exactly if it is none of the keys. -/
theorem get?_eq_none_iff {key : κ} {d : Dict κ α} : d.get? key = none ↔ key ∉ d.keys := by
  rw [← isSome_get?_iff, Option.not_isSome_iff_eq_none]

/-- What is found is one of the keys. -/
theorem mem_keys_of_get? {key : κ} {value : α} {d : Dict κ α} (h : d.get? key = some value) :
    key ∈ d.keys := isSome_get?_iff.mp (by rw [h]; rfl)

/-- What is found is an entry. -/
theorem mem_of_get? {key : κ} {value : α} {d : Dict κ α} (h : d.get? key = some value) :
    (key, value) ∈ d := by
  induction d with
  | nil => simp at h
  | cons entry rest ih =>
    obtain ⟨k, v⟩ := entry
    by_cases hk : k = key
    · simp [get?, hk] at h
      simp [hk, h]
    · rw [get?, if_neg hk] at h
      exact List.mem_cons_of_mem _ (ih h)

/-- An entry is found if each key has one entry. -/
theorem get?_of_mem {key : κ} {value : α} {d : Dict κ α} (hd : d.keys.Nodup)
    (h : (key, value) ∈ d) : d.get? key = some value := by
  induction d with
  | nil => simp at h
  | cons entry rest ih =>
    obtain ⟨k, v⟩ := entry
    rw [keys_cons, List.nodup_cons] at hd
    rcases List.mem_cons.mp h with heq | hmem
    · cases heq
      simp [get?]
    · have hkey : key ∈ keys rest := List.mem_map_of_mem (f := Prod.fst) hmem
      have hne : k ≠ key := fun he => hd.1 (he ▸ hkey)
      rw [get?, if_neg hne]
      exact ih hd.2 hmem

/-- A new key goes to the end. -/
theorem insert_of_notMem {key : κ} {value : α} {d : Dict κ α} (h : key ∉ d.keys) :
    d.insert key value = d ++ [(key, value)] := by
  induction d with
  | nil => rfl
  | cons entry rest ih =>
    obtain ⟨k, v⟩ := entry
    rw [keys_cons, List.mem_cons, not_or] at h
    rw [insert, if_neg (Ne.symm h.1), ih h.2]
    rfl

/-- Erasing keeps the other keys in order. -/
theorem keys_erase (key : κ) (d : Dict κ α) : (d.erase key).keys = d.keys.filter (· ≠ key) := by
  induction d with
  | nil => rfl
  | cons entry rest ih =>
    obtain ⟨k, v⟩ := entry
    by_cases h : k = key
    · simp [erase, h, ih]
    · simp [erase, h, ih]

/-- A new entry is taken out again. -/
theorem erase_insert_of_notMem {key : κ} {value : α} {d : Dict κ α} (h : key ∉ d.keys) :
    (d.insert key value).erase key = d := by
  induction d with
  | nil => simp [insert, erase]
  | cons entry rest ih =>
    obtain ⟨k, v⟩ := entry
    rw [keys_cons, List.mem_cons, not_or] at h
    have hk : k ≠ key := Ne.symm h.1
    simp only [insert, erase, if_neg hk, ih h.2]

/-- Dictionaries with the same keys in the same order, and the same values, are equal. -/
theorem ext_keys {d d' : Dict κ α} (hkeys : d.keys = d'.keys) (hnodup : d.keys.Nodup)
    (hget : ∀ key ∈ d.keys, d.get? key = d'.get? key) : d = d' := by
  induction d generalizing d' with
  | nil =>
    cases d' with
    | nil => rfl
    | cons entry rest => cases hkeys
  | cons entry rest ih =>
    obtain ⟨k, v⟩ := entry
    cases d' with
    | nil => cases hkeys
    | cons entry' rest' =>
      obtain ⟨k', v'⟩ := entry'
      rw [keys_cons, keys_cons, List.cons.injEq] at hkeys
      obtain ⟨rfl : k = k', hrest⟩ := hkeys
      rw [keys_cons, List.nodup_cons] at hnodup
      have hv : v = v' := by simpa [get?] using hget k List.mem_cons_self
      rw [hv, ih hrest hnodup.2 fun key hkey => ?_]
      have hne : k ≠ key := fun heq => hnodup.1 (heq ▸ hkey)
      simpa [get?, hne] using hget key (List.mem_cons_of_mem _ hkey)

/-- An insertion keeps the keys apart. -/
theorem nodup_keys_insert {d : Dict κ α} (hd : d.keys.Nodup) (key : κ) (value : α) :
    (d.insert key value).keys.Nodup := by
  rw [keys_insert]
  by_cases h : key ∈ d.keys
  · rwa [if_pos h]
  · rw [if_neg h]
    exact List.nodup_append.mpr ⟨hd, by simp, by
      intro a ha b hb
      rw [List.mem_singleton] at hb
      exact fun he => h (hb ▸ he ▸ ha)⟩

/-- The keys when entries were put in, one after the other. -/
theorem mem_keys_foldl_insert {key : κ} {entries d : Dict κ α} :
    key ∈ keys (entries.foldl (fun d (k, v) => insert k v d) d) ↔ key ∈ d.keys ∨
    key ∈ entries.keys := by
  induction entries generalizing d with
  | nil => simp
  | cons entry rest ih =>
    obtain ⟨k, v⟩ := entry
    rw [List.foldl_cons, ih, keys_insert, keys_cons, List.mem_cons]
    by_cases hk : k ∈ d.keys
    · rw [if_pos hk]
      constructor
      · rintro (h | h)
        · exact .inl h
        · exact .inr (.inr h)
      · rintro (h | rfl | h)
        · exact .inl h
        · exact .inl hk
        · exact .inr h
    · rw [if_neg hk, List.mem_append, List.mem_singleton, or_assoc]

/-- What is found when entries were put in: the new entry of the key, or what was found before. -/
theorem get?_foldl_insert {key : κ} {entries d : Dict κ α} (h : entries.keys.Nodup) :
    get? key (entries.foldl (fun d (k, v) => insert k v d) d) =
      (entries.get? key).or (d.get? key) := by
  induction entries generalizing d with
  | nil => rfl
  | cons entry rest ih =>
    obtain ⟨k, v⟩ := entry
    rw [keys_cons, List.nodup_cons] at h
    rw [List.foldl_cons, ih h.2, get?_insert, get?]
    by_cases hk : key = k
    · subst hk
      rw [if_pos rfl, if_pos rfl, get?_eq_none_iff.mpr h.1, Option.none_or, Option.some_or]
    · rw [if_neg hk, if_neg (Ne.symm hk)]

/-- Keys stay apart when entries are put in. -/
theorem nodup_keys_foldl_insert {entries d : Dict κ α} (hd : d.keys.Nodup) :
    (keys (entries.foldl (fun d (k, v) => insert k v d) d)).Nodup := by
  induction entries generalizing d with
  | nil => exact hd
  | cons entry rest ih => exact ih (nodup_keys_insert hd entry.1 entry.2)

/-- Replacing a value changes how many entries a property counts by the old and the new entry. -/
theorem countP_insert {key : κ} {old : α} {d : Dict κ α} (h : d.get? key = some old) (value : α)
    (p : κ × α → Bool) :
    (d.insert key value).countP p + (if p (key, old) then 1 else 0) =
      d.countP p + (if p (key, value) then 1 else 0) := by
  induction d with
  | nil => simp at h
  | cons entry rest ih =>
    obtain ⟨k, v⟩ := entry
    by_cases hk : k = key
    · subst hk
      rw [get?, if_pos rfl] at h
      cases h
      rw [insert, if_pos rfl, List.countP_cons, List.countP_cons]
      omega
    · rw [get?, if_neg hk] at h
      have := ih h
      rw [insert, if_neg hk, List.countP_cons, List.countP_cons]
      omega

/-- Changing all values changes the one that is inserted. -/
theorem map_insert {β : Type} (f : α → β) (key : κ) (value : α) (d : Dict κ α) :
    (d.insert key value).map (Prod.map id f) = Dict.insert key (f value)
    (d.map (Prod.map id f)) := by
  induction d with
  | nil => rfl
  | cons entry rest ih =>
    obtain ⟨k, v⟩ := entry
    by_cases hk : k = key
    · rw [insert, if_pos hk, List.map_cons, List.map_cons, Prod.map_apply, Prod.map_apply, insert]
      exact (if_pos hk).symm
    · rw [insert, if_neg hk, List.map_cons, ih, List.map_cons, Prod.map_apply, insert]
      exact (if_neg hk).symm

/-- A value of a changed dictionary. -/
theorem get?_map {β : Type} (f : α → β) (key : κ) (d : Dict κ α) :
    Dict.get? key (d.map (Prod.map id f)) = (d.get? key).map f := by
  induction d with
  | nil => rfl
  | cons entry rest ih =>
    obtain ⟨k, v⟩ := entry
    by_cases hk : k = key
    · rw [List.map_cons, Prod.map_apply, get?, get?, id_eq, if_pos hk, if_pos hk, Option.map_some]
    · rw [List.map_cons, Prod.map_apply, get?, get?, id_eq, if_neg hk, if_neg hk, ih]

end Dict

end StyleBook
