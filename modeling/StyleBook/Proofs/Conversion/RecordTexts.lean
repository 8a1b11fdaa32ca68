import StyleBook.Proofs.Conversion.Registrations

namespace StyleBook

/-!
# The texts of records

A record is written field by field, in the order of a list of fields. What is there and not null is
written, and what has a text is joined, each with its token or with the separator in front.

* `present` — the fields of a list that are there and not null, with their values;
* `Conversion.Written` — values are written one after the other;
* `joined` — texts that are not empty, one after the other; `assemble_eq_joined` —
  as they are put together;
* `Conversion.Yields` — the texts of all fields joined, or the error of the
  first one that has no text;
* `Conversion.record_yields` — what becomes of a record, and that the order of its
  own fields does not matter.
-/

variable {s : Setting} {specs : List Field} {separator : String}
    {fields fields' : List (String × Value)}

/-- **The fields that are there and not null,** in the order in which they are written. -/
def present (specs : List Field) (fields : List (String × Value)) : List (Field × Value) :=
  specs.filterMap fun spec =>
    ((Dict.get? spec.name fields).filter fun v => !v.isNull).map fun v => (spec, v)

/-- What a text that stands first has in front: its token without leading blanks, if it has one. -/
def Field.before (spec : Field) : String := (spec.token.map trimLeading).getD ""

/-- What a later text has in front: its token, or the separator. -/
def Field.between (separator : String) (spec : Field) : String := spec.token.getD separator

/-- **Texts that are not empty, joined.** -/
def joined (separator : String) (pieces : List (Field × String)) : String :=
  match pieces.filter fun piece => piece.2 ≠ "" with
  | [] => ""
  | (spec, text) :: rest =>
    spec.before ++ text ++ String.join (rest.map fun piece => piece.1.between separator ++ piece.2)

/-! ### Joining -/

/-- One more text is put behind those that are there. -/
theorem foldl_pieces {out : String} (hout : out ≠ "") (pieces : List (Field × String)) :
    pieces.foldl (fun out (field, text) =>
      if text = "" then out
      else
        let between := match field.token with
          | some token => if out = "" then trimLeading token else token
          | none => if out = "" then "" else separator
        out ++ between ++ text) out =
    out ++ String.join ((pieces.filter fun piece => piece.2 ≠ "").map fun piece =>
      piece.1.between separator ++ piece.2) := by
  induction pieces generalizing out with
  | nil => simp
  | cons piece rest ih =>
    obtain ⟨spec, text⟩ := piece
    rw [List.foldl_cons]
    -- An empty text is passed over, with what would stand before it.
    by_cases htext : text = ""
    · simp only [htext, if_true]
      rw [ih hout, List.filter_cons_of_neg (by simp)]
    · have hbetween : (match spec.token with
          | some token => if out = "" then trimLeading token else token
          | none => if out = "" then "" else separator) = spec.between separator := by
        unfold Field.between
        -- There is a text before this one, so a token is put in as it is.
        cases spec.token <;> simp [hout]
      have hmore : out ++ spec.between separator ++ text ≠ "" := by simp [hout]
      simp only [htext, if_false, hbetween]
      rw [ih hmore, List.filter_cons_of_pos (by simpa using htext), List.map_cons, String.join_cons]
      simp only [String.append_assoc]

/-- **Texts are put together as they are joined.** -/
theorem assemble_eq_joined (separator : String) (pieces : List (Field × String)) :
    assemble separator pieces = joined separator pieces := by
  induction pieces with
  | nil => rfl
  | cons piece rest ih =>
    obtain ⟨spec, text⟩ := piece
    -- The first text that is not empty decides: what comes before it leaves nothing.
    by_cases htext : text = ""
    · subst htext
      exact ih
    · have hout : spec.before ++ text ≠ "" := by simp [htext]
      have hbefore : (match spec.token with
          | some token => trimLeading token
          | none => "") = spec.before := by
        unfold Field.before
        cases spec.token <;> rfl
      unfold assemble joined
      rw [List.foldl_cons, List.filter_cons_of_pos (by simpa using htext)]
      simp only [htext, if_false, if_true, String.empty_append]
      exact (congrArg (fun first => List.foldl _ (first ++ text) rest) hbefore).trans
        (foldl_pieces hout rest)

namespace Conversion

/-! ### Writing one after the other -/

/-- **Values are written one after the other,** each with a text, on the way from
    one state to another. -/
inductive Written (s : Setting) : List (Field × Value) → Ambient → List
    (Field × String) → Ambient → Prop
  | nil {a} : Written s [] a [] a
  | cons {spec v rest text texts a₁ a₂ a₃} (h : convert s spec.recipe v a₁ = (.ok text, a₂))
    (hrest : Written s rest a₂ texts a₃) :
    Written s ((spec, v) :: rest) a₁ ((spec, text) :: texts) a₃

/-- **What becomes of values that are written one after the other:** their texts
    joined, or the first error. -/
inductive Yields (s : Setting) (separator : String) (values : List (Field × Value)) (a : Ambient) :
    Except Error String × Ambient → Prop
  /-- All of them have texts. -/
  | texts {texts a'} (h : Written s values a texts a') :
    Yields s separator values a (.ok (joined separator texts), a')
  /-- Some have texts, and the next one has none. -/
  | error {before spec v after texts a₁ err a₂} (hvalues : values = before ++ (spec, v) :: after)
    (hbefore : Written s before a texts a₁) (h : convert s spec.recipe v a₁ = (.error err, a₂)) :
    Yields s separator values a (.error err, a₂)

/-- Values written one after the other, as the conversion of a record does it. -/
def writeAll (s : Setting) : List (Field × Value) → Convert (List (Field × String))
  | [] => return []
  | (spec, v) :: rest => do
    let text ← convert s spec.recipe v
    let texts ← writeAll s rest
    return (spec, text) :: texts

/-- Fields that are not there or null are not written. -/
theorem fieldTexts_eq_writeAll (s : Setting) (specs : List Field) (fields : List (String × Value)) :
    fieldTexts s specs fields = writeAll s (present specs fields) := by
  induction specs with
  | nil =>
    rw [fieldTexts]
    rfl
  | cons spec rest ih =>
    unfold present at ih ⊢
    cases hv : Dict.get? spec.name fields with
    | none => rw [fieldTexts_none hv, ih, List.filterMap_cons_none (by rw [hv]; rfl)]
    | some v =>
      rw [fieldTexts_some hv, ih]
      cases hnull : v.isNull with
      | true => rw [if_pos rfl, List.filterMap_cons_none (by simp [hv, hnull])]
      | false =>
        rw [if_neg Bool.false_ne_true,
          List.filterMap_cons_some (b := (spec, v)) (by simp [hv, hnull])]
        rfl

/-- All of them have texts. -/
theorem writeAll_eq_ok_iff {values : List (Field × Value)} {a a' : Ambient}
    {texts : List (Field × String)} :
    writeAll s values a = (.ok texts, a') ↔ Written s values a texts a' := by
  constructor
  · intro h
    induction values generalizing a texts with
    | nil =>
      cases h
      exact .nil
    | cons value rest ih =>
      obtain ⟨text, a₁, htext, h⟩ := stateful_bind_eq_ok h
      obtain ⟨others, a₂, hothers, h⟩ := stateful_bind_eq_ok h
      cases h
      exact .cons htext (ih hothers)
  · intro h
    induction h with
    | nil => rfl
    | cons htext _ ih =>
      rw [writeAll, stateful_bind_ok htext, stateful_bind_ok ih]
      rfl

/-- The error is that of the first one that has no text. -/
theorem writeAll_eq_error_iff {values : List (Field × Value)} {a a' : Ambient} {err : Error} :
    writeAll s values a = (.error err, a') ↔
      ∃ before spec v after texts a₁, values = before ++ (spec, v) :: after ∧
        Written s before a texts a₁ ∧ convert s spec.recipe v a₁ = (.error err, a') := by
  constructor
  · intro h
    induction values generalizing a with
    | nil => cases h
    | cons value rest ih =>
      obtain ⟨spec, v⟩ := value
      rw [writeAll, stateful_bind] at h
      -- The first value fails, or it is written and one of the rest fails.
      rcases htext : convert s spec.recipe v a with ⟨err' | text, a₁⟩ <;> rw [htext] at h
      · cases h
        exact ⟨[], spec, v, rest, [], a, rfl, .nil, htext⟩
      · simp only [stateful_bind] at h
        rcases hrest : writeAll s rest a₁ with ⟨err' | texts, a₂⟩ <;> rw [hrest] at h <;> cases h
        obtain ⟨before, spec', v', after, texts, a₃, hsplit, hbefore, herr⟩ := ih hrest
        exact ⟨(spec, v) :: before, spec', v', after, _, a₃, by rw [hsplit]; rfl,
          .cons htext hbefore,
          herr⟩
  · rintro ⟨before, spec, v, after, texts, a₁, rfl, hbefore, herr⟩
    induction hbefore with
    | nil => exact stateful_bind_error herr _
    | cons htext _ ih =>
      rw [List.cons_append, writeAll, stateful_bind_ok htext]
      exact stateful_bind_error (ih herr) _

/-! ### Records -/

/-- All fields of the record are to be written. -/
theorem unknownField?_eq_none_iff :
    unknownField? specs fields = none ↔ ∀ entry ∈ fields, ∃ spec ∈ specs, spec.name = entry.1 := by
  unfold unknownField?
  rw [Option.map_eq_none_iff, List.find?_eq_none]
  simp

theorem record_of_known (h : unknownField? specs fields = none) (a : Ambient) :
    record s specs separator fields a = match writeAll s (present specs fields) a with
      | (.ok texts, a') => (.ok (joined separator texts), a')
      | (.error err, a') => (.error err, a') := by
  rw [record, h]
  simp only
  rw [fieldTexts_eq_writeAll, stateful_bind]
  rcases writeAll s (present specs fields) a with ⟨err | texts, a'⟩
  · rfl
  · exact congrArg (fun text => (Except.ok text, a')) (assemble_eq_joined separator texts)

/-- Only what is there and not null counts. -/
theorem record_congr (h : unknownField? specs fields = none)
    (h' : unknownField? specs fields' = none)
    (hpresent : present specs fields = present specs fields') :
    record s specs separator fields = record s specs separator fields' := by
  funext a
  rw [record_of_known h, record_of_known h', hpresent]

/-- If all its fields are to be written, a record yields what those do that
    are there and not null. -/
theorem record_eq_iff (h : unknownField? specs fields = none) {a : Ambient}
    {outcome : Except Error String × Ambient} :
    record s specs separator fields a = outcome ↔
      Yields s separator (present specs fields) a outcome := by
  rw [record_of_known h]
  constructor
  · rintro rfl
    rcases htexts : writeAll s (present specs fields) a with ⟨err | texts, a'⟩
    · obtain ⟨before, spec, v, after, texts, a₁, hsplit, hbefore, herr⟩ :=
        writeAll_eq_error_iff.mp htexts
      exact .error hsplit hbefore herr
    · exact .texts (writeAll_eq_ok_iff.mp htexts)
  · intro h
    cases h with
    | texts h => rw [writeAll_eq_ok_iff.mpr h]
    | error hsplit hbefore herr =>
      rw [writeAll_eq_error_iff.mpr ⟨_, _, _, _, _, _, hsplit, hbefore, herr⟩]

/-- A field that is not to be written is an error, and nothing is written. -/
theorem record_of_unknown (s : Setting) (separator : String) {entry : String × Value}
    (hentry : entry ∈ fields)
    (h : ∀ spec ∈ specs, spec.name ≠ entry.1) (a : Ambient) :
    ∃ name, (∀ spec ∈ specs, spec.name ≠ name) ∧ record s specs separator fields a =
      (.error (.unsupportedValue "record field" ("unknown field '" ++ name ++ "'")), a) := by
  cases hfirst : unknownField? specs fields with
  | none =>
    obtain ⟨spec, hspec, hname⟩ := unknownField?_eq_none_iff.mp hfirst entry hentry
    exact absurd hname (h spec hspec)
  | some name =>
    refine ⟨name, ?_, by rw [record, hfirst]; rfl⟩
    obtain ⟨entry', hfind, rfl⟩ := Option.map_eq_some_iff.mp hfirst
    have hnone := List.find?_some hfind
    simpa using hnone

theorem present_perm (hperm : fields.Perm fields') (hnodup : (Dict.keys fields).Nodup) :
    present specs fields = present specs fields' := by
  unfold present
  simp only [Dict.get?_perm hperm hnodup]

/-- **What becomes of a record.** A field that is not to be written is an unsupported value.
    Otherwise the fields of the list that are there and not null are written one after the other:
    the record yields their texts joined, or the error of the first one that has no text, and
    nothing else. Two records with the same fields in another order have the same text, or
    errors of the same kind. -/
theorem record_yields (s : Setting) (specs : List Field) (separator : String)
    (fields : List (String × Value)) (a : Ambient) :
    ((∃ entry ∈ fields, ∀ spec ∈ specs, spec.name ≠ entry.1) →
      ∃ context, record s specs separator fields a =
        (.error (.unsupportedValue "record field" context), a)) ∧
    ((∀ entry ∈ fields, ∃ spec ∈ specs, spec.name = entry.1) →
      ∀ outcome, record s specs separator fields a = outcome ↔
        Yields s separator (present specs fields) a outcome) ∧
    ∀ fields', fields.Perm fields' → (Dict.keys fields).Nodup →
      (record s specs separator fields a).1.mapError Error.kind =
        (record s specs separator fields' a).1.mapError Error.kind := by
  refine ⟨fun ⟨entry, hentry, h⟩ => ?_, fun h outcome => ?_, fun fields' hperm hnodup => ?_⟩
  · obtain ⟨name, -, herr⟩ := record_of_unknown s separator hentry h a
    exact ⟨_, herr⟩
  · exact record_eq_iff (unknownField?_eq_none_iff.mpr h)
  · by_cases h : ∀ entry ∈ fields, ∃ spec ∈ specs, spec.name = entry.1
    · have h' : ∀ entry ∈ fields', ∃ spec ∈ specs, spec.name = entry.1 := fun entry hentry =>
        h entry (hperm.symm.subset hentry)
      rw [record_congr (unknownField?_eq_none_iff.mpr h) (unknownField?_eq_none_iff.mpr h')
        (present_perm hperm hnodup)]
    · push Not at h
      obtain ⟨entry, hentry, h⟩ := h
      obtain ⟨name, -, herr⟩ := record_of_unknown s separator hentry h a
      obtain ⟨name', -, herr'⟩ := record_of_unknown s separator
        (hperm.subset hentry) h a
      rw [herr, herr']
      rfl

theorem convert_text (s : Setting) (t : String) (a : Ambient) :
    convert s .plain (.text t) a = (.ok t, a) := by
  unfold convert
  rw [run, shaped]
  rfl

/-- A list of fields with and without tokens. -/
def sampleFields : List Field :=
  [.plain "a", .plain "b", (Field.plain "c").after "/", (Field.plain "d").after " at "]

/-- A record whose fields stand in another order. -/
def sampleRecord : List (String × Value) :=
  [("d", .text "top"), ("c", .text ""), ("a", .text "1"), ("b", .null)]

/-- Null and empty fields leave nothing behind, the order of the list counts, and a list that does
    not know a field refuses it. -/
theorem record_yields_of_sample :
    record ⟨.standard, fun _ => none⟩ sampleFields " " sampleRecord .initial =
        (.ok "1 at top", .initial) ∧
      (record ⟨.standard, fun _ => none⟩ sampleFields " " sampleRecord.reverse .initial).1.mapError
        Error.kind = .ok "1 at top" ∧
      ∃ context, record ⟨.standard, fun _ => none⟩ (sampleFields.take 2) " " sampleRecord .initial =
        (.error (.unsupportedValue "record field" context), .initial) := by
  have hpresent : present sampleFields sampleRecord =
      [(.plain "a", .text "1"), ((Field.plain "c").after "/", .text ""),
        ((Field.plain "d").after " at ", .text "top")] := rfl
  have hwritten : Written ⟨.standard, fun _ => none⟩ (present sampleFields sampleRecord) .initial
      [(.plain "a", "1"), ((Field.plain "c").after "/", ""),
        ((Field.plain "d").after " at ", "top")]
      .initial := by
    rw [hpresent]
    exact .cons (convert_text _ _ _) (.cons (convert_text _ _ _) (.cons (convert_text _ _ _) .nil))
  have hrecord : record ⟨.standard, fun _ => none⟩ sampleFields " " sampleRecord .initial =
      (.ok "1 at top", .initial) :=
    ((record_yields _ _ _ _ _).2.1 (by decide) _).mpr (.texts hwritten)
  refine ⟨hrecord, ?_,
    (record_yields _ _ _ _ _).1 ⟨("c", .text ""), by simp [sampleRecord], by decide⟩⟩
  rw [← (record_yields _ _ _ _ _).2.2 _ (List.reverse_perm _).symm (by decide), hrecord]
  rfl

end Conversion

end StyleBook
