import StyleBook.Proofs.Conversion.RecordTexts

namespace StyleBook

/-!
# Arguments in several forms

The arguments of a function with parameters may be given by name, by position, or as a single value,
and all forms say the same. Arguments that are null may be left out at the end, and fields that only
the declared shape knows may be left out of a record.

* `Descriptor.render` — the text of a call by a descriptor; `Setting.call_eq_render` — of a function
  by its descriptor;
* `Convert.SameText` — conversions with the same text, or errors of the same kind;
* `Dict.filter_insert`, `Dict.find?_insert` — what is inserted is not found by other tests;
* `Descriptor.render_forms` — all forms of arguments have the same text.
-/

/-! ### The text of a call -/

/-- **The text of a call by a descriptor.** -/
def Descriptor.render (s : Setting) (d : Descriptor) (args : Value) (repeating : Bool) :
    Convert String :=
  if repeating && !d.repeatable then
    throw (.unsupportedValue "repeating" ("function '" ++ d.name ++ "'"))
  else do
    let body ← Conversion.argumentsBy (Conversion.Task.text s) d args
    return (if repeating then "repeating-" else "") ++ d.name ++ "(" ++ body ++ ")"

/-- A function is called as its descriptor says. -/
theorem Setting.call_eq_render {s : Setting} {function : String} {d : Descriptor}
    (h : s.catalog.descriptor? function = some d) (args : Value) (repeating : Bool) :
    s.call function args repeating = d.render s args repeating := by
  unfold Setting.call
  rw [Conversion.call_eq_callBy, Conversion.callBy, h]
  rfl

/-! ### The same text -/

namespace Convert

/-- **Both have the same text, or errors of the same kind,** and leave the same state behind. -/
def SameText (c c' : Convert String) : Prop :=
  ∀ a, (c a).1.mapError Error.kind = (c' a).1.mapError Error.kind ∧ (c a).2 = (c' a).2

namespace SameText

theorem refl (c : Convert String) : SameText c c := fun _ => ⟨rfl, rfl⟩

theorem symm {c c' : Convert String} (h : SameText c c') : SameText c' c := fun a =>
  ⟨(h a).1.symm, (h a).2.symm⟩

theorem trans {c c' c'' : Convert String} (h : SameText c c') (h' : SameText c' c'') :
    SameText c c'' := fun a => ⟨(h a).1.trans (h' a).1, (h a).2.trans (h' a).2⟩

/-- An error of the same kind. -/
theorem mapError (c : Convert String) {f : Error → Error} (hf : ∀ err, (f err).kind = err.kind) :
    SameText (Convert.mapError f c) c := fun a => by
  unfold Convert.mapError
  rcases c a with ⟨err | text, a'⟩
  · exact ⟨congrArg Except.error (hf err), rfl⟩
  · exact ⟨rfl, rfl⟩

/-- Followed by the same conversion. -/
theorem bind {c c' : Convert String} (h : SameText c c') (f : String → Convert String) :
    SameText (c >>= f) (c' >>= f) := fun a => by
  obtain ⟨hresult, hstate⟩ := h a
  rw [stateful_bind, stateful_bind]
  rcases hc : c a with ⟨err | text, a₁⟩ <;> rcases hc' : c' a with ⟨err' | text', a₁'⟩ <;>
    rw [hc, hc'] at hresult hstate <;> cases hstate
  · exact ⟨hresult, rfl⟩
  · cases hresult
  · cases hresult
  · cases hresult
    exact ⟨rfl, rfl⟩

end SameText

end Convert

namespace Descriptor

variable {d : Descriptor} {s : Setting} {v w : Value} {repeating : Bool}

/-- Arguments with the same text are called the same. -/
theorem render_sameText (h : Convert.SameText (Conversion.argumentsBy (Conversion.Task.text s) d v)
    (Conversion.argumentsBy (Conversion.Task.text s) d w)) :
    Convert.SameText (d.render s v repeating) (d.render s w repeating) := by
  unfold render
  split
  · exact .refl _
  · exact h.bind _

/-- The same arguments are called the same. -/
theorem render_congr (h : Conversion.argumentsBy (Conversion.Task.text s) d v =
    Conversion.argumentsBy (Conversion.Task.text s) d w) :
    d.render s v repeating = d.render s w repeating := by
  unfold render
  rw [h]

end Descriptor

/-! ### Fields that are not looked at -/

namespace Dict

variable {κ α : Type} [DecidableEq κ]

/-- A key that does not pass a test is not among those that do. -/
theorem filter_insert (test : κ → Bool) {key : κ} (h : test key = false) (value : α)
    (d : Dict κ α) :
    (d.insert key value).filter (fun entry => test entry.1) = d.filter fun entry =>
    test entry.1 := by
  induction d with
  | nil => simp [insert, h]
  | cons entry rest ih =>
    obtain ⟨k, v⟩ := entry
    by_cases hk : k = key
    · subst hk
      simp [insert, h]
    · simp [insert, hk, List.filter_cons, ih]

/-- It is not the first one that does. -/
theorem find?_insert (test : κ → Bool) {key : κ} (h : test key = false) (value : α) (d : Dict κ α) :
    (d.insert key value).find? (fun entry => test entry.1) = d.find? fun entry => test entry.1 := by
  rw [← List.head?_filter, ← List.head?_filter, filter_insert test h]

end Dict

namespace Descriptor

variable {d : Descriptor} {registered : Category → Bool} {params : List Field} {separator : String}
  {s : Setting}

/-- What a parameter is called is what it is found by. -/
theorem any_name (params : List Field) (name : String) :
    (params.any fun p => p.name == name) = decide (name ∈ params.map Field.name) := by
  rw [Bool.eq_iff_iff, decide_eq_true_iff]
  simp [List.mem_map]

/-- A record is accepted if all its fields are declared. -/
theorem checkShape_eq_ok_iff {shape : List String} {fields : List (String × Value)} :
    d.checkShape shape fields = .ok () ↔ ∀ name ∈ Dict.keys fields, name ∈ shape := by
  have hkeys : (∀ name ∈ Dict.keys fields, name ∈ shape) ↔ ∀ entry ∈ fields, entry.1 ∈ shape := by
    simp [Dict.keys]
  rw [hkeys]
  unfold checkShape
  cases hfirst : fields.find? fun entry => entry.1 ∉ shape with
  | none =>
    refine iff_of_true rfl fun entry hentry => ?_
    simpa using List.find?_eq_none.mp hfirst entry hentry
  | some entry =>
    refine iff_of_false (by simp) fun h => ?_
    have hnone : entry.1 ∉ shape := by simpa using List.find?_some hfirst
    exact hnone (h entry (List.mem_of_find?_eq_some hfirst))

/-- A field that is not a parameter makes no difference, if the declared shape has it. -/
theorem fieldsFor_insert {shape : List String} (hshape : d.shape = some shape) {name : String}
    (hdeclared : name ∈ shape) (hname : name ∉ params.map Field.name) (value : Value)
    (fields : List (String × Value)) :
    d.fieldsFor params (.record (Dict.insert name value fields)) = d.fieldsFor params
    (.record fields) := by
  have hcheck : d.checkShape shape (Dict.insert name value fields) = d.checkShape shape fields := by
    unfold checkShape
    rw [Dict.find?_insert (fun name => decide (name ∉ shape)) (by simpa using hdeclared)]
  have hother : (params.any fun p => p.name == name) = false := by
    rw [any_name]
    exact decide_eq_false hname
  have hfilter := Dict.filter_insert (fun name => params.any fun p => p.name == name)
    hother value fields
  simp only [fieldsFor, hshape, hcheck, hfilter]

/-- Fields by position are the fields by name. -/
theorem fieldsFor_zip (hd : d.Consistent registered)
    (hargs : d.arguments = .params params separator)
    {items : List Value} :
    d.fieldsFor params (.record ((params.map Field.name).zip items)) =
      .ok ((params.map Field.name).zip items) := by
  have hnames : ∀ entry ∈ (params.map Field.name).zip items, entry.1 ∈ params.map Field.name :=
    fun entry hentry => (List.of_mem_zip hentry).1
  unfold fieldsFor
  cases hshape : d.shape with
  | none => rfl
  | some shape =>
    -- Every name of a parameter is declared by the shape, so the check passes and nothing is
    -- filtered away.
    have hdeclared : ∀ entry ∈ (params.map Field.name).zip items, entry.1 ∈ shape := by
      intro entry hentry
      obtain ⟨param, hparam, hname⟩ := List.mem_map.mp (hnames entry hentry)
      exact hname ▸ hd.declared hshape hargs param hparam
    have hcheck : d.checkShape shape ((params.map Field.name).zip items) = .ok () :=
      checkShape_eq_ok_iff.mpr (by simpa [Dict.keys] using hdeclared)
    have hfilter : ((params.map Field.name).zip items).filter (fun entry =>
        params.any fun p => p.name == entry.1) = (params.map Field.name).zip items :=
      List.filter_eq_self.mpr fun entry hentry => by
        rw [any_name]
        exact decide_eq_true (hnames entry hentry)
    simp only [hcheck, hfilter]
    rfl

theorem fieldsFor_list {items : List Value} (h : items.length ≤ params.length) :
    d.fieldsFor params (.list items) = .ok ((params.map Field.name).zip items) := by
  unfold fieldsFor
  simp only
  rw [if_neg (by omega)]

/-- A single value stands for the first parameter. -/
theorem fieldsFor_single {v : Value} (hlist : ∀ items, v ≠ .list items)
    (hrecord : ∀ fields, v ≠ .record fields) :
    d.fieldsFor params v = .ok ((params.map Field.name).zip [v]) := by
  cases v with
  | list items => exact absurd rfl (hlist items)
  | record fields => exact absurd rfl (hrecord fields)
  | _ => rfl

/-- Only in a record an error may read otherwise. -/
theorem explain_of_not_record {v : Value} (h : ∀ fields, v ≠ .record fields) :
    d.explain v = id := by
  funext err
  unfold explain
  cases v with
  | record fields => exact absurd rfl (h fields)
  | _ => rfl

/-- It is of the same kind. -/
theorem explain_kind (d : Descriptor) (args : Value) (err : Error) :
    (d.explain args err).kind = err.kind := by
  unfold explain
  split
  · unfold inArguments
    split <;> rfl
  · rfl

/-- Arguments whose fields are known. -/
theorem argumentsBy_params {ask : Conversion.Task → Convert String}
    (hargs : d.arguments = .params params separator) {args : Value} {fields : List (String × Value)}
    (hfields : d.fieldsFor params args = .ok fields) :
    Conversion.argumentsBy ask d args = Convert.mapError (d.explain args)
      (Conversion.recordBy (fun inner v => ask ⟨[], inner, v⟩) params separator fields) := by
  unfold Conversion.argumentsBy
  rw [hargs]
  simp only [hfields]

end Descriptor

/-! ### Null at the end -/

/-- Under each name the same is found, as long as it is not null. -/
theorem get?_zip_append_null (names : List String) (items : List Value) (k : Nat) (name : String) :
    (Dict.get? name (names.zip (items ++ List.replicate k Value.null))).filter
    (fun v => !v.isNull) =
      (Dict.get? name (names.zip items)).filter fun v => !v.isNull := by
  induction names generalizing items k with
  | nil => rfl
  | cons n names ih =>
    cases items with
    | cons v items =>
      simp only [List.cons_append, List.zip_cons_cons, Dict.get?]
      split
      · rfl
      · exact ih items k
    | nil =>
      -- Only null is left, whatever the names are.
      rw [List.nil_append, List.zip_nil_right]
      cases k with
      | zero => rfl
      | succ k =>
        simp only [List.replicate_succ, List.zip_cons_cons, Dict.get?]
        split
        · rfl
        · simpa only [List.nil_append, List.zip_nil_right, Dict.get?_nil] using ih [] k

theorem present_zip_append_null (params : List Field) (items : List Value) (k : Nat) :
    present params ((params.map Field.name).zip (items ++ List.replicate k .null)) =
      present params ((params.map Field.name).zip items) := by
  unfold present
  simp only [get?_zip_append_null]

/-- Whatever stands under the names of parameters is to be written. -/
theorem unknownField?_zip (params : List Field) (items : List Value) :
    unknownField? params ((params.map Field.name).zip items) = none :=
  Conversion.unknownField?_eq_none_iff.mpr fun _ hentry =>
    List.mem_map.mp (List.of_mem_zip hentry).1

/-! ### All forms of arguments -/

namespace Descriptor

variable {d : Descriptor} {registered : Category → Bool} {params : List Field} {separator : String}
  {s : Setting} {repeating : Bool}

/-- Arguments that stand for the same fields, outside of records. -/
theorem render_eq_of_fieldsFor (hargs : d.arguments = .params params separator) {v w : Value}
    (hv : ∀ fields, v ≠ .record fields) (hw : ∀ fields, w ≠ .record fields)
    {fields : List (String × Value)} (hfieldsv : d.fieldsFor params v = .ok fields)
    (hfieldsw : d.fieldsFor params w = .ok fields) :
    d.render s v repeating = d.render s w repeating := by
  apply render_congr
  rw [argumentsBy_params hargs hfieldsv, argumentsBy_params hargs hfieldsw,
    explain_of_not_record hv,
    explain_of_not_record hw]

/-- A list has the text of the record of its items. -/
theorem render_list (hd : d.Consistent registered) (hargs : d.arguments = .params params separator)
    {items : List Value} (h : items.length ≤ params.length) :
    Convert.SameText (d.render s (.list items) repeating)
      (d.render s (.record ((params.map Field.name).zip items)) repeating) := by
  apply render_sameText
  rw [argumentsBy_params hargs (fieldsFor_list h),
    argumentsBy_params hargs (fieldsFor_zip hd hargs)]
  exact (Convert.SameText.mapError _ (d.explain_kind _)).trans
    (Convert.SameText.mapError _ (d.explain_kind _)).symm

/-- A single value has the text of the list of it. -/
theorem render_single (hd : d.Consistent registered)
    (hargs : d.arguments = .params params separator)
    {v : Value} (hlist : ∀ items, v ≠ .list items) (hrecord : ∀ fields, v ≠ .record fields) :
    d.render s v repeating = d.render s (.list [v]) repeating := by
  have hparams : [v].length ≤ params.length := List.length_pos_iff.mpr (hd.params hargs).1
  exact render_eq_of_fieldsFor hargs hrecord nofun (fieldsFor_single hlist hrecord)
    (fieldsFor_list hparams)

/-- Null at the end of a list leaves nothing behind. -/
theorem render_append_null (hargs : d.arguments = .params params separator) {items : List Value}
    {k : Nat} (h : items.length + k ≤ params.length) :
    d.render s (.list (items ++ List.replicate k .null)) repeating =
      d.render s (.list items) repeating := by
  have hmore : (items ++ List.replicate k Value.null).length ≤ params.length := by simpa using h
  have hsame : Conversion.record s params separator
      ((params.map Field.name).zip (items ++ List.replicate k .null)) =
      Conversion.record s params separator ((params.map Field.name).zip items) :=
    Conversion.record_congr (unknownField?_zip params _) (unknownField?_zip params _)
      (present_zip_append_null params items k)
  have hexplain (items : List Value) : d.explain (.list items) = id := explain_of_not_record nofun
  rw [Conversion.record_eq, Conversion.record_eq] at hsame
  apply render_congr
  rw [argumentsBy_params hargs (fieldsFor_list hmore),
    argumentsBy_params hargs (fieldsFor_list (Nat.le_of_add_right_le h)), hexplain, hexplain]
  exact congrArg (Convert.mapError id) hsame

/-- A field that only the declared shape knows makes no difference. -/
theorem render_insert (hargs : d.arguments = .params params separator) {shape : List String}
    (hshape : d.shape = some shape) {name : String} (hdeclared : name ∈ shape)
    (hname : name ∉ params.map Field.name) (value : Value) (fields : List (String × Value)) :
    d.render s (.record (Dict.insert name value fields)) repeating =
      d.render s (.record fields) repeating := by
  apply render_congr
  have hexplain : d.explain (.record (Dict.insert name value fields)) =
    d.explain (.record fields) := by
    funext err
    simp only [explain, hshape]
  unfold Conversion.argumentsBy
  simp only [hargs, hexplain, fieldsFor_insert hshape hdeclared hname]

/-- **All forms of arguments have the same text.** By a descriptor with parameters that passes the
    check, a list that is not too long has the text of the record of its items, and a single value
    that of the list of it, or there are errors of the same kind. Null at the end of a list makes no
    difference, nor do fields of a record that only the declared shape knows. So it is in every
    call of the function. -/
theorem render_forms (h : d.check registered = .ok ())
    (hargs : d.arguments = .params params separator)
    (s : Setting) (repeating : Bool) :
    (∀ items, items.length ≤ params.length →
      Convert.SameText (d.render s (.list items) repeating)
        (d.render s (.record ((params.map Field.name).zip items)) repeating)) ∧
    (∀ v, (∀ items, v ≠ .list items) → (∀ fields, v ≠ .record fields) →
      d.render s v repeating = d.render s (.list [v]) repeating) ∧
    (∀ items k, items.length + k ≤ params.length →
      d.render s (.list (items ++ List.replicate k .null)) repeating =
        d.render s (.list items) repeating) ∧
    (∀ shape (extra fields : List (String × Value)), d.shape = some shape →
      (∀ entry ∈ extra, entry.1 ∈ shape ∧ entry.1 ∉ params.map Field.name) →
      d.render s (.record
        (extra.foldl (fun fields entry => Dict.insert entry.1 entry.2 fields) fields))
        repeating = d.render s (.record fields) repeating) ∧
    ∀ function args, s.catalog.descriptor? function = some d →
      s.call function args repeating = d.render s args repeating := by
  have hd : d.Consistent registered := check_eq_ok_iff.mp h
  refine ⟨fun items => render_list hd hargs, fun v => render_single hd hargs,
    fun items k => render_append_null hargs, fun shape extra fields hshape hextra => ?_,
    fun function args hfunction => Setting.call_eq_render hfunction args repeating⟩
  -- Fields that only the shape knows are put in one after the other, and none changes the text.
  induction extra generalizing fields with
  | nil => rfl
  | cons entry rest ih =>
    obtain ⟨hdeclared, hname⟩ := hextra entry List.mem_cons_self
    rw [List.foldl_cons, ih _ fun e he => hextra e (List.mem_cons_of_mem _ he)]
    exact render_insert hargs hshape hdeclared hname _ _

/-- A function of two lengths, to which a note may be given that is not written. -/
def shiftDescriptor : Descriptor :=
  (Descriptor.ofParams "shift" "," [.ofCategory "x" .length, .ofCategory "y" .length]).withShape
    ["x", "y", "note"]

/-- Two lengths by position and one with a null behind it; a single length; and a note. -/
theorem render_forms_of_shift :
    shiftDescriptor.check (fun _ => true) = .ok () ∧
    Convert.SameText
      (shiftDescriptor.render ⟨.standard, fun _ => none⟩ (.list [.text "1", .text "2"]) false)
      (shiftDescriptor.render ⟨.standard, fun _ => none⟩
        (.record [("x", .text "1"), ("y", .text "2")]) false) ∧
    shiftDescriptor.render ⟨.standard, fun _ => none⟩ (.list [.text "1", .null]) false =
      shiftDescriptor.render ⟨.standard, fun _ => none⟩ (.text "1") false ∧
    shiftDescriptor.render ⟨.standard, fun _ => none⟩
        (.record [("x", .text "1"), ("note", .bool true)]) false =
      shiftDescriptor.render ⟨.standard, fun _ => none⟩ (.record [("x", .text "1")]) false := by
  have hcheck : shiftDescriptor.check (fun _ => true) = .ok () := rfl
  obtain ⟨hlist, hsingle, hnull, hextra, -⟩ :=
    render_forms hcheck rfl ⟨.standard, fun _ => none⟩ false
  refine ⟨hcheck, hlist [.text "1", .text "2"] (by decide), ?_,
    hextra _ [("note", .bool true)] [("x", .text "1")] rfl (by simp [Field.ofCategory])⟩
  rw [hsingle (.text "1") (by simp) (by simp)]
  exact hnull [.text "1"] 1 (by decide)

end Descriptor

end StyleBook
