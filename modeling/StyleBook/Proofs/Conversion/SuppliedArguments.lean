import StyleBook.Proofs.Conversion.ArgumentForms
import StyleBook.Proofs.Conversion.Opacity
import StyleBook.Proofs.Text.Omissions

namespace StyleBook

/-!
# Arguments that show

Of a record of arguments nothing is lost: when a field that has a text becomes null, the text of the
call becomes shorter. Only what fills a polygon is lost when it is not a text.

* `joined_filter_lt` — joined texts become shorter when one of them is left out;
* `Convert.Shorter` — a conversion has a shorter text than another one had;
* `Conversion.record_shorter` — a record, without one of the fields that have a text;
* `Conversion.numeric_ne_empty` — what has a text has one as a length too;
* `Setting.supplied_shows` — every function of the standard catalog;
* `Setting.fill_lost` — what fills a polygon and is no text.
-/

/-! ### Shorter texts -/

/-- What is joined behind a text. -/
def behind (separator : String) (pieces : List (Field × String)) : String :=
  String.join ((pieces.filter fun piece => piece.2 ≠ "").map fun piece =>
    piece.1.between separator ++ piece.2)

section Joining

variable {separator : String} {spec : Field} {text : String} {rest pieces : List (Field × String)}

theorem behind_cons_empty : behind separator ((spec, "") :: rest) = behind separator rest := rfl

theorem behind_cons (h : text ≠ "") : behind separator ((spec, text) :: rest) =
    spec.between separator ++ text ++ behind separator rest := by
  unfold behind
  rw [List.filter_cons_of_pos (by simpa using h), List.map_cons, String.join_cons]

theorem joined_cons_empty : joined separator ((spec, "") :: rest) = joined separator rest := rfl

theorem joined_cons (h : text ≠ "") : joined separator ((spec, text) :: rest) =
    spec.before ++ text ++ behind separator rest := by
  unfold joined behind
  rw [List.filter_cons_of_pos (by simpa using h)]

/-- What stands before the first text is no longer than what would stand between. -/
theorem Field.before_le (separator : String) (spec : Field) :
    spec.before.length ≤ (spec.between separator).length := by
  unfold Field.before Field.between
  cases spec.token with
  | none => simp
  | some token =>
    simp only [Option.map_some, Option.getD_some, trimLeading, String.length_ofList]
    exact (List.dropWhile_sublist _).length_le

theorem joined_le_behind (separator : String) (pieces : List (Field × String)) :
    (joined separator pieces).length ≤ (behind separator pieces).length := by
  induction pieces with
  | nil => exact Nat.zero_le _
  | cons piece rest ih =>
    obtain ⟨spec, text⟩ := piece
    by_cases h : text = ""
    · subst h
      rwa [joined_cons_empty, behind_cons_empty]
    · rw [joined_cons h, behind_cons h]
      have := spec.before_le separator
      simp only [String.length_append]
      omega

theorem behind_filter_le (separator : String) (keep : Field × String → Bool)
    (pieces : List (Field × String)) :
    (behind separator (pieces.filter keep)).length ≤ (behind separator pieces).length := by
  induction pieces with
  | nil => exact Nat.le_refl _
  | cons piece rest ih =>
    obtain ⟨spec, text⟩ := piece
    by_cases h : text = ""
    · subst h
      rw [List.filter_cons]
      split <;> simpa only [behind_cons_empty] using ih
    · rw [List.filter_cons, behind_cons h]
      split
      · rw [behind_cons h]
        simp only [String.length_append]
        omega
      · simp only [String.length_append]
        omega

theorem length_pos_of_ne_empty (h : text ≠ "") : 0 < text.length :=
  Nat.pos_of_ne_zero fun hzero => h (String.length_eq_zero_iff.mp hzero)

theorem behind_filter_lt {keep : Field × String → Bool} {piece : Field × String}
    (hpiece : piece ∈ pieces) (hkeep : keep piece = false) (htext : piece.2 ≠ "") :
    (behind separator (pieces.filter keep)).length < (behind separator pieces).length := by
  induction pieces with
  | nil => cases hpiece
  | cons first rest ih =>
    obtain ⟨spec, text⟩ := first
    -- Either the first text is left out, or one further on is.
    rcases List.mem_cons.mp hpiece with rfl | hrest
    · have hpos : 0 < text.length := length_pos_of_ne_empty htext
      have hle := behind_filter_le separator keep rest
      rw [List.filter_cons, hkeep, if_neg Bool.false_ne_true, behind_cons htext]
      simp only [String.length_append]
      omega
    · have hlt := ih hrest
      by_cases h : text = ""
      · subst h
        rw [List.filter_cons]
        split <;> simpa only [behind_cons_empty] using hlt
      · rw [List.filter_cons, behind_cons h]
        split
        · rw [behind_cons h]
          simp only [String.length_append]
          omega
        · simp only [String.length_append]
          omega

/-- **Joined texts become shorter when one of them is left out.** -/
theorem joined_filter_lt {keep : Field × String → Bool} {piece : Field × String}
    (hpiece : piece ∈ pieces) (hkeep : keep piece = false) (htext : piece.2 ≠ "") :
    (joined separator (pieces.filter keep)).length < (joined separator pieces).length := by
  induction pieces with
  | nil => cases hpiece
  | cons first rest ih =>
    obtain ⟨spec, text⟩ := first
    by_cases h : text = ""
    · subst h
      have hrest : piece ∈ rest := (List.mem_cons.mp hpiece).resolve_left fun heq =>
        htext (heq ▸ rfl)
      rw [List.filter_cons]
      split <;> simpa only [joined_cons_empty] using ih hrest
    · rw [List.filter_cons, joined_cons h]
      split
      · rename_i hfirst
        have hrest : piece ∈ rest := (List.mem_cons.mp hpiece).resolve_left fun heq => by
          rw [heq, hfirst] at hkeep
          cases hkeep
        have hlt : (behind separator (rest.filter keep)).length < (behind separator rest).length :=
          behind_filter_lt hrest hkeep htext
        rw [joined_cons h]
        simp only [String.length_append]
        omega
      · -- The first text is left out: what comes next has no more before it than it had.
        have hpos := length_pos_of_ne_empty h
        have hle := (joined_le_behind separator (rest.filter keep)).trans
          (behind_filter_le separator keep rest)
        simp only [String.length_append]
        omega

end Joining

/-! ### Conversions again -/

/-- **The conversion has a text that is shorter than another one,** whatever was asked before. -/
def Convert.Shorter (units : UnitTable) (text : String) (c : Convert String) : Prop :=
  ∀ a, a.units = units → ∃ shorter a', c a = (.ok shorter, a') ∧ shorter.length < text.length

variable {s : Setting} {units : UnitTable} {fields : List (String × Value)} {specs : List Field}
  {separator : String} {a b : Ambient}

/-- A conversion has the same result again, if sources answer the same every time. -/
theorem Value.Alike.convert_again {recipe : Recipe} {v : Value}
    {r : Except Error String} {a₁ : Ambient}
    (h : v.Alike (.constant units) v) (ha : a.units = units) (hb : b.units = units)
    (hconvert : convert s recipe v a = (r, a₁)) :
    a₁.units = units ∧ ∃ b₁, convert s recipe v b = (r, b₁) ∧ b₁.units = units := by
  have hagree : Convert.Agree (.constant units) (convert s recipe v) (convert s recipe v) :=
    h.convert_agree
  obtain ⟨hresult, hmatches⟩ := hagree a b (constant_steady.matches ha hb)
  rw [hconvert] at hresult
  have hunits : (convert s recipe v a).2.units = units := hmatches.units
  rw [hconvert] at hunits
  exact ⟨hunits, (convert s recipe v b).2, Prod.ext hresult.symm rfl, hmatches.units'⟩

namespace Conversion

section Records

variable {values : List (Field × Value)} {texts : List (Field × String)} {a' : Ambient}

/-- Some of the values are written again. -/
theorem Written.filter (keep : Field → Bool) (h : Written s values a texts a')
    (hvalues : ∀ value ∈ values, value.2.Alike (.constant units) value.2) (ha : a.units = units)
    (hb : b.units = units) :
    ∃ b', Written s (values.filter fun value => keep value.1) b
      (texts.filter fun piece => keep piece.1) b' := by
  -- What was written once is written again with the same text, since its sources are constant.
  induction h generalizing b with
  | nil => exact ⟨b, .nil⟩
  | @cons spec v rest text texts a₁ a₂ a₃ htext _ ih =>
    have hrest := fun value hvalue => hvalues value (List.mem_cons_of_mem _ hvalue)
    obtain ⟨ha₂, b₂, hagain, hb₂⟩ :=
      (hvalues (spec, v) List.mem_cons_self).convert_again ha hb htext
    cases hkeep : keep spec with
    | true =>
      obtain ⟨b', hwritten⟩ := ih hrest ha₂ hb₂
      refine ⟨b', ?_⟩
      rw [List.filter_cons_of_pos (by exact hkeep), List.filter_cons_of_pos (by exact hkeep)]
      exact .cons hagain hwritten
    | false =>
      obtain ⟨b', hwritten⟩ := ih hrest ha₂ hb
      refine ⟨b', ?_⟩
      rwa [List.filter_cons_of_neg (by simp [hkeep]), List.filter_cons_of_neg (by simp [hkeep])]

/-- A value that is written has the text that it always has. -/
theorem Written.mem {spec : Field} {v : Value} {text : String} (h : Written s values a texts a')
    (hvalues : ∀ value ∈ values, value.2.Alike (.constant units) value.2) (ha : a.units = units)
    (hb : b.units = units) (hmem : (spec, v) ∈ values)
    (htext : (convert s spec.recipe v b).1 = .ok text) :
    (spec, text) ∈ texts := by
  induction h with
  | nil => cases hmem
  | @cons spec' v' rest text' texts a₁ a₂ a₃ hfirst _ ih =>
    obtain ⟨ha₂, b₂, hagain, -⟩ :=
      (hvalues (spec', v') List.mem_cons_self).convert_again ha hb hfirst
    rcases List.mem_cons.mp hmem with heq | hrest
    · cases heq
      rw [hagain] at htext
      cases htext
      exact List.mem_cons_self
    · exact List.mem_cons_of_mem _
        (ih (fun value hvalue => hvalues value (List.mem_cons_of_mem _ hvalue)) ha₂ hrest)

/-- What is null is not written. -/
theorem present_insert_null (name : String) (specs : List Field) (fields : List (String × Value)) :
    present specs (Dict.insert name .null fields) =
      (present specs fields).filter fun value => value.1.name ≠ name := by
  unfold present
  rw [List.filter_filterMap]
  congr 1
  funext spec
  rw [Dict.get?_insert]
  by_cases h : spec.name = name
  · have hgone : ((some Value.null).filter fun v => !v.isNull) = none := rfl
    rw [if_pos h, hgone]
    cases Dict.get? spec.name fields with
    | none => rfl
    | some v => cases hnull : v.isNull <;> simp [Option.filter_some, h, hnull]
  · rw [if_neg h]
    cases Dict.get? spec.name fields with
    | none => rfl
    | some v => cases hnull : v.isNull <;> simp [Option.filter_some, h, hnull]

/-- Only the names of the fields count. -/
theorem unknownField?_eq_none_iff_keys :
    unknownField? specs fields = none ↔ ∀ name ∈ Dict.keys fields, ∃ spec ∈ specs,
    spec.name = name := by
  rw [unknownField?_eq_none_iff]
  simp [Dict.keys]

/-- **A record becomes shorter when a field that has a text becomes null.** -/
theorem record_shorter (hfields : ∀ entry ∈ fields, entry.2.Alike (.constant a.units) entry.2)
    {out : String} (h : record s specs separator fields a = (.ok out, a')) {spec : Field}
    (hspec : spec ∈ specs) {v : Value} (hv : Dict.get? spec.name fields = some v)
    (hnull : v.isNull = false) {text : String} (hb : b.units = a.units)
    (htext : (convert s spec.recipe v b).1 = .ok text) (hne : text ≠ "") :
    Convert.Shorter a.units out (record s specs separator (Dict.insert spec.name .null fields)) :=
    by
  -- Nulling a field leaves the same names, and the other fields the same texts.
  have hknown : unknownField? specs fields = none := by
    cases hfirst : unknownField? specs fields with
    | none => rfl
    | some name =>
      rw [record, hfirst] at h
      cases h
  have hknown' : unknownField? specs (Dict.insert spec.name .null fields) = none := by
    rw [unknownField?_eq_none_iff_keys] at hknown ⊢
    rwa [Dict.keys_insert, if_pos (Dict.mem_keys_of_get? hv)]
  have hvalues : ∀ value ∈ present specs fields, value.2.Alike (.constant a.units) value.2 := by
    intro value hvalue
    obtain ⟨spec', -, hsome⟩ := List.mem_filterMap.mp hvalue
    obtain ⟨w, hw, rfl⟩ := Option.map_eq_some_iff.mp hsome
    exact hfields _ (Dict.mem_of_get? (Option.filter_eq_some_iff.mp hw).1)
  have hmem : (spec, v) ∈ present specs fields :=
    List.mem_filterMap.mpr ⟨spec, hspec, by simp [hv, hnull]⟩
  cases (record_eq_iff hknown).mp h with
  | @texts texts _ hwritten =>
    intro c hc
    obtain ⟨c', hagain⟩ := hwritten.filter (fun spec' => spec'.name ≠ spec.name) hvalues rfl hc
    have hlt : (joined separator (texts.filter fun piece => piece.1.name ≠ spec.name)).length <
        (joined separator texts).length :=
      joined_filter_lt (hwritten.mem hvalues rfl hb hmem htext) (by simp) hne
    refine ⟨_, c', (record_eq_iff hknown').mpr ?_, hlt⟩
    rw [present_insert_null]
    exact .texts hagain

end Records

/-! ### Lengths -/

section Lengths

variable {names : Names} {write write' : Value → Convert String} {items : List Value}
  {family : NumericFamily} {v : Value}

theorem textsBy_length {parts : List String} {a' : Ambient}
    (h : textsBy write items a = (.ok parts, a')) : parts.length = items.length := by
  induction items generalizing a parts with
  | nil =>
    cases h
    rfl
  | cons v rest ih =>
    obtain ⟨text, a₁, -, h⟩ := stateful_bind_eq_ok h
    obtain ⟨texts, a₂, hrest, h⟩ := stateful_bind_eq_ok h
    cases h
    exact congrArg Nat.succ (ih hrest)

theorem intercalate_ne_empty {between first second : String} {rest : List String}
    (h : between ≠ "") :
    between.intercalate (first :: second :: rest) ≠ "" := by
  rw [String.intercalate_cons_cons]
  simp [h]

/-- Items with something between them have a text, if the items have texts that had some. -/
theorem items_ne_empty {between between' : String} (hbetween : between' ≠ "")
    (hwrite : ∀ v ∈ items, ∀ text text', (write v b).1 = .ok text → text ≠ "" →
      (write' v a).1 = .ok text' → text' ≠ "")
    {parts parts' : List String} {a' b' : Ambient}
    (hparts : textsBy write items b = (.ok parts, b'))
    (hne : between.intercalate parts ≠ "") (hparts' : textsBy write' items a = (.ok parts', a')) :
    between'.intercalate parts' ≠ "" := by
  -- No item leaves nothing, one item its own text, and two have something between them.
  match items, parts', textsBy_length hparts' with
  | [], [], _ =>
    cases hparts
    exact absurd rfl hne
  | [v], [text'], _ =>
    obtain ⟨text, _, htext, hparts⟩ := stateful_bind_eq_ok hparts
    cases hparts
    obtain ⟨_, _, htext', hparts'⟩ := stateful_bind_eq_ok hparts'
    cases hparts'
    have hself : ∀ between text : String, between.intercalate [text] = text := fun _ _ => by
      simp
    rw [hself] at hne ⊢
    exact hwrite v List.mem_cons_self text text' (by rw [htext]) hne (by rw [htext'])
  | _ :: _ :: _, _ :: _ :: _, _ => exact intercalate_ne_empty hbetween

/-- Only numbers are written otherwise, and items of lists. -/
theorem convert_numeric (hnumber : ∀ x, v ≠ .number x) (hlist : ∀ items, v ≠ .list items) :
    convert s (.numeric family) v = convert s .plain v := by
  unfold convert Recipe.numeric
  rw [run, run]
  cases v with
  | number x => exact absurd rfl (hnumber x)
  | list items => exact absurd rfl (hlist items)
  | _ => rw [shaped, shaped]

/-- The items of a list, with blanks between them. -/
theorem convert_list {recipe : Recipe} {shape : Shape} (hshape : recipe.shape? = some shape)
    (hlist : shape.ofList = none) (hitem : shape.item = none)
    (hseparator : shape.separator = none) :
    convert s recipe (.list items) = (do
      let parts ← textsBy (convert s recipe) items
      return " ".intercalate parts) := by
  have hrun : convert s recipe = shaped s shape := funext fun v => run_eq_shaped hshape [] v
  rw [hrun, shaped, hlist, hitem, hseparator]
  simp only [shapedAll_eq]
  rfl

/-- **What has a text has one as a number of a family,** if it has one at all. -/
theorem numeric_ne_empty (hself : v.Alike (.constant units) v) (ha : a.units = units)
    (hb : b.units = units) {text text' : String} (h : (convert s .plain v b).1 = .ok text)
    (hne : text ≠ "") (h' : (convert s (.numeric family) v a).1 = .ok text') : text' ≠ "" := by
  -- The items of a list weigh less than the list.
  induction hweight : v.weight using Nat.strong_induction_on generalizing v text text' with
  | _ n ih =>
    by_cases hnumber : ∃ x, v = .number x
    · obtain ⟨x, rfl⟩ := hnumber
      have hwritten :
        (convert s (.numeric family) (.number x) a).1 = .ok (family.write a.units x) := by
        unfold convert Recipe.numeric
        rw [run, shaped]
        rfl
      rw [hwritten] at h'
      cases h'
      exact NumericFamily.write_ne_empty family a.units x
    by_cases hlist : ∃ items, v = .list items
    · obtain ⟨items, rfl⟩ := hlist
      rw [convert_list rfl rfl rfl rfl] at h h'
      obtain ⟨parts, b₁, hparts, hb₁⟩ := stateful_bind_eq_ok (Prod.ext h rfl)
      obtain ⟨parts', a₁, hparts', ha₁⟩ := stateful_bind_eq_ok (Prod.ext h' rfl)
      cases hb₁
      cases ha₁
      have hitems : List.Forall₂ (Value.Alike (.constant units)) items items := by
        cases hself with
        | list h => exact h
      refine items_ne_empty (by decide) (fun v hv text text' htext hne htext' => ?_)
        hparts hne hparts'
      have hlt : v.weight < n := by
        have := weight_lt_of_mem hv
        rw [← hweight, Value.weight]
        omega
      exact ih _ hlt (List.forall₂_same.mp hitems v hv) htext hne htext' rfl
    · rw [convert_numeric (fun x hx => hnumber ⟨x, hx⟩) fun items hitems =>
        hlist ⟨items, hitems⟩] at h'
      have hagree : Convert.Agree (.constant units) (convert s .plain v) (convert s .plain v) :=
        hself.convert_agree
      rw [(hagree a b (constant_steady.matches ha hb)).1, h] at h'
      cases h'
      exact hne

/-- The values of a category of numbers. -/
theorem run_category {c : Category}
    (h : Catalog.standard.categories.get? c = some (.numeric family)) (names : Names) (v : Value) :
    run ⟨.standard, names⟩ [] (.category c) v = convert ⟨.standard, names⟩ (.numeric family) v :=
  (run_category_eq_shaped h rfl v).trans (run_eq_shaped rfl [] v).symm

/-- What is no list is written as one item. -/
theorem run_each (hlist : ∀ items, v ≠ .list items) (item : Recipe) (between : String) :
    run s [] (.each item between) v = run s [] item v := by
  rw [run.eq_def]
  cases v with
  | list items => exact absurd rfl (hlist items)
  | _ => rfl

/-- Lengths with commas between them have a text, if what they are has one. -/
theorem lengths_ne_empty (hself : v.Alike (.constant units) v) (ha : a.units = units)
    (hb : b.units = units) {text text' : String}
    (h : (convert ⟨.standard, names⟩ .plain v b).1 = .ok text) (hne : text ≠ "")
    (h' : (convert ⟨.standard, names⟩ (.each (.category .length) ",") v a).1 = .ok text') :
    text' ≠ "" := by
  -- A list is written item by item, any other value as one length.
  by_cases hlist : ∃ items, v = .list items
  · obtain ⟨items, rfl⟩ := hlist
    have heach : convert ⟨.standard, names⟩ (.each (.category .length) ",") (.list items) = (do
        let parts ← textsBy (convert ⟨.standard, names⟩ (.numeric .length)) items
        return ",".intercalate parts) := by
      have hlength : run ⟨.standard, names⟩ [] (.category .length) =
          convert ⟨.standard, names⟩ (.numeric .length) := funext fun v => run_category rfl names v
      unfold convert at hlength ⊢
      rw [run]
      simp only [runAll_eq, hlength]
    rw [convert_list rfl rfl rfl rfl] at h
    rw [heach] at h'
    obtain ⟨parts, b₁, hparts, hb₁⟩ := stateful_bind_eq_ok (Prod.ext h rfl)
    obtain ⟨parts', a₁, hparts', ha₁⟩ := stateful_bind_eq_ok (Prod.ext h' rfl)
    cases hb₁
    cases ha₁
    cases hself with
    | list hitems =>
      exact items_ne_empty (by decide) (fun v hv text text' htext hne htext' =>
        numeric_ne_empty (List.forall₂_same.mp hitems v hv) ha hb htext hne htext')
          hparts hne hparts'
  · have heach : convert ⟨.standard, names⟩ (.each (.category .length) ",") v =
        convert ⟨.standard, names⟩ (.numeric .length) v :=
      (run_each (fun items hitems => hlist ⟨items, hitems⟩) _ _).trans (run_category rfl names v)
    rw [heach] at h'
    exact numeric_ne_empty hself ha hb h hne h'

end Lengths

end Conversion

/-! ### Calls -/

/-- By what a field of a record of arguments is written: a parameter as the function says, and any
    part of a whole value at the default. -/
def Descriptor.fieldRecipe (d : Descriptor) (name : String) : Recipe :=
  match d.arguments with
  | .params params _ => ((params.find? fun p => p.name == name).map Field.recipe).getD .plain
  | .whole _ => .plain

/-- Whether the function has parameters and no fields besides them. -/
def Descriptor.isSimple (d : Descriptor) : Bool :=
  match d.arguments, d.shape with
  | .params _ _, none => true
  | _, _ => false

section Calls

open Conversion (argumentsBy Task.text)

variable {d : Descriptor} {repeating : Bool} {out : String} {a' : Ambient}
    {name : String} {v : Value}
  {text : String}

theorem mapError_eq_ok_iff {f : Error → Error} {c : Convert String} :
    Convert.mapError f c a = (.ok out, a') ↔ c a = (.ok out, a') := by
  unfold Convert.mapError
  rcases c a with ⟨err | text, a₁⟩
  · constructor <;> intro h <;> cases h
  · rfl

/-- A call becomes shorter when its arguments do. -/
theorem Descriptor.render_shorter {args args' : Value}
    (h : d.render s args repeating a = (.ok out, a'))
    (hbody : ∀ body, argumentsBy (Task.text s) d args a = (.ok body, a') →
      Convert.Shorter units body (argumentsBy (Task.text s) d args')) :
    Convert.Shorter units out (d.render s args' repeating) := by
  unfold Descriptor.render at h ⊢
  split at h
  · cases h
  · rename_i hrepeating
    obtain ⟨body, a₁, hargs, h⟩ := stateful_bind_eq_ok h
    cases h
    intro c hc
    obtain ⟨body', c', hargs', hlt⟩ := hbody body hargs c hc
    rw [if_neg hrepeating]
    refine ⟨_, c', stateful_bind_ok hargs' _, ?_⟩
    simp only [String.length_append]
    omega

/-- **A call of a function with parameters becomes shorter when an argument that has
    a text becomes null.** -/
theorem Descriptor.params_shorter (hd : d.isSimple = true)
    (hfields : ∀ entry ∈ fields, entry.2.Alike (.constant a.units) entry.2)
    (h : d.render s (.record fields) repeating a = (.ok out, a'))
    (hv : Dict.get? name fields = some v)
    (hnull : v.isNull = false) (hb : b.units = a.units)
    (htext : (convert s (d.fieldRecipe name) v b).1 = .ok text) (hne : text ≠ "") :
    Convert.Shorter a.units out (d.render s (.record (Dict.insert name .null fields)) repeating) :=
    by
  cases hargs : d.arguments with
  | whole recipe =>
    unfold isSimple at hd
    rw [hargs] at hd
    cases hd
  | params params separator =>
    cases hshape : d.shape with
    | some shape =>
      unfold isSimple at hd
      rw [hargs, hshape] at hd
      cases hd
    | none =>
      have hall : ∀ fields, d.fieldsFor params (.record fields) = .ok fields := fun fields => by
        simp only [fieldsFor, hshape]
      refine render_shorter h fun body hbody c hc => ?_
      rw [argumentsBy_params hargs (hall _)] at hbody
      rw [argumentsBy_params hargs (hall _)]
      have hrecord : Conversion.record s params separator fields a = (.ok body, a') := by
        rw [Conversion.record_eq]
        exact mapError_eq_ok_iff.mp hbody
      -- The name is that of a parameter, since a record with any other field has no text.
      cases hspec : params.find? fun p => p.name == name with
      | none =>
        exfalso
        have hunknown : ∀ spec ∈ params, spec.name ≠ name := by
          simpa using List.find?_eq_none.mp hspec
        obtain ⟨_, -, herr⟩ := Conversion.record_of_unknown s separator
          (Dict.mem_of_get? hv) hunknown a
        rw [hrecord] at herr
        cases herr
      | some spec =>
        obtain rfl : spec.name = name := by simpa using List.find?_some hspec
        have hrecipe : d.fieldRecipe spec.name = spec.recipe := by
          unfold fieldRecipe
          rw [hargs]
          simp only [hspec]
          rfl
        rw [hrecipe] at htext
        obtain ⟨body', c', hshorter, hlt⟩ := Conversion.record_shorter hfields hrecord
          (List.mem_of_find?_eq_some hspec) hv hnull hb htext hne c hc
        rw [Conversion.record_eq] at hshorter
        exact ⟨body', c', mapError_eq_ok_iff.mpr hshorter, hlt⟩

/-! ### Polygons -/

/-- The function of a polygon: what fills it, and its points. -/
def polygon : Descriptor :=
  (Descriptor.ofWhole "polygon"
    (.labelled "fill" "points" (.each (.category .length) ","))).withShape
    ["fill", "points"]

/-- What stands before the points. -/
def fillText (fields : List (String × Value)) : String :=
  (((Dict.get? "fill" fields).bind Value.text?).map fun fill => fill ++ ",").getD ""

/-- The text of a polygon. -/
theorem polygon_arguments (hkeys : ∀ name ∈ Dict.keys fields, name ∈ ["fill", "points"]) :
    argumentsBy (Task.text s) polygon (.record fields) = (do
      let text ← convert s (.each (.category .length) ",") ((Dict.get? "points" fields).getD .null)
      return fillText fields ++ text) := by
  have hcheck : polygon.checkWhole (.record fields) = .ok () :=
    Descriptor.checkShape_eq_ok_iff.mpr hkeys
  have hlabelled : argumentsBy (Task.text s) polygon (.record fields) =
      Conversion.run s [] (.labelled "fill" "points" (.each (.category .length) ","))
      (.record fields) := by
    show (Convert.ofExcept (polygon.checkWhole (.record fields)) >>= fun _ =>
      Conversion.run _ _ _ _) = _
    rw [hcheck]
    rfl
  rw [hlabelled, Conversion.run_labelled]
  unfold fillText convert
  cases (Dict.get? "fill" fields).bind Value.text? with
  | none => simp
  | some fill => rfl

/-- A polygon with other fields has no text. -/
theorem polygon_known {body : String}
    (h : argumentsBy (Task.text s) polygon (.record fields) a = (.ok body, a')) :
    ∀ name ∈ Dict.keys fields, name ∈ ["fill", "points"] := by
  obtain ⟨_, _, hcheck, -⟩ := stateful_bind_eq_ok h
  exact Descriptor.checkShape_eq_ok_iff.mp (congrArg Prod.fst hcheck)

/-- **A polygon becomes shorter** when its points become null, or a text that fills it. -/
theorem polygon_shorter {names : Names}
    (hfields : ∀ entry ∈ fields, entry.2.Alike (.constant a.units) entry.2)
    (h : polygon.render ⟨.standard, names⟩ (.record fields) repeating a = (.ok out, a'))
    (hv : Dict.get? name fields = some v) (hb : b.units = a.units)
    (htext : (convert ⟨.standard, names⟩ .plain v b).1 = .ok text) (hne : text ≠ "")
    (hfill : name = "fill" → ∃ t, v = .text t) :
    Convert.Shorter a.units out
      (polygon.render ⟨.standard, names⟩ (.record (Dict.insert name .null fields)) repeating) := by
  refine Descriptor.render_shorter h fun body hbody c hc => ?_
  have hkeys := polygon_known hbody
  have hname : name ∈ ["fill", "points"] := hkeys name (Dict.mem_keys_of_get? hv)
  have hkeys' : ∀ key ∈ Dict.keys (Dict.insert name .null fields), key ∈ ["fill", "points"] := by
    rwa [Dict.keys_insert, if_pos (Dict.mem_keys_of_get? hv)]
  rw [polygon_arguments hkeys] at hbody
  rw [polygon_arguments hkeys']
  obtain ⟨points, a₁, hpoints, hbody⟩ := stateful_bind_eq_ok hbody
  cases hbody
  -- The text that fills the polygon, or its points.
  rcases List.mem_cons.mp hname with rfl | hname
  · obtain ⟨t, rfl⟩ := hfill rfl
    have hsame : Dict.get? "points" (Dict.insert "fill" .null fields) = Dict.get? "points" fields :=
      Dict.get?_insert_of_ne (by decide) _ _
    have hself : ((Dict.get? "points" fields).getD .null).Alike (.constant a.units)
        ((Dict.get? "points" fields).getD .null) := by
      cases hget : Dict.get? "points" fields with
      | none => exact .null
      | some v => exact hfields _ (Dict.mem_of_get? hget)
    obtain ⟨-, c', hagain, -⟩ := hself.convert_again rfl hc hpoints
    rw [hsame]
    refine ⟨_, c', stateful_bind_ok hagain _, ?_⟩
    have hbefore : fillText fields = t ++ "," := by
      unfold fillText
      rw [hv]
      rfl
    have hafter : fillText (Dict.insert "fill" .null fields) = "" := by
      unfold fillText
      rw [Dict.get?_insert_self]
      rfl
    have hcomma : (",").length = 1 := rfl
    rw [hbefore, hafter]
    simp only [String.length_append, String.empty_append, hcomma]
    omega
  · obtain rfl : name = "points" := by simpa using hname
    have hnull : ∀ c : Ambient,
        convert ⟨.standard, names⟩ (.each (.category .length) ",") .null c = (.ok "", c) := by
      intro c
      unfold convert
      rw [Conversion.run_each (v := .null) nofun, Conversion.run_category rfl]
      unfold convert Recipe.numeric
      rw [Conversion.run, Conversion.shaped]
      rfl
    have hpoints' : points ≠ "" := by
      rw [hv] at hpoints
      exact Conversion.lengths_ne_empty (hfields _ (Dict.mem_of_get? hv)) rfl hb htext hne
        (congrArg Prod.fst hpoints)
    have hsame : fillText (Dict.insert "points" .null fields) = fillText fields := by
      unfold fillText
      rw [Dict.get?_insert_of_ne (by decide)]
    have hpos := length_pos_of_ne_empty hpoints'
    rw [Dict.get?_insert_self, hsame]
    refine ⟨_, c, stateful_bind_ok (hnull c) _, ?_⟩
    simp only [String.length_append]
    have : ("").length = 0 := rfl
    omega

/-! ### The standard functions -/

/-- Only three functions have no parameters. -/
theorem Standard.functions_filter : (Standard.functions.filter fun d => !d.isSimple) =
    [.ofWhole "matrix" (.each (.category .number) ","), polygon, .ofWhole "url" .plain] := rfl

/-- A function is found under its name. -/
theorem Standard.mem_of_descriptor? {function : String}
    (h : Catalog.standard.descriptor? function = some d) : d ∈ Standard.functions ∧
    d.name = function := by
  obtain ⟨d', hd', heq⟩ := List.mem_map.mp (Dict.mem_of_get? h)
  cases heq
  exact ⟨hd', rfl⟩

/-- A record has no text as a number. -/
theorem convert_record {recipe : Recipe} {shape : Shape} (hshape : recipe.shape? = some shape)
    (hrecord : shape.ofRecord = none) (hother : shape.ofOther = none) :
    convert s recipe (.record fields) =
      throw (.unsupportedValue (Value.record fields).kind "record conversion") := by
  unfold convert
  rw [Conversion.run_eq_shaped hshape, Conversion.shaped, hrecord, hother]

/-- A function of a whole value that is no record takes no record. -/
theorem Descriptor.whole_error {function : String} {recipe : Recipe} {err : Error}
    (hrecipe : convert s recipe (.record fields) = throw err) :
    (ofWhole function recipe).render s (.record fields) repeating a ≠ (.ok out, a') := by
  intro h
  unfold render at h
  split at h
  · cases h
  · obtain ⟨body, a₁, hbody, -⟩ := stateful_bind_eq_ok h
    obtain ⟨_, a₂, -, hbody⟩ := stateful_bind_eq_ok hbody
    have herror : convert s recipe (.record fields) a₂ = (.ok body, a₁) := hbody
    rw [hrecipe] at herror
    cases herror

/-- **No argument is lost.** When the arguments of a call of a standard function are a record, and a
    field that has a text becomes null, the text of the call becomes shorter, if sources answer the
    same every time. What fills a polygon has to be a text for that. -/
theorem Setting.supplied_shows {names : Names} {function : String}
    (hd : Catalog.standard.descriptor? function = some d)
    (hfields : ∀ entry ∈ fields, entry.2.Alike (.constant a.units) entry.2)
    (h : Setting.call ⟨.standard, names⟩ function (.record fields) repeating a = (.ok out, a'))
    (hv : Dict.get? name fields = some v) (hnull : v.isNull = false) (hb : b.units = a.units)
    (htext : (convert ⟨.standard, names⟩ (d.fieldRecipe name) v b).1 = .ok text) (hne : text ≠ "")
    (hfill : function = "polygon" → name = "fill" → ∃ t, v = .text t) :
    Convert.Shorter a.units out (Setting.call ⟨.standard, names⟩ function
      (.record (Dict.insert name .null fields)) repeating) := by
  obtain ⟨hmem, hname⟩ := Standard.mem_of_descriptor? hd
  rw [Setting.call_eq_render hd] at h ⊢
  -- Three functions are not joined from their parameters: two take no record, and one is the
  -- polygon.
  cases hsimple : d.isSimple with
  | true => exact Descriptor.params_shorter hsimple hfields h hv hnull hb htext hne
  | false =>
    have hspecial : d ∈ Standard.functions.filter fun d => !d.isSimple :=
      List.mem_filter.mpr ⟨hmem, by rw [hsimple]; rfl⟩
    rw [Standard.functions_filter] at hspecial
    rcases List.mem_cons.mp hspecial with rfl | hspecial
    · have hnumbers : convert ⟨.standard, names⟩ (.each (.category .number) ",") (.record fields) =
          convert ⟨.standard, names⟩ (.numeric .number) (.record fields) :=
        (Conversion.run_each (v := .record fields) nofun _ _).trans
          (Conversion.run_category rfl names _)
      exact absurd h (Descriptor.whole_error (hnumbers.trans (convert_record rfl rfl rfl)))
    rcases List.mem_cons.mp hspecial with rfl | hspecial
    · exact polygon_shorter hfields h hv hb htext hne (hfill hname.symm)
    · obtain rfl := List.mem_singleton.mp hspecial
      exact absurd h (Descriptor.whole_error (convert_record rfl rfl rfl))

end Calls

/-- The function of an attribute. -/
def attr : Descriptor := .ofParams "attr" "," [.plain "name", .plain "fallback"]

/-- An attribute with a fallback that a source answers. -/
def attrFields : List (String × Value) :=
  [("name", .text "title"), ("fallback", .lazy ⟨0, fun _ => "none"⟩)]

/-- Without its fallback an attribute is shorter. -/
theorem Setting.supplied_shows_of_attr :
    (Setting.call ⟨.standard, fun _ => none⟩ "attr" (.record attrFields) false .initial).1 =
        .ok "attr(title,none)" ∧
      Convert.Shorter [] "attr(title,none)" (Setting.call ⟨.standard, fun _ => none⟩ "attr"
        (.record (Dict.insert "fallback" .null attrFields)) false) := by
  have hattr : Catalog.standard.descriptor? "attr" = some attr := rfl
  have hpieces : Conversion.fieldTexts ⟨.standard, fun _ => none⟩ [.plain "name", .plain "fallback"]
      attrFields .initial =
        (.ok [(.plain "name", "title"), (.plain "fallback", "none")], Ambient.initial.ask 0) := by
    refine Conversion.fieldTexts_cons rfl rfl (Conversion.convert_text _ _ _)
      (Conversion.fieldTexts_cons rfl rfl (convert_lazy _ _ _) ?_)
    rw [Conversion.fieldTexts]
    rfl
  have hcall : Setting.call ⟨.standard, fun _ => none⟩ "attr" (.record attrFields) false .initial =
      (.ok "attr(title,none)", Ambient.initial.ask 0) := by
    have hgiven : attr.fieldsFor [.plain "name", .plain "fallback"] (.record attrFields) =
        .ok attrFields := rfl
    rw [← Conversion.convert_call]
    exact Conversion.convert_call_params hattr hgiven rfl hpieces
  have hfields : ∀ entry ∈ attrFields, entry.2.Alike (.constant []) entry.2 := by
    intro entry hentry
    rcases List.mem_cons.mp hentry with rfl | hentry
    · exact .text
    · obtain rfl := List.mem_singleton.mp hentry
      exact .lazy fun _ => rfl
  have htext : (convert ⟨.standard, fun _ => none⟩ (attr.fieldRecipe "fallback")
      (.lazy ⟨0, fun _ => "none"⟩) .initial).1 = .ok "none" :=
      congrArg Prod.fst (convert_lazy _ _ _)
  exact ⟨by rw [hcall], supplied_shows hattr hfields hcall rfl rfl rfl htext (by decide)
    fun h => absurd h (by decide)⟩

/-- The points of a polygon, and a source that answers by what it is filled. -/
def filledFields : List (String × Value) :=
  [("fill", .lazy ⟨0, fun _ => "evenodd"⟩), ("points", .text "0 0")]

/-- **What fills a polygon is lost if it is not a text:** here it has a text, and the call is the
    same without it. -/
theorem Setting.fill_lost :
    (∀ entry ∈ filledFields, entry.2.Alike (.constant []) entry.2) ∧
      (convert ⟨.standard, fun _ => none⟩ (polygon.fieldRecipe "fill")
        (.lazy ⟨0, fun _ => "evenodd"⟩)
        .initial).1 = .ok "evenodd" ∧
      Setting.call ⟨.standard, fun _ => none⟩ "polygon" (.record filledFields) false .initial =
        (.ok "polygon(0 0)", .initial) ∧
      Setting.call ⟨.standard, fun _ => none⟩ "polygon"
        (.record (Dict.insert "fill" .null filledFields)) false .initial =
          (.ok "polygon(0 0)", .initial) := by
  have hpoints : convert ⟨.standard, fun _ => none⟩ (.each (.category .length) ",")
    (.text "0 0") .initial =
      (.ok "0 0", .initial) := by
    unfold convert
    rw [Conversion.run_each (v := .text "0 0") nofun, Conversion.run_category rfl,
      Conversion.convert_numeric (v := .text "0 0") nofun nofun]
    exact Conversion.convert_text _ _ _
  -- Neither record has a text that fills it, so both are written by their points.
  have hcall : ∀ fields : List (String × Value),
    (∀ name ∈ Dict.keys fields, name ∈ ["fill", "points"]) →
      Dict.get? "points" fields = some (.text "0 0") → fillText fields = "" →
      Setting.call ⟨.standard, fun _ => none⟩ "polygon" (.record fields) false .initial =
        (.ok "polygon(0 0)", .initial) := by
    intro fields hkeys hget hfill
    have hbody : Conversion.argumentsBy (Conversion.Task.text ⟨.standard, fun _ => none⟩) polygon
        (.record fields) .initial = (.ok "0 0", .initial) := by
      rw [polygon_arguments hkeys, hget, hfill]
      exact stateful_bind_ok hpoints _
    rw [Setting.call_eq_render (d := polygon) rfl]
    exact stateful_bind_ok hbody _
  refine ⟨?_, congrArg Prod.fst (convert_lazy _ _ _), hcall _ (by decide) rfl rfl,
    hcall _ (by decide) rfl rfl⟩
  intro entry hentry
  rcases List.mem_cons.mp hentry with rfl | hentry
  · exact .lazy fun _ => rfl
  · obtain rfl := List.mem_singleton.mp hentry
    exact .text

end StyleBook
