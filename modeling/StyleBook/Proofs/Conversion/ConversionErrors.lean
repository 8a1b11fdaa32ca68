import StyleBook.Proofs.Conversion.Conversions
import StyleBook.Proofs.Engine.Computation

namespace StyleBook

/-!
# Where conversions fail

A conversion gives up with an error that one of its steps gave up with: the value cannot be written,
a function of the recipe refuses it, a name is missing, or a category is.

* `Convert.Fails` — the errors that a conversion may give up with;
* `Recipe.Has`, `Recipe.All` — the parts of a recipe, and what holds of all of them;
  `Conversion.Leads.all` — then it holds of all recipes that a conversion leads to;
* `Conversion.Objects` — the errors that a step may give up with on its own;
* `Conversion.outline_fails` — a step gives up with one of these, or with one that it is answered.
-/

/-! ### Conversions that fail -/

namespace Convert

variable {α β : Type} {G : Error → Prop}

/-- The conversion gives up only with errors in `G`. -/
def Fails (G : Error → Prop) (c : Convert α) : Prop := ∀ a err, (c a).1 = .error err → G err

namespace Fails

theorem pure (x : α) : Fails G (Pure.pure x) := fun _ _ h => by cases h

theorem report (event : Event) : Fails G (Convert.report event) := fun _ _ h => by cases h

/-- A failure that is a result is none. -/
theorem attempt (c : Convert α) : Fails G (Convert.attempt c) := fun _ _ h => by cases h

theorem throw {err : Error} (h : G err) : Fails G (MonadExcept.throw err : Convert α) :=
  fun _ _ herr => by
    cases herr
    exact h

theorem ofExcept {r : Except Error α} (h : ∀ err, r = .error err → G err) :
    Fails G (Convert.ofExcept r) := fun _ err herr => h err herr

/-- One conversion after the other. -/
theorem bind {c : Convert α} {f : α → Convert β} (hc : Fails G c) (hf : ∀ x, Fails G (f x)) :
    Fails G (c >>= f) := fun a err herr => by
  rw [stateful_bind] at herr
  rcases hrun : c a with ⟨err' | x, b⟩ <;> rw [hrun] at herr
  · cases herr
    exact hc a err (by rw [hrun])
  · exact hf x b err herr

/-- An error changed into another one. -/
theorem mapError {c : Convert α} (hc : Fails G c) {f : Error → Error}
    (hf : ∀ err, G err → G (f err)) :
    Fails G (Convert.mapError f c) := fun a err herr => by
  unfold Convert.mapError at herr
  rcases hrun : c a with ⟨err' | x, b⟩ <;> rw [hrun] at herr <;> cases herr
  exact hf err' (hc a err' (by rw [hrun]))

/-- The result of a conversion changed. -/
theorem map {c : Convert α} (hc : Fails G c) (f : α → β) : Fails G (do return f (← c)) :=
  bind hc fun x => pure (f x)

theorem mono {G' : Error → Prop} {c : Convert α} (hc : Fails G c) (h : ∀ err, G err → G' err) :
    Fails G' c := fun a err herr => h err (hc a err herr)

end Fails

end Convert

/-! ### What holds of all parts of a recipe -/

namespace Recipe

/-- **The recipe has another one as a part.** -/
inductive Has : Recipe → Recipe → Prop
  | item {shape inner} (h : shape.item = some inner) : Has (.shaped shape) inner
  | field {shape specs separator spec} (h : shape.ofRecord = some (specs, separator))
    (hspec : spec ∈ specs) : Has (.shaped shape) spec.recipe
  | leading {text inner} : Has (.leading text inner) inner
  | enclosed {opening closing inner} : Has (.enclosed opening closing inner) inner
  | yes {test yes no} : Has (.choice test yes no) yes
  | no {test yes no} : Has (.choice test yes no) no
  | each {item separator} : Has (.each item separator) item
  | first {first others} : Has (.headed first others) first
  | others {first others} : Has (.headed first others) others
  | labelled {label field inner} : Has (.labelled label field inner) inner

/-- **`P` holds of the recipe and of all its parts,** at any depth. -/
inductive All (P : Recipe → Prop) : Recipe → Prop
  | intro {recipe} (here : P recipe) (parts : ∀ part, recipe.Has part → All P part) : All P recipe

/-- The recipe has a function that gives up with this error on some value. -/
inductive Throws (err : Error) : Recipe → Prop
  | own {write v} (h : write v = .error err) : Throws err (.own write)
  | list {shape write items} (hlist : shape.ofList = some write) (h : write items = .error err) :
    Throws err (.shaped shape)
  | other {shape write v} (hother : shape.ofOther = some write) (h : write v = .error err) :
    Throws err (.shaped shape)

section All

variable {P Q : Recipe → Prop} {recipe part : Recipe}

theorem All.here (h : recipe.All P) : P recipe := by
  cases h with
  | intro here _ => exact here

theorem All.of_has (h : recipe.All P) (hpart : recipe.Has part) : part.All P := by
  cases h with
  | intro _ parts => exact parts part hpart

theorem All.mono (h : recipe.All P) (hPQ : ∀ part, P part → Q part) : recipe.All Q := by
  induction h with
  | intro here _ ih => exact .intro (hPQ _ here) ih

namespace All

theorem plain (h : P .plain) : Recipe.plain.All P := .intro h nofun

theorem category {c : Category} (h : P (.category c)) : (Recipe.category c).All P := .intro h nofun

theorem own {write : Value → Except Error String} (h : P (.own write)) : (Recipe.own write).All P :=
  .intro h nofun

theorem shaped {shape : Shape} (h : P (.shaped shape))
    (item : ∀ inner, shape.item = some inner → inner.All P)
    (record : ∀ specs separator, shape.ofRecord = some (specs, separator) →
      ∀ spec ∈ specs, spec.recipe.All P) : (Recipe.shaped shape).All P := by
  refine .intro h fun part hpart => ?_
  cases hpart with
  | item hitem => exact item part hitem
  | field hrecord hspec => exact record _ _ hrecord _ hspec

theorem leading {text : String} {inner : Recipe} (h : P (.leading text inner))
    (hinner : inner.All P) :
    (Recipe.leading text inner).All P := by
  refine .intro h fun part hpart => ?_
  cases hpart
  exact hinner

theorem enclosed {opening closing : String} {inner : Recipe}
    (h : P (.enclosed opening closing inner))
    (hinner : inner.All P) : (Recipe.enclosed opening closing inner).All P := by
  refine .intro h fun part hpart => ?_
  cases hpart
  exact hinner

theorem choice {test : Value → Bool} {yes no : Recipe} (h : P (.choice test yes no))
    (hyes : yes.All P) (hno : no.All P) : (Recipe.choice test yes no).All P := by
  refine .intro h fun part hpart => ?_
  cases hpart with
  | yes => exact hyes
  | no => exact hno

theorem each {item : Recipe} {separator : String} (h : P (.each item separator))
    (hitem : item.All P) : (Recipe.each item separator).All P := by
  refine .intro h fun part hpart => ?_
  cases hpart
  exact hitem

theorem headed {first others : Recipe} (h : P (.headed first others)) (hfirst : first.All P)
    (hothers : others.All P) : (Recipe.headed first others).All P := by
  refine .intro h fun part hpart => ?_
  cases hpart with
  | first => exact hfirst
  | others => exact hothers

theorem labelled {label field : String} {inner : Recipe} (h : P (.labelled label field inner))
    (hinner : inner.All P) : (Recipe.labelled label field inner).All P := by
  refine .intro h fun part hpart => ?_
  cases hpart
  exact hinner

end All

end All

end Recipe

/-- A property is written by category or at the default, as a whole or in parts. -/
theorem PropertyKind.all_recipe {P : Recipe → Prop} {kind : PropertyKind} (hone : kind.one.All P)
    (hchoice : ∀ test yes no, P (.choice test yes no))
    (heach : ∀ item separator, P (.each item separator)) :
    kind.recipe.All P := by
  unfold recipe
  split
  · exact hone
  · exact hone
  · exact .choice (hchoice _ _ _) (.each (heach _ _) hone) hone
  · exact .each (heach _ _) hone

/-- The recipes of the arguments of a function. -/
def Descriptor.recipes (d : Descriptor) : List Recipe :=
  match d.arguments with
  | .params params _ => params.map Field.recipe
  | .whole recipe => [recipe]

/-- **`P` holds of all recipes of the catalog,** those of categories and those of arguments, and of
    all their parts. -/
structure Catalog.All (P : Recipe → Prop) (catalog : Catalog) : Prop where
  category {c recipe} : catalog.categories.get? c = some recipe → recipe.All P
  function {name d recipe} : catalog.descriptor? name = some d → recipe ∈ d.recipes → recipe.All P

namespace Conversion

variable {s : Setting} {t t' : Task}

/-- **What holds of all recipes of the catalog, and of the one to begin with,** holds of each one
    that the conversion leads to. -/
theorem Leads.all {catalog : Catalog} {P : Recipe → Prop} (h : Leads catalog t t')
    (hcatalog : catalog.All P) (ht : t.recipe.All P) : t'.recipe.All P := by
  have hshape : ∀ {recipe : Recipe} {shape : Shape}, recipe.shape? = some shape →
      recipe = .shaped shape ∨ (recipe = .plain ∧ shape = {}) := by
    intro recipe shape h
    cases recipe with
    | plain =>
      cases h
      exact .inr ⟨rfl, rfl⟩
    | shaped shape' =>
      cases h
      exact .inl rfl
    | _ => cases h
  cases h with
  | @item followed recipe shape items v h _ _ =>
    -- Items are written by the recipe itself if there is none for them.
    cases hitem : shape.item with
    | none => exact ht
    | some inner =>
      rcases hshape h with rfl | ⟨rfl, rfl⟩
      · exact ht.of_has (.item hitem)
      · cases hitem
  | field h hrecord hspec _ _ =>
    rcases hshape h with rfl | ⟨rfl, rfl⟩
    · exact ht.of_has (.field hrecord hspec)
    · cases hrecord
  | whole _ hd hargs =>
    refine hcatalog.function hd ?_
    unfold Descriptor.recipes
    rw [hargs]
    exact List.mem_singleton_self _
  | argument _ hd hargs _ hspec _ _ =>
    refine hcatalog.function hd ?_
    unfold Descriptor.recipes
    rw [hargs]
    exact List.mem_map_of_mem hspec
  | category _ h => exact hcatalog.category h
  | leading => exact ht.of_has .leading
  | enclosed => exact ht.of_has .enclosed
  | yes => exact ht.of_has .yes
  | no => exact ht.of_has .no
  | each => exact ht.of_has .each
  | one => exact ht.of_has .each
  | head => exact ht.of_has .first
  | others => exact ht.of_has .others
  | alone => exact ht.of_has .first
  | labelled => exact ht.of_has .labelled
  | unlabelled => exact ht.of_has .labelled

/-! ### Errors of steps -/

/-- **The errors that a step gives up with on its own,** whatever it is answered. -/
inductive Objects (s : Setting) : Task → Error → Prop
  | unsupported {t kind context} : Objects s t (.unsupportedValue kind context)
  | nameless {followed recipe ref err} (h : ref.render s.names = .error err) :
    Objects s ⟨followed, recipe, .ref ref⟩ err
  | thrown {t err} (h : t.recipe.Throws err) : Objects s t err
  | endless {followed c v} (h : c ∈ followed) :
    Objects s ⟨followed, .category c, v⟩ (.endless c.name)
  | missing {followed c v} (hc : c ∉ followed) (h : s.catalog.categories.get? c = none) :
    Objects s ⟨followed, .category c, v⟩
      (.malformedDescriptor c.name "well-known function is not registered")

section Steps

variable {ask operand : Task → Convert String} {G : Error → Prop}

theorem textsBy_fails {write : Value → Convert String} {items : List Value}
    (h : ∀ v ∈ items, Convert.Fails G (write v)) : Convert.Fails G (textsBy write items) := by
  induction items with
  | nil => exact .pure _
  | cons v rest ih =>
    rw [List.forall_mem_cons] at h
    exact .bind h.1 fun _ => .map (ih h.2) _

theorem fieldTextsBy_fails {write : Recipe → Value → Convert String}
    {fields : List (String × Value)} {specs : List Field}
    (h : ∀ spec ∈ specs, ∀ v, Dict.get? spec.name fields = some v → v.isNull = false →
      Convert.Fails G (write spec.recipe v)) :
      Convert.Fails G (fieldTextsBy write fields specs) := by
  induction specs with
  | nil => exact .pure _
  | cons spec rest ih =>
    rw [List.forall_mem_cons] at h
    rw [fieldTextsBy]
    cases hv : Dict.get? spec.name fields with
    | none => exact ih h.2
    | some v =>
      cases hnull : v.isNull with
      | true => simpa only [hnull, if_true] using ih h.2
      | false =>
        simp only [hnull, Bool.false_eq_true, if_false]
        exact .bind (h.1 v hv hnull) fun _ => .map (ih h.2) _

theorem recordBy_fails {write : Recipe → Value → Convert String}
    {fields : List (String × Value)} {specs : List Field} {separator : String}
    (hG : ∀ kind context, G (.unsupportedValue kind context))
    (h : ∀ spec ∈ specs, ∀ v, Dict.get? spec.name fields = some v → v.isNull = false →
      Convert.Fails G (write spec.recipe v)) :
    Convert.Fails G (recordBy write specs separator fields) := by
  rw [recordBy]
  cases unknownField? specs fields with
  | some name => exact .throw (hG _ _)
  | none => exact .map (fieldTextsBy_fails h) _

/-- An operand without text is left out, so no error comes of it. -/
theorem orDropped_fails (family : NumericFamily) (text : Convert String) :
    Convert.Fails G (orDropped family text) := by
  refine .bind (.attempt _) fun result => ?_
  cases result with
  | ok text => exact .pure _
  | error err => exact .bind (.report _) fun _ => .pure _

/-- An error that says which function it is about is still about a value, or it is the same. -/
theorem explain_fails (hG : ∀ kind context, G (.unsupportedValue kind context)) {d : Descriptor}
    {args : Value} {err : Error} (h : G err) : G (d.explain args err) := by
  unfold Descriptor.explain
  split
  · unfold Descriptor.inArguments
    split
    · exact hG _ _
    · exact h
  · exact h

/-- The arguments of a call are refused, or one of them is. -/
theorem argumentsBy_fails {d : Descriptor} {args : Value}
    (hG : ∀ kind context, G (.unsupportedValue kind context))
    (hwhole : ∀ inner, d.arguments = .whole inner → Convert.Fails G (ask ⟨[], inner, args⟩))
    (hparams : ∀ params separator fields, d.arguments = .params params separator →
      d.fieldsFor params args = .ok fields → ∀ spec ∈ params, ∀ v,
        Dict.get? spec.name fields = some v → v.isNull = false →
          Convert.Fails G (ask ⟨[], spec.recipe, v⟩)) :
    Convert.Fails G (argumentsBy ask d args) := by
  -- All that reading the arguments can refuse is an unsupported value.
  have hshape : ∀ {shape fields err}, d.checkShape shape fields = .error err → G err := by
    intro shape fields err h
    unfold Descriptor.checkShape at h
    split at h
    · cases h
      exact hG _ _
    · cases h
  unfold argumentsBy
  cases hargs : d.arguments with
  | whole inner =>
    refine .bind (.ofExcept fun err herr => ?_) fun _ => hwhole inner hargs
    unfold Descriptor.checkWhole at herr
    split at herr
    · exact hshape herr
    · cases herr
  | params params separator =>
    cases hfields : d.fieldsFor params args with
    | error err =>
      simp only [hfields]
      refine .throw ?_
      unfold Descriptor.fieldsFor at hfields
      split at hfields
      · split at hfields
        · next shape _ =>
          cases hcheck : d.checkShape shape _ with
          | error err' =>
            rw [hcheck] at hfields
            cases hfields
            exact hshape hcheck
          | ok _ =>
            rw [hcheck] at hfields
            cases hfields
        · cases hfields
      · split at hfields
        · cases hfields
          exact hG _ _
        · cases hfields
      · cases hfields
    | ok fields =>
      simp only [hfields]
      exact .mapError
        (recordBy_fails hG (hparams params separator fields hargs hfields)) fun err h =>
        explain_fails hG h

/-- **A step gives up with an error of its own, or with one that it is answered.** -/
theorem outline_fails {t : Task} (hown : ∀ err, Objects s t err → G err)
    (hask : ∀ t', Leads s.catalog t t' → Convert.Fails G (ask t')) :
    Convert.Fails G (outline s ask operand t) := by
  have hG : ∀ kind context, G (.unsupportedValue kind context) := fun _ _ => hown _ .unsupported
  obtain ⟨followed, recipe, v⟩ := t
  -- A recipe that is a shape leads to parts of the value.
  have hshaped : ∀ {shape : Shape}, recipe.shape? = some shape →
      (∀ write items err, shape.ofList = some write → write items = .error err → G err) →
      (∀ write v err, shape.ofOther = some write → write v = .error err → G err) →
      Convert.Fails G (shapedBy s ask operand shape (shape.item.getD recipe) v) := by
    intro shape h hlists hothers
    cases v with
    | null => exact .pure _
    | bool => exact .pure _
    | number x =>
      unfold shapedBy
      cases shape.ofNumber with
      | some style => exact .map (fun _ _ h => by cases h) _
      | none => exact .pure _
    | text => exact .pure _
    | list items =>
      unfold shapedBy
      cases hlist : shape.ofList with
      | some write => exact .ofExcept fun err => hlists write items err hlist
      | none => exact .map (textsBy_fails fun v hv => hask _ (.item h hlist hv)) _
    | record fields =>
      unfold shapedBy
      cases hrecord : shape.ofRecord with
      | some written =>
        exact recordBy_fails hG fun spec hspec v hv hnull =>
          hask _ (.field h hrecord hspec hv hnull)
      | none =>
        cases hother : shape.ofOther with
        | some write => exact .ofExcept fun err => hothers write _ err hother
        | none => exact .throw (hG _ _)
    | call function args repeating =>
      show Convert.Fails G (callBy s ask function args repeating)
      unfold callBy
      cases hd : s.catalog.descriptor? function with
      | none => exact .throw (hG _ _)
      | some d =>
        simp only
        split
        · exact .throw (hG _ _)
        · refine .map (argumentsBy_fails hG ?_ ?_) _
          · exact fun inner hargs => hask _ (.whole h hd hargs)
          · exact fun params separator fields hargs hfields spec hspec v hv hnull =>
              hask _ (.argument h hd hargs hfields hspec hv hnull)
    | ref name => exact .ofExcept fun err herr => hown err (.nameless herr)
    | lazy => exact .map (fun _ _ h => by cases h) _
    | math id function family operands =>
      refine .bind (fun _ _ h => by cases h) fun _ => .map (textsBy_fails fun v _ => ?_) _
      exact orDropped_fails family _
    | custom => exact .map (fun _ _ h => by cases h) _
  cases recipe with
  | plain => exact hshaped rfl (fun _ _ _ h => by cases h) fun _ _ _ h => by cases h
  | shaped shape =>
    refine hshaped rfl (fun write items err hlist herr => ?_) fun write v err hother herr => ?_
    · exact hown err (.thrown (.list hlist herr))
    · exact hown err (.thrown (.other hother herr))
  | category c =>
    rw [outline]
    by_cases hc : c ∈ followed
    · rw [if_pos hc]
      exact .throw (hown _ (.endless hc))
    · rw [if_neg hc]
      cases h : s.catalog.categories.get? c with
      | some inner => exact hask _ (.category hc h)
      | none => exact .throw (hown _ (.missing hc h))
  | own write => exact .ofExcept fun err herr => hown err (.thrown (.own herr))
  | leading text inner => exact .map (hask _ .leading) _
  | enclosed opening closing inner => exact .map (hask _ .enclosed) _
  | choice test yes no =>
    rw [outline]
    cases h : test v with
    | true => exact hask _ (.yes h)
    | false => exact hask _ (.no h)
  | each item separator =>
    cases v with
    | list items => exact .map (textsBy_fails fun v hv => hask _ (.each hv)) _
    | _ => exact hask _ (.one fun _ h => by cases h)
  | headed first others =>
    cases v with
    | list items =>
      cases items with
      | nil => exact .pure _
      | cons head items =>
        exact .bind (hask _ .head) fun _ => .map (textsBy_fails fun v hv => hask _ (.others hv)) _
    | _ => exact hask _ (.alone fun _ h => by cases h)
  | labelled label field inner =>
    cases v with
    | record fields =>
      refine .bind (hask _ .labelled) fun text => ?_
      cases (Dict.get? label fields).bind Value.text? with
      | some label => exact .pure _
      | none => exact .pure _
    | _ => exact hask _ (.unlabelled fun _ h => by cases h)

end Steps

/-- The text of a call is that of a value which is the call. -/
theorem convert_call (s : Setting) (function : String) (args : Value) (repeating : Bool) :
    convert s .plain (.call function args repeating) = s.call function args repeating := by
  unfold convert Setting.call
  rw [run, shaped]

end Conversion

/-- A source is asked for its text. -/
theorem convert_lazy (s : Setting) (source : TextSource) (a : Ambient) :
    convert s .plain (.lazy source) a = (.ok (source.text (a.count source.id)), a.ask source.id) :=
    by
  unfold convert
  rw [Conversion.run, Conversion.shaped]
  rfl

end StyleBook
