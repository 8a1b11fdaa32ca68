import StyleBook.Proofs.Text.TextErrors

namespace StyleBook

/-!
# Entries without text

An entry of a sheet whose value cannot be converted is left out of its text. What is written is the
text of the sheet without the entry, wherever it stood.

* `Trimmed` — a list without some of its items
* `Setting.Fails` — a value that cannot be converted
* `Styleset.Omits`, `Rule.Omits`, `Engine.Omits` — stylesets, rules and scopes without entries whose
  values cannot be converted, and just as they were otherwise
* `Engine.serialize_omits` — these have the same text, if sources answer the same every time
* `unnamed_property_counts` — a custom property that has no name is not left out
-/

/-- **The second list is the first one without some items of which `P` holds;** those that stay are
    related one by one. -/
inductive Trimmed {α : Type} (P : α → Prop) (R : α → α → Prop) : List α → List α → Prop
  | nil : Trimmed P R [] []
  | keep {x y list list'} (h : R x y) (hrest : Trimmed P R list list') :
    Trimmed P R (x :: list) (y :: list')
  | drop {x list list'} (h : P x) (hrest : Trimmed P R list list') : Trimmed P R (x :: list) list'

namespace Trimmed

variable {α : Type} {P : α → Prop} {R : α → α → Prop}

/-- A list without none of its items is the list. -/
theorem refl (hR : ∀ x, R x x) : ∀ list, Trimmed P R list list
  | [] => .nil
  | x :: rest => .keep (hR x) (refl hR rest)

end Trimmed

/-! ### Sheets without entries -/

/-- **The value cannot be converted** in these units. -/
def Setting.Fails (s : Setting) (units : UnitTable) (recipe : Recipe) (v : Value) : Prop :=
  ∃ a err, a.units = units ∧ (convert s recipe v a).1 = .error err

section Sheets

variable (s : Setting) (units : UnitTable)

/-- **The styleset without entries whose values cannot be converted,** neither its own nor those of
    its dependents at any depth. -/
inductive Styleset.Omits : Styleset → Styleset → Prop
  | of {ps qs cs ds ts us}
    (properties : Trimmed
      (fun p => s.Fails units (s.catalog.propertyRecipe p.1) p.2.value) Eq ps qs)
    (custom : Trimmed
      (fun p => s.Fails units (s.catalog.templateRecipe p.template) p.value) Eq cs ds)
    (dependents : List.Forall₂ (Prod.RProd Eq Styleset.Omits) ts us) :
    Omits ⟨ps, cs, ts⟩ ⟨qs, ds, us⟩

/-- The frame without such entries. -/
structure Keyframe.Omits (a b : Keyframe) : Prop where
  waypoint : a.waypoint = b.waypoint
  styleset : a.styleset.Omits s units b.styleset

/-- What a rule says without such entries in frames, but for its styleset. -/
inductive RuleContent.Omits : RuleContent → RuleContent → Prop
  | cls {a b} : Omits (.cls a) (.cls b)
  | id {a b} : Omits (.id a) (.id b)
  | tag {element a b} : Omits (.tag element a) (.tag element b)
  | selector {selector a b} : Omits (.selector selector a) (.selector selector b)
  | animation {frames frames'} (h : List.Forall₂ (Keyframe.Omits s units) frames frames') :
    Omits (.animation frames) (.animation frames')
  | var {template value} : Omits (.var template value) (.var template value)
  | counter : Omits .counter .counter
  | page {pseudo a b} : Omits (.page pseudo a) (.page pseudo b)
  | group {condition k} : Omits (.group condition k) (.group condition k)

/-- **The rule without such entries** in its frames or in its styleset, which is the one with
    everything that it inherits. -/
structure Rule.Omits (r r' : Rule) : Prop where
  content : r.content.Omits s units r'.content
  slot : r.slot = r'.slot
  cell : r.cell = r'.cell
  styleset : Option.Rel (Styleset.Omits s units) r.styleset? r'.styleset?

/-- The rule is a custom property that has a name and a value that cannot be converted. -/
def Rule.Unwritten (r : Rule) : Prop :=
  ∃ template value name, r.content = .var template value ∧ r.requireName s.names = .ok name ∧
    s.Fails units (s.catalog.templateRecipe template) value

end Sheets

/-- **Scopes without such entries,** and without rules for custom properties of this kind. -/
structure Engine.Omits (units : UnitTable) (e e' : Engine) : Prop where
  setting : e.setting = e'.setting
  supports : e.supports = e'.supports
  scopes (k : ScopeId) : Option.Rel (fun t u : Scope => Trimmed (Rule.Unwritten e.setting units)
    (Rule.Omits e.setting units) t.rules u.rules) (e.scope? k) (e'.scope? k)

/-- Places and scopes correspond to themselves only, and sources answer the same every time. -/
def Likeness.constant (units : UnitTable) : Likeness :=
  ⟨Eq, Eq, fun source => ∀ k, source.text k = source.text 0, units⟩

/-- **All sources that the text of the scope asks answer the same every time.** -/
def Engine.ConstantTexts (e : Engine) (k : ScopeId) (units : UnitTable) : Prop :=
  ∀ j t, e.Shown k j → e.scope? j = some t → ∀ rule ∈ t.rules, rule.Shows (.constant units) rule

variable {s : Setting} {units : UnitTable}

/-! ### Leaving out one entry -/

mutual

/-- Nothing has to be left out. -/
theorem Styleset.Omits.refl : ∀ t : Styleset, t.Omits s units t
  | ⟨_, _, dependents⟩ => .of (.refl (fun _ => rfl) _) (.refl (fun _ => rfl) _)
    (dependentsOmit_refl dependents)

/-- Dependents of which nothing is left out. -/
theorem dependentsOmit_refl : ∀ dependents : List (Selector × Styleset),
    List.Forall₂ (Prod.RProd Eq (Styleset.Omits s units)) dependents dependents
  | [] => .nil
  | (_, styles) :: rest => .cons ⟨rfl, Styleset.Omits.refl styles⟩ (dependentsOmit_refl rest)

end

/-- The content of a rule of which nothing is left out. -/
theorem RuleContent.Omits.refl (content : RuleContent) : content.Omits s units content := by
  cases content with
  | cls => exact .cls
  | id => exact .id
  | tag => exact .tag
  | selector => exact .selector
  | animation frames =>
    exact .animation (List.forall₂_same.mpr fun frame _ => ⟨rfl, .refl frame.styleset⟩)
  | var => exact .var
  | counter => exact .counter
  | page => exact .page
  | group => exact .group

/-- A rule of which nothing is left out. -/
theorem Rule.Omits.refl (r : Rule) : r.Omits s units r where
  content := .refl _
  slot := rfl
  cell := rfl
  styleset := by
    cases r.styleset? with
    | none => exact .none
    | some styles => exact .some (.refl styles)

/-- The rule with another styleset in place of the one that is written: the one with everything that
    it inherits, or its own. -/
def Rule.restyle (styles : Styleset) (r : Rule) : Rule :=
  match r.merged with
  | some _ => { r with merged := some styles }
  | none => { r with content := r.content.mapBody fun body => { body with styleset := styles } }

/-- Entries are left out of the styleset that is written. -/
theorem Rule.Omits.restyle {r : Rule} {t u : Styleset} (h : r.styleset? = some t)
    (htu : t.Omits s units u) : r.Omits s units (r.restyle u) := by
  obtain ⟨content, explicitName, slot, cell, merged⟩ := r
  cases merged with
  | some own =>
    cases h
    exact ⟨.refl _, rfl, rfl, .some htu⟩
  | none =>
    have hbody : ∀ body : StyleBody, some body.styleset = some t →
        Option.Rel (Styleset.Omits s units) (some body.styleset) (some u) := fun body hbody => by
      cases hbody
      exact .some htu
    cases content with
    | cls body => exact ⟨.cls, rfl, rfl, hbody body h⟩
    | id body => exact ⟨.id, rfl, rfl, hbody body h⟩
    | tag _ body => exact ⟨.tag, rfl, rfl, hbody body h⟩
    | selector _ body => exact ⟨.selector, rfl, rfl, hbody body h⟩
    | page _ body => exact ⟨.page, rfl, rfl, hbody body h⟩
    | _ => cases h

/-- Entries are left out of one scope, and everything else is as it was. -/
theorem Engine.Omits.modifyScope {e : Engine} {j : ScopeId} {t : Scope} {rules : List Rule}
    (ht : e.scope? j = some t) (h : Trimmed (Rule.Unwritten e.setting units)
      (Rule.Omits e.setting units) t.rules rules) :
    e.Omits units (e.modifyScope j fun t => { t with rules }) where
  setting := by
    unfold Engine.modifyScope
    rw [ht]
    rfl
  supports := by
    unfold Engine.modifyScope
    rw [ht]
  scopes k := by
    rw [Engine.scope?_modifyScope]
    -- The scope has fewer rules now, and all others have those that they had.
    split
    · next heq =>
      rw [heq, ht]
      exact .some h
    · cases e.scope? k with
      | none => exact .none
      | some u => exact .some (.refl (fun rule => .refl rule) _)

/-! ### Values -/

/-- Only the same places count as alike here. -/
theorem constant_strict : (Likeness.constant units).Strict := fun _ _ h => h

/-- And only sources that always answer the same. -/
theorem constant_steady : (Likeness.constant units).Steady := fun _ h => h

/-! ### Texts -/

/-- A value has the same text every time. -/
theorem Value.Alike.convert_agree {recipe : Recipe} {v : Value} (h : v.Alike (.constant units) v) :
    Convert.Agree (.constant units) (convert s recipe v) (convert s recipe v) :=
  Conversion.run_agree (.of_strict constant_strict s) []
    (Recipe.blind_of_strict constant_strict recipe) h

/-- A value that cannot be converted once can never be. -/
theorem Setting.Fails.silent {recipe : Recipe} {v : Value} (h : s.Fails units recipe v)
    (hself : v.Alike (.constant units) v) :
    ∃ err, Convert.Silent (.constant units) (Convert.attempt (convert s recipe v))
    (.error err) := by
  obtain ⟨a, err, ha, herr⟩ := h
  exact ⟨err, .attempt constant_steady hself.convert_agree ha herr⟩

namespace Styleset

/-- Custom properties without text can be left out. -/
theorem customTexts_omits {cs ds : List CustomProperty}
    (h : Trimmed (fun p => s.Fails units (s.catalog.templateRecipe p.template) p.value) Eq cs ds)
    (hself : List.Forall₂ (CustomProperty.Alike (.constant units)) cs cs) :
    Convert.Agree (.constant units) (customTexts s cs) (customTexts s ds) := by
  have hs : s.Alike (.constant units) s := .of_strict constant_strict s
  induction h with
  | nil => exact .pure _
  | @keep p q _ _ h _ ih =>
    obtain ⟨hp, hrest⟩ := List.forall₂_cons.mp hself
    exact .bind (h ▸ customText_agree hs hp) fun _ => .map (ih hrest) _
  | @drop p _ _ hfails _ ih =>
    obtain ⟨hp, hrest⟩ := List.forall₂_cons.mp hself
    have hsilent : Convert.Silent (.constant units) (customText s p) "" := by
      obtain ⟨err, hvalue⟩ := hfails.silent hp.value
      unfold customText
      split
      · exact .bind (.report _) (.pure _)
      · exact hvalue.bind (.bind (.report _) (.pure _))
    exact hsilent.agree ((ih hrest).map_left fun _ => String.empty_append)

/-- Properties without text can be left out. -/
theorem propertyTexts_omits {ps qs : List (String × Declaration)}
    (h : Trimmed (fun p => s.Fails units (s.catalog.propertyRecipe p.1) p.2.value) Eq ps qs)
    (hself : List.Forall₂ (Prod.RProd Eq (Declaration.Alike (.constant units))) ps ps) :
    Convert.Agree (.constant units) (propertyTexts s ps) (propertyTexts s qs) := by
  have hs : s.Alike (.constant units) s := .of_strict constant_strict s
  induction h with
  | nil => exact .pure _
  | @keep p q _ _ h _ ih =>
    obtain ⟨⟨_, hp⟩, hrest⟩ := List.forall₂_cons.mp hself
    exact .bind (h ▸ propertyText_agree hs _ hp) fun _ => .map (ih hrest) _
  | @drop p _ _ hfails _ ih =>
    obtain ⟨name, d⟩ := p
    obtain ⟨⟨_, hp⟩, hrest⟩ := List.forall₂_cons.mp hself
    have hsilent : Convert.Silent (.constant units) (propertyText s name d) "" := by
      obtain ⟨err, hvalue⟩ := hfails.silent hp.value
      exact hvalue.bind (.bind (.report _) (.pure _))
    exact hsilent.agree ((ih hrest).map_left fun _ => String.empty_append)

/-- The declarations read the same. -/
theorem declarations_omits {t u : Styleset} (h : t.Omits s units u)
    (hself : t.Alike (.constant units) t) :
    Convert.Agree (.constant units) (declarations s t) (declarations s u) := by
  obtain ⟨properties, custom, -⟩ := h
  obtain ⟨hproperties, hcustom, -⟩ := hself
  exact .bind (customTexts_omits custom hcustom) fun _ =>
    .map (propertyTexts_omits properties hproperties) _

mutual

/-- **A styleset reads the same without entries that have no text.** -/
theorem rules_omits (selector : String) : ∀ {t u : Styleset}, t.Omits s units u →
    t.Alike (.constant units) t →
    Convert.Agree (.constant units) (rules s selector t) (rules s selector u)
  | _, _, .of properties custom dependents, .of hproperties hcustom hdependents => by
    rw [rules, rules]
    exact .bind (declarations_omits (.of properties custom .nil) (.of hproperties hcustom .nil))
      fun _ => .map (dependentRules_omits selector dependents hdependents) _

theorem dependentRules_omits (owner : String) : ∀ {ts us : List (Selector × Styleset)},
    List.Forall₂ (Prod.RProd Eq (Styleset.Omits s units)) ts us →
    List.Forall₂ (Prod.RProd (Selector.Alike (.constant units)) (Styleset.Alike (.constant units)))
      ts ts →
    Convert.Agree (.constant units) (dependentRules s owner ts) (dependentRules s owner us)
  | _, _, .nil, _ => by
    rw [dependentRules]
    exact .pure _
  | _, _, .cons (.intro hselector h) hrest, .cons (.intro _ hself) hselves => by
    cases hselector
    rw [dependentRules, dependentRules]
    exact .bind (.ofExcept rfl) fun text => .bind (rules_omits text h hself) fun _ =>
      .map (dependentRules_omits owner hrest hselves) _

end

end Styleset

namespace Rule

variable {r r' : Rule}

/-- The rule keeps its name. -/
theorem Omits.requireName (h : r.Omits s units r') :
    r'.requireName s.names = r.requireName s.names := by
  unfold Rule.requireName Rule.name?
  rw [h.cell, h.slot]

/-- **A rule reads the same without entries that have no text.** -/
theorem css_omits (h : r.Omits s units r') (hself : r.Shows (.constant units) r) :
    Convert.Agree (.constant units) (r.css s) (r'.css s) := by
  -- The name of the rule and the selector are kept. What is left out is in its stylesets or frames.
  have hname := h.requireName
  have hstyled : r'.selectorText? s.names = r.selectorText? s.names →
      Convert.Agree (.constant units)
        (Convert.ofExcept (r.selectorText? s.names) >>= fun selector =>
          styledText s selector r.styleset?)
        (Convert.ofExcept (r'.selectorText? s.names) >>= fun selector =>
          styledText s selector r'.styleset?) := fun hselector => by
    rw [hselector]
    have hstyleset := h.styleset
    have hstyles := hself.styleset
    generalize r.styleset? = t, r'.styleset? = u at hstyleset hstyles
    refine .bind (.ofExcept rfl) fun selector => ?_
    cases hstyleset with
    | none => cases selector <;> exact .pure _
    | some h =>
      cases hstyles with
      | some hstyles =>
        cases selector with
        | none => exact .pure _
        | some text => exact Styleset.rules_omits text h hstyles
  -- Frames are written one after the other, each like a styleset.
  have hframes : ∀ {frames frames' : List Keyframe},
      List.Forall₂ (Keyframe.Omits s units) frames frames' →
      List.Forall₂ (Keyframe.Alike (.constant units)) frames frames →
      Convert.Agree (.constant units) (framesText s frames) (framesText s frames') := by
    intro frames frames' h hself
    induction h with
    | nil => exact .pure _
    | cons h _ ih =>
      obtain ⟨hframe, hrest⟩ := List.forall₂_cons.mp hself
      rw [framesText, framesText, h.waypoint]
      exact .bind (Styleset.declarations_omits h.styleset hframe.styleset) fun _ =>
        .map (ih hrest) _
  obtain ⟨content, explicitName, slot, cell, merged⟩ := r
  obtain ⟨content', explicitName', slot', cell', merged'⟩ := r'
  -- The content is of the same kind, and only an animation has frames.
  have hcontent : content.Omits s units content' := h.content
  cases hcontent with
  | animation hframes' =>
    cases hself.content with
    | animation hself =>
      exact .bind (.ofExcept hname.symm) fun name => .map (hframes hframes' hself) _
  | cls => exact hstyled (congrArg (Except.map _) hname)
  | id => exact hstyled (congrArg (Except.map _) hname)
  | selector => exact hstyled rfl
  | tag => exact hstyled rfl
  | @page pseudo a b => cases pseudo <;> exact hstyled rfl
  | var => exact hstyled rfl
  | counter => exact hstyled rfl
  | group => exact hstyled rfl

end Rule

namespace Engine

variable {e e' : Engine} {k j : ScopeId}

/-- Custom properties without text can be left out, if they have names. -/
theorem rootDeclarations_omits {rules rules' : List Rule}
    (h : Trimmed (Rule.Unwritten s units) (Rule.Omits s units) rules rules')
    (hself : List.Forall₂ (Rule.Shows (.constant units)) rules rules) :
    Convert.Agree (.constant units) (rootDeclarations s rules) (rootDeclarations s rules') := by
  induction h with
  | nil => exact .pure _
  | @keep r r' _ _ h _ ih =>
    obtain ⟨hr, hrest⟩ := List.forall₂_cons.mp hself
    have hname := h.requireName
    obtain ⟨content, explicitName, slot, cell, merged⟩ := r
    obtain ⟨content', explicitName', slot', cell', merged'⟩ := r'
    have hcontent : content.Omits s units content' := h.content
    rw [rootDeclarations, rootDeclarations]
    -- A variable is written by an attempt, so its text and its failure are reported in the same
    -- way.
    cases hcontent with
    | @var template v =>
      cases hr.content with
      | var hv =>
        refine .bind (.ofExcept hname.symm) fun name =>
          .bind (.attempt hv.convert_agree) fun result => ?_
        cases result with
        | ok text => exact .map (ih hrest) _
        | error err => exact .bind (.report _) fun _ => .map (ih hrest) _
    | _ => exact .map (ih hrest) _
  | @drop r _ _ hunwritten _ ih =>
    -- The rule is left out: its value cannot be written, and the report about it is no text.
    obtain ⟨hr, hrest⟩ := List.forall₂_cons.mp hself
    obtain ⟨template, value, name, hcontent, hname, hfails⟩ := hunwritten
    have hself : (RuleContent.var template value).Shows (.constant units) (.var template value) :=
      hcontent ▸ hr.content
    cases hself with
    | var hv =>
      obtain ⟨err, hvalue⟩ := hfails.silent hv
      rw [rootDeclarations, hcontent]
      exact (Convert.Silent.ofExcept hname).agree <| hvalue.agree <|
        (Convert.Silent.report _).agree <| (ih hrest).map_left fun _ => String.empty_append

/-- Rules read the same without entries that have no text, if what is nested in them does. -/
theorem ruleTexts_omits (h : e.Omits units e') {nested nested' : ScopeId → Convert (List String)}
    {rules rules' : List Rule} (hrules : Trimmed (Rule.Unwritten e.setting units)
      (Rule.Omits e.setting units) rules rules')
    (hself : List.Forall₂ (Rule.Shows (.constant units)) rules rules)
    (hnested : ∀ rule ∈ rules, ∀ condition j, rule.content = .group condition j →
      Convert.Agree (.constant units) (nested j) (nested' j)) :
    Convert.Agree (.constant units) (ruleTexts e nested rules) (ruleTexts e' nested' rules') := by
  induction hrules with
  | nil => exact .pure _
  | @keep r r' _ _ hr _ ih =>
    obtain ⟨hshows, hrest⟩ := List.forall₂_cons.mp hself
    have hrest := ih hrest fun rule hrule => hnested rule (List.mem_cons_of_mem _ hrule)
    have hcss : Convert.Agree (.constant units) (r.css e.setting) (r'.css e'.setting) :=
      h.setting ▸ Rule.css_omits hr hshows
    have hgroup := hnested r List.mem_cons_self
    obtain ⟨content, explicitName, slot, cell, merged⟩ := r
    obtain ⟨content', explicitName', slot', cell', merged'⟩ := r'
    have hcontent : content.Omits e.setting units content' := hr.content
    rw [ruleTexts, ruleTexts]
    -- The rule stays. Variables and counters are no texts here, and only a group asks for what is
    -- nested.
    cases hcontent with
    | var => exact .map hrest _
    | counter => exact .map hrest _
    | @group condition j =>
      have htexts := groupTexts_agree (G := fun _ => False) h.supports
        (.of_agree (hgroup condition j rfl)) condition
      exact .bind (htexts.agree fun _ h => h) fun _ => .map hrest _
    | _ => exact .bind hcss fun _ => .map hrest _
  | @drop r _ _ hunwritten _ ih =>
    obtain ⟨-, hrest⟩ := List.forall₂_cons.mp hself
    have hrest := ih hrest fun rule hrule => hnested rule (List.mem_cons_of_mem _ hrule)
    -- A variable that is left out has no text among the rules, as it has none when it stays.
    obtain ⟨template, value, -, hcontent, -⟩ := hunwritten
    rw [ruleTexts, hcontent]
    exact hrest.map_left List.nil_append

/-- Scopes read the same without entries that have no text. -/
theorem serializeWithin_omits (h : e.Omits units e')
    (hconst : e.ConstantTexts k units) (limit : Nat)
    (hj : e.Shown k j) :
    Convert.Agree (.constant units) (e.serializeWithin limit j) (e'.serializeWithin limit j) := by
  induction limit generalizing j with
  | zero => exact .throw _
  | succ limit ih =>
    have hscope := h.scopes j
    rw [serializeWithin, serializeWithin]
    rcases hs : e.scope? j with _ | t <;> rcases hs' : e'.scope? j with _ | u <;>
      rw [hs, hs'] at hscope <;> cases hscope
    · exact .throw _
    · next hrules =>
      have hself := List.forall₂_same.mpr (hconst j t hj hs)
      refine .bind (h.setting ▸ rootDeclarations_omits hrules hself) fun _ =>
        .map (ruleTexts_omits h hrules hself ?_) _
      exact fun rule hrule condition i hcontent =>
        ih (hj.tail ⟨t, hs, rule, hrule, condition, hcontent⟩)

/-- **Entries whose values cannot be converted make no difference.** The text of a scope, or the
    error, is the one without any of them, if sources answer the same every time: properties and
    custom properties, of rules with all that they inherit, of their dependents at any depth and of
    frames, and custom properties of the scope that have names, in the scope
    itself or nested in it. -/
theorem serialize_omits (h : e.Omits units e') (hconst : e.ConstantTexts k units) {a : Ambient}
    (ha : a.units = units) : (e'.serialize k a).1 = (e.serialize k a).1 := by
  let limit := max e.walkLimit e'.walkLimit
  calc (e'.serialize k a).1
    _ = (e'.serializeWithin limit k a).1 := (serializeWithin_limit (Nat.le_max_right _ _) k a).symm
    _ = (e.serializeWithin limit k a).1 :=
      (serializeWithin_omits h hconst limit .refl a a (constant_steady.matches ha ha)).1.symm
    _ = (e.serialize k a).1 := serializeWithin_limit (Nat.le_max_left _ _) k a

end Engine

/-! ### Samples -/

open Engine

/-- A record, which only some properties are written with. -/
def faultyValue : Value := .record [("x", .bool true)]

/-- Nothing is asked for its text. -/
theorem faultyValue_alike : faultyValue.Alike (.constant units) faultyValue :=
  .record (.cons ⟨rfl, .bool⟩ .nil)

/-- It cannot be written where nothing is known of it. -/
theorem faultyValue_fails (s : Setting) : s.Fails units .plain faultyValue := by
  refine ⟨⟨units, [], []⟩, .unsupportedValue faultyValue.kind "record conversion", rfl, ?_⟩
  unfold convert faultyValue
  rw [Conversion.run, Conversion.shaped]
  rfl

/-- What depends on the sample rule. -/
def hover : Selector := ⟨[.text ":hover"]⟩

/-- A library of a definition whose group has a custom property and a dependent with such values,
    and one of a custom property without a slot. -/
def faultyLibrary : Library Unit
  | 0 => ⟨0, "Card", "card", false, .group (.media "print")
      (.add "gap" (.var none faultyValue) fun _ =>
        .add "body" (.cls ⟨[], [], [(hover, ⟨[("width", ⟨faultyValue, false⟩)], [], []⟩)]⟩) fun _ =>
          .add "spin" (.animation []) fun _ => .done)
      fun _ => .done⟩
  | key => ⟨key, "Plain", "plain", false, .addUnnamed (.var none faultyValue) fun _ => .done⟩

/-- The rules of the card's group without the custom property and the property of the dependent. -/
def faultlessRules : List Rule → List Rule
  | [_, body, spin] => [body.restyle ⟨[], [], [(hover, .empty)]⟩, spin]
  | rules => rules

/-- What the rules of the card's group are, once it is processed. -/
def faultyRules : List Rule → Bool
  | [⟨.var none (.record [("x", .bool true)]), _, _, some _, none⟩,
      ⟨.cls _, _, _, some _, some ⟨[], [],
        [(⟨[.text ":hover"]⟩, ⟨[("width", ⟨.record [("x", .bool true)], _⟩)], [], []⟩)]⟩⟩,
      ⟨.animation [], _, _, some _, none⟩] => true
  | _ => false

/-- What the rules of the card itself are. -/
def cardRules : List Rule → Bool
  | [⟨.group _ 2, _, _, some _, none⟩] => true
  | _ => false

/-- What the rules of the other definition are. -/
def plainRules : List Rule → Bool
  | [⟨.var none (.record [("x", .bool true)]), _, _, some _, none⟩] => true
  | _ => false

theorem faultyRules_eq {rules : List Rule} (h : faultyRules rules = true) :
    ∃ gap body spin important, rules = [gap, body, spin] ∧ gap.content = .var none faultyValue ∧
      body.styleset? = some ⟨[], [], [(hover, ⟨[("width", ⟨faultyValue, important⟩)], [], []⟩)]⟩ ∧
      ∀ rule ∈ rules, rule.Shows (.constant units) rule ∧
        ∀ condition j, rule.content ≠ .group condition j := by
  unfold faultyRules at h
  split at h
  · refine ⟨_, _, _, _, rfl, rfl, rfl, fun rule hrule => ?_⟩
    rcases List.mem_cons.mp hrule with rfl | hrule
    · exact ⟨⟨.var faultyValue_alike, rfl, .some rfl, .none⟩, fun _ _ => nofun⟩
    · rcases List.mem_pair.mp hrule with rfl | rfl
      · exact ⟨⟨.cls, rfl, .some rfl, .some (.of .nil .nil (.cons ⟨.cons .text .nil,
          .of (.cons ⟨rfl, faultyValue_alike, rfl⟩ .nil) .nil .nil⟩ .nil))⟩, fun _ _ => nofun⟩
      · exact ⟨⟨.animation .nil, rfl, .some rfl, .none⟩, fun _ _ => nofun⟩
  · cases h

/-- The card reads the same without the custom property and the property of the dependent. -/
theorem serialize_omits_of_card : ∃ s t gap rest e',
    process faultyLibrary 2 0 (create {} .empty .initial, ()) = some (.ok 1, s) ∧
      s.1.scope? 2 = some t ∧ t.rules = gap :: rest ∧ gap.Unwritten s.1.setting [] ∧
      e' = s.1.modifyScope 2 (fun t => { t with rules := faultlessRules t.rules }) ∧
      s.1.Omits [] e' ∧ s.1.ConstantTexts 1 [] ∧
      (e'.serialize 1 .initial).1.toOption =
      some ["@media print\x7b@keyframes card_spin\x7b\x7d\x7d"] ∧
      (e'.serialize 1 .initial).1 = (s.1.serialize 1 .initial).1 := by
  have hout : ((process faultyLibrary 2 0 (create {} .empty .initial, ())).any fun out =>
      out.1.toOption = some 1 && ((out.2.1.scope? 1).any fun t => cardRules t.rules) &&
      ((out.2.1.scope? 2).any fun t => faultyRules t.rules &&
        (t.rules[0]?).any fun r => (r.requireName out.2.1.names).toOption.isSome) &&
      out.2.1.catalog.properties.isEmpty &&
      ((out.2.1.modifyScope 2 fun t => { t with rules := faultlessRules t.rules }).serialize 1
        .initial).1.toOption = some ["@media print\x7b@keyframes card_spin\x7b\x7d\x7d"]) = true :=
        by
    decide +kernel
  -- The run is decided; what is left to show is that the two scopes are those of the general
  -- theorem.
  obtain ⟨⟨result, e, memory⟩, hprocess, hp⟩ := (Option.any_eq_true _ _).mp hout
  simp only [Bool.and_eq_true, decide_eq_true_eq] at hp
  obtain ⟨⟨⟨⟨hresult, hroot⟩, hnested⟩, hcatalog⟩, htext⟩ := hp
  cases eq_ok_of_toOption hresult
  obtain ⟨t, ht, hroot⟩ := (Option.any_eq_true _ _).mp hroot
  obtain ⟨u, hu, hnested⟩ := (Option.any_eq_true _ _).mp hnested
  obtain ⟨hrules, hname⟩ := Bool.and_eq_true_iff.mp hnested
  obtain ⟨gap, body, spin, important, heq, hgap, hbody, hself⟩ := faultyRules_eq hrules
  rw [heq] at hname
  obtain ⟨name, hname⟩ := Option.isSome_iff_exists.mp hname
  have hunwritten : gap.Unwritten e.setting [] :=
    ⟨none, faultyValue, name, hgap, eq_ok_of_toOption hname, faultyValue_fails _⟩
  have hwidth : e.setting.Fails [] (e.catalog.propertyRecipe "width") faultyValue := by
    unfold Catalog.propertyRecipe Catalog.propertyKind
    rw [List.isEmpty_iff.mp hcatalog]
    exact faultyValue_fails _
  -- The variable goes, and so does the width of the dependent.
  have htrimmed : Trimmed (Rule.Unwritten e.setting []) (Rule.Omits e.setting []) u.rules
      (faultlessRules u.rules) := by
    rw [heq]
    exact .drop hunwritten (.keep (.restyle hbody (.of .nil .nil
      (.cons ⟨rfl, .of (.drop hwidth .nil) .nil .nil⟩ .nil))) (.keep (.refl spin) .nil))
  have homits : e.Omits [] (e.modifyScope 2 fun t => { t with rules := faultlessRules t.rules }) :=
    by
    have h := Omits.modifyScope hu htrimmed
    unfold modifyScope at h ⊢
    rw [hu] at h ⊢
    exact h
  obtain ⟨condition, key, slot, cell, hgroup⟩ : ∃ condition key slot cell,
      t.rules = [⟨.group condition 2, key, slot, some cell, none⟩] := by
    unfold cardRules at hroot
    split at hroot
    · next h => exact ⟨_, _, _, _, h⟩
    · cases hroot
  -- No scope is shown but the card's and that of its group.
  have hreach : ∀ j, e.Shown 1 j → j = 1 ∨ j = 2 := fun j hj => by
    induction hj with
    | refl => exact .inl rfl
    | tail _ hg ih =>
      obtain ⟨v, hv, rule, hrule, _, hcontent⟩ := hg
      rcases ih with rfl | rfl
      · rw [ht] at hv
        cases hv
        rw [hgroup] at hrule
        cases List.mem_singleton.mp hrule
        cases hcontent
        exact .inr rfl
      · rw [hu] at hv
        cases hv
        exact absurd hcontent ((hself rule hrule).2 _ _)
  have hconst : e.ConstantTexts 1 [] := fun j v hshown hv rule hrule => by
    rcases hreach j hshown with rfl | rfl
    · rw [ht] at hv
      cases hv
      rw [hgroup] at hrule
      cases List.mem_singleton.mp hrule
      exact ⟨.group rfl, rfl, .some rfl, .none⟩
    · rw [hu] at hv
      cases hv
      exact (hself rule hrule).1
  exact ⟨_, u, gap, _, _, hprocess, hu, heq, hunwritten, rfl, homits, hconst, htext,
    serialize_omits homits hconst rfl⟩

/-- **A custom property that has no name is not left out:** there is no text of the scope, though
    there is one without it. -/
theorem unnamed_property_counts : ∃ s t r,
    process faultyLibrary 2 1 (create {} .empty .initial, ()) = some (.ok 1, s) ∧
      s.1.scope? 1 = some t ∧ t.rules = [r] ∧ r.content = .var none faultyValue ∧
      s.1.setting.Fails [] (s.1.catalog.templateRecipe none) faultyValue ∧ s.1.ConstantTexts 1 [] ∧
      (s.1.serialize 1 .initial).1 = .error (.unassignedName "") ∧
      ((s.1.modifyScope 1 fun t => { t with rules := [] }).serialize 1 .initial).1.toOption =
        some [] := by
  have hout : ((process faultyLibrary 2 1 (create {} .empty .initial, ())).any fun out =>
      out.1.toOption = some 1 && ((out.2.1.scope? 1).any fun t => plainRules t.rules) &&
      (out.2.1.serialize 1 .initial).1 = .error (.unassignedName "") &&
      ((out.2.1.modifyScope 1 fun t => { t with rules := [] }).serialize 1 .initial).1.toOption =
        some []) = true := by
    decide +kernel
  -- The run decides both texts. It is left to show that the rule is a constant one without a name.
  obtain ⟨⟨result, e, memory⟩, hprocess, hp⟩ := (Option.any_eq_true _ _).mp hout
  simp only [Bool.and_eq_true, decide_eq_true_eq] at hp
  obtain ⟨⟨⟨hresult, hroot⟩, herr⟩, htext⟩ := hp
  cases eq_ok_of_toOption hresult
  obtain ⟨t, ht, hroot⟩ := (Option.any_eq_true _ _).mp hroot
  unfold plainRules at hroot
  split at hroot
  · next hrules =>
    have hself : ∀ rule ∈ t.rules, rule.content = .var none faultyValue ∧
        rule.Shows (.constant []) rule := fun rule hrule => by
      rw [hrules] at hrule
      cases List.mem_singleton.mp hrule
      exact ⟨rfl, .var faultyValue_alike, rfl, .some rfl, .none⟩
    have hreach : ∀ j, e.Shown 1 j → j = 1 := fun j hj => by
      induction hj with
      | refl => rfl
      | tail _ hg ih =>
        obtain ⟨v, hv, rule, hrule, _, hcontent⟩ := hg
        rw [ih, ht] at hv
        cases hv
        rw [(hself rule hrule).1] at hcontent
        cases hcontent
    have hconst : e.ConstantTexts 1 [] := fun j v hshown hv rule hrule => by
      rw [hreach j hshown, ht] at hv
      cases hv
      exact (hself rule hrule).2
    exact ⟨_, t, _, hprocess, ht, hrules, rfl, faultyValue_fails _, hconst, herr, htext⟩
  · cases hroot

end StyleBook
