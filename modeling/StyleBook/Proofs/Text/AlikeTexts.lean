import StyleBook.Engine.Serialize
import StyleBook.Proofs.Text.AlikeConversions

namespace StyleBook

/-!
# Alike rules have the same text

What holds of values holds of all that is written of them, up to the texts of scopes.

* `Styleset.rules_agree`, `Rule.css_agree` — alike stylesets and rules have the same text;
* `Engine.AlikeScopes` — corresponding scopes have alike rules, under settings that write them the
  same;
* `Engine.serializeWithin_agree` — corresponding scopes have the same text.
-/

variable {L : Likeness} {s s' : Setting}

/-! ### Conversions that may give up -/

namespace Convert

variable {α β : Type} {G : Error → Prop}

/-- Both have the same result, unless the first one gives up with an error in `G`. -/
def AgreeOr (L : Likeness) (G : Error → Prop) (c c' : Convert α) : Prop :=
  ∀ a a', a.Matches L a' → (∃ err, G err ∧ (c a).1 = .error err) ∨
    (c a).1 = (c' a').1 ∧ (c a).2.Matches L (c' a').2

namespace AgreeOr

/-- Conversions that agree do so whatever errors are set aside. -/
theorem of_agree {c c' : Convert α} (h : Agree L c c') : AgreeOr L G c c' :=
  fun a a' hm => .inr (h a a' hm)

/-- If it never gives up, both have the same result. -/
theorem agree {c c' : Convert α} (h : AgreeOr L G c c') (hG : ∀ err, ¬ G err) : Agree L c c' :=
  fun a a' hm => (h a a' hm).resolve_left fun ⟨err, hgive, _⟩ => hG err hgive

/-- One conversion after the other. -/
theorem bind {c c' : Convert α} {f f' : α → Convert β} (hc : AgreeOr L G c c')
    (hf : ∀ x, AgreeOr L G (f x) (f' x)) : AgreeOr L G (c >>= f) (c' >>= f') := fun a a' h => by
  rw [stateful_bind, stateful_bind]
  rcases hc a a' h with ⟨err, hG, herr⟩ | ⟨hresult, hambient⟩
  · rcases hrun : c a with ⟨r, b⟩
    rw [hrun] at herr
    cases herr
    exact .inl ⟨err, hG, rfl⟩
  · rcases hrun : c a with ⟨err | x, b⟩ <;> rcases hrun' : c' a' with ⟨err' | x', b'⟩ <;>
      rw [hrun, hrun'] at hresult hambient <;> cases hresult
    · exact .inr ⟨rfl, hambient⟩
    · exact hf x b b' hambient

/-- The result of a conversion changed. -/
theorem map {c c' : Convert α} (hc : AgreeOr L G c c') (f : α → β) :
    AgreeOr L G (do return f (← c)) (do return f (← c')) :=
  bind hc fun x => of_agree (.pure (f x))

end AgreeOr

end Convert

/-! ### Selectors -/

/-- Alike selectors are written the same. -/
theorem Selector.Alike.render {t u : Selector} (h : t.Alike L u) (hs : s.Alike L s') :
    t.render s.names = u.render s'.names := by
  obtain ⟨tokens⟩ := t
  obtain ⟨tokens'⟩ := u
  replace h : List.Forall₂ (SelectorToken.Alike L) tokens tokens' := h
  unfold Selector.render
  simp only
  induction h with
  | nil => rfl
  | cons h _ ih =>
    cases h with
    | text => rw [renderTokens, renderTokens, ih]
    | name h => rw [renderTokens, renderTokens, h.render fun _ _ => hs.names, ih]

/-! ### Stylesets -/

namespace Styleset

/-- Alike custom properties have the same text. -/
theorem customText_agree (hs : s.Alike L s') {p q : CustomProperty} (h : p.Alike L q) :
    Convert.Agree L (customText s p) (customText s' q) := by
  unfold customText
  rw [h.name.render fun _ _ => hs.names, ← hs.catalog, h.template]
  cases q.name.render s'.names with
  | error err => exact .bind (.report _) fun _ => .pure _
  | ok name =>
    have hvalue := Conversion.run_agree hs []
      (s.catalog.templateRecipe_blind q.template) h.value
    refine .bind (.attempt hvalue) fun result => ?_
    cases result with
    | ok text => exact .pure _
    | error err => exact .bind (.report _) fun _ => .pure _

/-- So have alike declarations. -/
theorem propertyText_agree (hs : s.Alike L s') (name : String) {p q : Declaration}
    (h : p.Alike L q) :
    Convert.Agree L (propertyText s name p) (propertyText s' name q) := by
  unfold propertyText Setting.property
  rw [← hs.catalog, h.important]
  have hvalue := Conversion.run_agree hs [] (s.catalog.propertyRecipe_blind name) h.value
  refine .bind (.attempt hvalue) fun result => ?_
  cases result with
  | ok text => exact .pure _
  | error err => exact .bind (.report _) fun _ => .pure _

theorem customTexts_agree (hs : s.Alike L s') {ps qs : List CustomProperty}
    (h : List.Forall₂ (CustomProperty.Alike L) ps qs) :
    Convert.Agree L (customTexts s ps) (customTexts s' qs) := by
  induction h with
  | nil => exact .pure _
  | cons h _ ih => exact .bind (customText_agree hs h) fun _ => .map ih _

theorem propertyTexts_agree (hs : s.Alike L s') {ps qs : List (String × Declaration)}
    (h : List.Forall₂ (Prod.RProd Eq (Declaration.Alike L)) ps qs) :
    Convert.Agree L (propertyTexts s ps) (propertyTexts s' qs) := by
  induction h with
  | nil => exact .pure _
  | @cons p q _ _ h _ ih =>
    obtain ⟨hname, h⟩ := h
    cases hname
    exact .bind (propertyText_agree hs _ h) fun _ => .map ih _

/-- The declarations of alike stylesets read the same. -/
theorem declarations_agree (hs : s.Alike L s') {t u : Styleset} (h : t.Alike L u) :
    Convert.Agree L (declarations s t) (declarations s' u) := by
  obtain ⟨properties, custom, -⟩ := h
  exact .bind (customTexts_agree hs custom) fun _ => .map (propertyTexts_agree hs properties) _

mutual

/-- **Alike stylesets read the same under a selector.** -/
theorem rules_agree (hs : s.Alike L s') (selector : String) : ∀ {t u : Styleset}, t.Alike L u →
    Convert.Agree L (rules s selector t) (rules s' selector u)
  | _, _, .of properties custom dependents => by
    rw [rules, rules]
    exact .bind (declarations_agree hs (.of properties custom .nil)) fun _ =>
      .map (dependentRules_agree hs selector dependents) _

/-- So do the stylesets that depend on an owner. -/
theorem dependentRules_agree (hs : s.Alike L s') (owner : String) :
    ∀ {ts us : List (Selector × Styleset)},
      List.Forall₂ (Prod.RProd (Selector.Alike L) (Styleset.Alike L)) ts us →
      Convert.Agree L (dependentRules s owner ts) (dependentRules s' owner us)
  | _, _, .nil => by
    rw [dependentRules, dependentRules]
    exact .pure _
  | _, _, .cons (.intro hselector hstyles) hrest => by
    rw [dependentRules, dependentRules]
    refine .bind (.ofExcept ?_) fun text => .bind (rules_agree hs text hstyles) fun _ =>
      .map (dependentRules_agree hs owner hrest) _
    unfold Selector.under
    rw [hselector.render hs]

end

end Styleset

/-! ### Rules -/

namespace Rule

variable {r r' : Rule}

/-- Both have the name, or both need it. -/
theorem Shows.requireName (h : r.Shows L r') (hs : s.Alike L s') :
    r.requireName s.names = r'.requireName s'.names := by
  have hname : r.name? s.names = r'.name? s'.names := by
    unfold Rule.name?
    have hcell := h.cell
    generalize r.cell = c, r'.cell = c' at hcell
    cases hcell with
    | none => rfl
    | some h => exact hs.names h
  unfold Rule.requireName
  rw [hname, h.slot]

/-- Alike frames have the same text. -/
theorem framesText_agree (hs : s.Alike L s') {frames frames' : List Keyframe}
    (h : List.Forall₂ (Keyframe.Alike L) frames frames') :
    Convert.Agree L (framesText s frames) (framesText s' frames') := by
  induction h with
  | nil => exact .pure _
  | cons h _ ih =>
    rw [framesText, framesText, h.waypoint]
    exact .bind (Styleset.declarations_agree hs h.styleset) fun _ => .map ih _

/-- What is read of a styleset under a selector, if there are both. -/
def styledText (setting : Setting) : Option String → Option Styleset → Convert (List String)
  | some selector, some styleset => styleset.rules setting selector
  | _, _ => return []

/-- **Alike rules read the same.** -/
theorem css_agree (hs : s.Alike L s') (h : r.Shows L r') :
    Convert.Agree L (r.css s) (r'.css s') := by
  have hname := h.requireName hs
  -- All styled rules are written in one way, once their selectors are known to be the same.
  have hstyled : r.selectorText? s.names = r'.selectorText? s'.names →
      Convert.Agree L
        (Convert.ofExcept (r.selectorText? s.names) >>= fun selector =>
          styledText s selector r.styleset?)
        (Convert.ofExcept (r'.selectorText? s'.names) >>= fun selector =>
          styledText s' selector r'.styleset?) := fun hselector => by
    rw [hselector]
    have hstyleset := h.styleset
    generalize r.styleset? = t, r'.styleset? = u at hstyleset
    refine .bind (.ofExcept rfl) fun selector => ?_
    cases hstyleset with
    | none => cases selector <;> exact .pure _
    | some hstyles =>
      cases selector with
      | none => exact .pure _
      | some text => exact Styleset.rules_agree hs text hstyles
  obtain ⟨content, explicitName, slot, cell, merged⟩ := r
  obtain ⟨content', explicitName', slot', cell', merged'⟩ := r'
  have hcontent : content.Shows L content' := h.content
  cases hcontent with
  | animation hframes =>
    exact .bind (.ofExcept hname) fun name => .map (framesText_agree hs hframes) _
  | cls => exact hstyled (congrArg (Except.map _) hname)
  | id => exact hstyled (congrArg (Except.map _) hname)
  | selector hselector => exact hstyled (congrArg (Except.map _) (hselector.render hs))
  | tag => exact hstyled rfl
  | @page pseudo a b => cases pseudo <;> exact hstyled rfl
  | var => exact hstyled rfl
  | counter => exact hstyled rfl
  | group => exact hstyled rfl

end Rule

/-! ### Scopes -/

namespace Engine

variable {e e' : Engine}

/-- **Corresponding scopes have alike rules,** and the engines write them the same. -/
structure AlikeScopes (L : Likeness) (e e' : Engine) : Prop where
  setting : e.setting.Alike L e'.setting
  supports : e.supports = e'.supports
  scopes {k j} : L.scopes k j →
    Option.Rel (fun s s' : Scope => List.Forall₂ (Rule.Shows L) s.rules s'.rules)
      (e.scope? k) (e'.scope? j)

/-- Declarations of variables have the same text in alike rules. -/
theorem rootDeclarations_agree {s s' : Setting} (hs : s.Alike L s') {rules rules' : List Rule}
    (h : List.Forall₂ (Rule.Shows L) rules rules') :
    Convert.Agree L (rootDeclarations s rules) (rootDeclarations s' rules') := by
  induction h with
  | nil => exact .pure _
  | @cons r r' _ _ h _ ih =>
    have hname := h.requireName hs
    obtain ⟨content, explicitName, slot, cell, merged⟩ := r
    obtain ⟨content', explicitName', slot', cell', merged'⟩ := r'
    have hcontent : content.Shows L content' := h.content
    rw [rootDeclarations, rootDeclarations, ← hs.catalog]
    cases hcontent with
    | @var template v w hvalue =>
      have hvalue := Conversion.run_agree hs [] (s.catalog.templateRecipe_blind template) hvalue
      refine .bind (.ofExcept hname) fun name => .bind (.attempt hvalue) fun result => ?_
      cases result with
      | ok text => exact .map ih _
      | error err => exact .bind (.report _) fun _ => .map ih _
    | _ => exact .map ih _

/-- Groups have the same text if what is nested in them has. -/
theorem groupTexts_agree {G : Error → Prop} (h : e.supports = e'.supports)
    {nested nested' : ScopeId → Convert (List String)} {k j : ScopeId}
    (hnested : Convert.AgreeOr L G (nested k) (nested' j)) (condition : GroupCondition) :
    Convert.AgreeOr L G (ruleTexts.groupTexts e nested condition k)
      (ruleTexts.groupTexts e' nested' condition j) := by
  have htext : Convert.AgreeOr L G (ruleTexts.groupText nested condition k)
      (ruleTexts.groupText nested' condition j) := hnested.map _
  cases condition with
  | media query => exact htext
  | supports query =>
    unfold ruleTexts.groupTexts
    simp only [h]
    split
    · exact htext
    · exact .of_agree (.bind (.report _) fun _ => .pure _)

/-- Alike rules have the same text if what is nested in their groups has. -/
theorem ruleTexts_agree {G : Error → Prop} (h : AlikeScopes L e e')
    {nested nested' : ScopeId → Convert (List String)}
    (hnested : ∀ {k j}, L.scopes k j → Convert.AgreeOr L G (nested k) (nested' j))
    {rules rules' : List Rule} (hrules : List.Forall₂ (Rule.Shows L) rules rules') :
    Convert.AgreeOr L G (ruleTexts e nested rules) (ruleTexts e' nested' rules') := by
  induction hrules with
  | nil => exact .of_agree (.pure _)
  | @cons r r' _ _ hr _ ih =>
    have hcss := Rule.css_agree h.setting hr
    obtain ⟨content, explicitName, slot, cell, merged⟩ := r
    obtain ⟨content', explicitName', slot', cell', merged'⟩ := r'
    have hcontent : content.Shows L content' := hr.content
    rw [ruleTexts, ruleTexts]
    cases hcontent with
    | var => exact ih.map _
    | counter => exact ih.map _
    | @group condition k j hkj =>
      exact .bind (groupTexts_agree h.supports (hnested hkj) condition) fun _ => ih.map _
    | _ => exact .bind (.of_agree hcss) fun _ => ih.map _

/-- **Corresponding scopes have the same text** if what is nested in them has. -/
theorem serializeWithin_succ {G : Error → Prop} (h : AlikeScopes L e e') {limit limit' : Nat}
    (hnested : ∀ {k j}, L.scopes k j →
      Convert.AgreeOr L G (e.serializeWithin limit k) (e'.serializeWithin limit' j))
    {k j : ScopeId} (hkj : L.scopes k j) :
    Convert.AgreeOr L G (e.serializeWithin (limit + 1) k) (e'.serializeWithin (limit' + 1) j) := by
  have hscope := h.scopes hkj
  rw [serializeWithin, serializeWithin]
  generalize e.scope? k = s, e'.scope? j = s' at hscope
  cases hscope with
  | none => exact .of_agree (.throw _)
  | some hrules =>
    exact .bind (.of_agree (rootDeclarations_agree h.setting hrules)) fun _ =>
      (ruleTexts_agree h hnested hrules).map _

/-- **Corresponding scopes have the same text.** -/
theorem serializeWithin_agree (h : AlikeScopes L e e') (limit : Nat) {k j : ScopeId}
    (hkj : L.scopes k j) :
    Convert.Agree L (e.serializeWithin limit k) (e'.serializeWithin limit j) := by
  have hall : ∀ {k j}, L.scopes k j → Convert.AgreeOr L (fun _ => False)
      (e.serializeWithin limit k) (e'.serializeWithin limit j) := by
    induction limit with
    | zero => exact fun _ => .of_agree (.throw _)
    | succ limit ih => exact fun hkj => serializeWithin_succ h ih hkj
  exact (hall hkj).agree fun _ h => h

end Engine

end StyleBook
