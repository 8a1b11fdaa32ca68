import StyleBook.Proofs.Order.Matching

namespace StyleBook

/-!
# Steps side by side

Two scripts that stand side by side take the same step. What they have declared still resembles each
other, and they get alike answers.

* `Engine.Alters` — a step that changes one scope;
* `Engine.Joint` — alike rules are declared in two scopes;
* `Engine.Abreast.addRule`, `Engine.Abreast.addUnnamedRule`, `Engine.Abreast.addNested`,
  … — the steps;
* `Engine.Abreast.leaves` — what is reached meanwhile leaves the scopes alone that are declared;
* `Engine.Abreast.opened` — a definition gets a scope on both sides.
-/

namespace Scope

variable {L : Likeness} {s t : Scope} {r r' : Rule}

namespace Kindred

/-- One more rule on both sides, under one slot. -/
theorem withNamed (h : s.Kindred L t) (slot : String) (hr : r.Resembles L r') :
    (s.withNamed slot r).Kindred L (t.withNamed slot r') where
  named := by
    show s.named.insert slot s.rules.length = t.named.insert slot t.rules.length
    rw [h.named, h.rules.length_eq]
  order := by
    show s.order ++ [s.rules.length] = t.order ++ [t.rules.length]
    rw [h.order, h.rules.length_eq]
  rules := List.rel_append h.rules (.cons hr .nil)
  owner := h.owner
  children := h.children

/-- One more rule on both sides, without a slot. -/
theorem withUnnamed (h : s.Kindred L t) (hr : r.Resembles L r') :
    (s.withUnnamed r).Kindred L (t.withUnnamed r') where
  named := h.named
  order := by
    show s.order ++ [s.rules.length] = t.order ++ [t.rules.length]
    rw [h.order, h.rules.length_eq]
  rules := List.rel_append h.rules (.cons hr .nil)
  owner := h.owner
  children := h.children

/-- Another rule on both sides. -/
theorem setRule (h : s.Kindred L t) (key : Nat) (hr : r.Resembles L r') :
    (s.setRule key r).Kindred L (t.setRule key r') where
  named := h.named
  order := h.order
  rules := forall₂_set h.rules key hr
  owner := h.owner
  children := h.children

/-- One more nested scope on both sides. -/
theorem withChild (h : s.Kindred L t) {c c' : ScopeId} (hc : L.scopes c c') :
    Kindred L { s with children := s.children ++ [c] }
    { t with children := t.children ++ [c'] } where
  named := h.named
  order := h.order
  rules := h.rules
  owner := h.owner
  children := List.rel_append h.children (.cons hc .nil)

end Kindred

/-- Changes of rules and of nested scopes keep resembling scopes so. -/
theorem Resembles.changed {s' t' : Scope} (h : s.Resembles L t) (hkin : s'.Kindred L t')
    (hs : s'.name = s.name ∧ s'.names = s.names ∧ s'.base = s.base)
    (ht : t'.name = t.name ∧ t'.names = t.names ∧ t'.base = t.base) : s'.Resembles L t' where
  toKindred := hkin
  name := by rw [hs.1, ht.1, h.name]
  names := by rw [hs.2.1, ht.2.1, h.names]
  base := by
    rw [hs.2.2, ht.2.2]
    exact h.base

end Scope

/-- The key of a slot is that of a rule. -/
theorem Scope.Indexed.lt_length {s : Scope} (h : s.Indexed) (hl : s.Listed)
    {slot : String} {key : Nat}
    (hslot : s.named.get? slot = some key) : key < s.rules.length :=
  hl.mem_order.mp (h.named.subset (List.mem_map_of_mem (f := Prod.snd) (Dict.mem_of_get? hslot)))

namespace Engine

variable {e e₁ f f₁ F G : Engine} {root root' b b' k j : ScopeId} {roots roots' : List ScopeId}
  {s s₁ t t₁ : Scope} {units : UnitTable} {slot : String} {rule rule' : Rule}
  {r r' : RuleRef} {key : Nat}

/-- **One scope is changed,** which stays where it is nested and as far as it was. -/
structure Alters (b : ScopeId) (s s₁ : Scope) (e e₁ : Engine) : Prop where
  old : e.scope? b = some s
  scope? (k : ScopeId) : e₁.scope? k = if k = b then some s₁ else e.scope? k
  owner : s₁.owner = s.owner
  state : s₁.state = s.state

namespace Alters

theorem modifyScope {g : Scope → Scope} (hs : e.scope? b = some s) (howner : (g s).owner = s.owner)
    (hstate : (g s).state = s.state) : Alters b s (g s) e (e.modifyScope b g) where
  old := hs
  scope? k := by rw [scope?_modifyScope, hs]; rfl
  owner := howner
  state := hstate

/-- A scope that is there is not changed. -/
protected theorem refl (hs : e.scope? b = some s) : Alters b s s e e where
  old := hs
  scope? k := by
    split
    · next hk => rw [hk, hs]
    · rfl
  owner := rfl
  state := rfl

/-- The rules of another engine with the same scopes. -/
theorem congr {e' e₁' : Engine} (h : Alters b s s₁ e e₁) (hscopes : e'.scopes = e.scopes)
    (hscopes₁ : e₁'.scopes = e₁.scopes) : Alters b s s₁ e' e₁' where
  old := by rw [Engine.scope?, hscopes]; exact h.old
  scope? k := by
    rw [Engine.scope?, Engine.scope?, hscopes, hscopes₁]
    exact h.scope? k
  owner := h.owner
  state := h.state

theorem new (h : Alters b s s₁ e e₁) : e₁.scope? b = some s₁ := by rw [h.scope?, if_pos rfl]

theorem other (h : Alters b s s₁ e e₁) (hk : k ≠ b) : e₁.scope? k = e.scope? k := by
  rw [h.scope?, if_neg hk]

/-- No scope is nested elsewhere. -/
theorem inside_iff (h : Alters b s s₁ e e₁) : e₁.Inside root k ↔ e.Inside root k := by
  refine ⟨fun hin => hin.of_owner fun {k u} hu => ?_, fun hin => hin.of_owner fun {k u} hu => ?_⟩
  · by_cases hk : k = b
    · subst hk
      cases h.new.symm.trans hu
      exact ⟨s, h.old, h.owner.symm⟩
    · exact ⟨u, (h.other hk).symm.trans hu, rfl⟩
  · by_cases hk : k = b
    · subst hk
      cases h.old.symm.trans hu
      exact ⟨s₁, h.new, h.owner⟩
    · exact ⟨u, (h.other hk).trans hu, rfl⟩

/-- No scope is processed. -/
theorem settles_back (h : Alters b s s₁ e e₁) (hk : e₁.Settles k) : e.Settles k := by
  obtain ⟨u, hu, hsettled⟩ := hk
  by_cases hkb : k = b
  · subst hkb
    cases h.new.symm.trans hu
    exact ⟨s, h.old, fun hstate => hsettled (h.state.trans hstate)⟩
  · exact ⟨u, (h.other hkb).symm.trans hu, hsettled⟩

end Alters

/-- **A scope is nested in another one,** and is at its start. -/
structure Nested (b : ScopeId) (s : Scope) (child : ScopeId) (e e₁ : Engine) : Prop where
  old : e.scope? b = some s
  outer : e₁.scope? b = some { s with children := s.children ++ [child] }
  inner : e₁.scope? child =
    some { name := s.name, definition := s.definition, multiplex := false, owner := some b }
  other {k : ScopeId} : k ≠ child → k ≠ b → e₁.scope? k = e.scope? k

/-- No scope is processed. -/
theorem Nested.settles_back {child : ScopeId} (h : Nested b s child e e₁) (hk : e₁.Settles k) :
    e.Settles k := by
  obtain ⟨u, hu, hsettled⟩ := hk
  by_cases hkc : k = child
  · subst hkc
    cases h.inner.symm.trans hu
    exact absurd rfl hsettled
  · by_cases hkb : k = b
    · subst hkb
      cases h.outer.symm.trans hu
      exact ⟨s, h.old, hsettled⟩
    · exact ⟨u, (h.other hkc hkb).symm.trans hu, hsettled⟩

theorem addNested_nested {child : ScopeId} (hl : Linked e) (hs : e.scope? b = some s)
    (hnest : addNested b e = (.ok child, e₁)) : Nested b s child e e₁ := by
  obtain rfl := addNested_ok hnest
  have hscope (k : ScopeId) := scope?_addNested (k := k) hl hs
  rw [hnest] at hscope
  have hne : b ≠ e.nextScope := (hl.lt_nextScope hs).ne
  exact
    { old := hs
      outer := (hscope b).trans (by rw [if_neg hne, if_pos rfl])
      inner := (hscope e.nextScope).trans (if_pos rfl)
      other := fun {k} hkc hkb => (hscope k).trans (by rw [if_neg hkc, if_neg hkb]) }

/-- Declaring a rule under a slot changes the scope. -/
theorem addRule_alters (hadd : addRule b slot rule e = (.ok r, e₁)) (hs : e.scope? b = some s)
    (hi : s.Indexed) (hl : s.Listed) : ∃ key q s₁, q.content = rule.content ∧
    q.explicitName = rule.explicitName ∧
      q.slot = some slot ∧ q.merged = none ∧ Alters b s s₁ e e₁ ∧ s₁.rules[key]? = some q ∧
      r = Scope.refOf b key q ∧
      (s.named.get? slot = none ∧ key = s.rules.length ∧ s₁ = s.withNamed slot q ∨
        s.named.get? slot = some key ∧ s₁ = s.setRule key q) := by
  -- A new slot appends a rule with a new cell, a known slot replaces its rule and keeps the cell.
  cases hslot : s.named.get? slot with
  | none =>
    rw [addRule_new hs hslot] at hadd
    cases hadd
    exact ⟨s.rules.length,
      { rule with slot := some slot, cell := some e.nextCell, merged := none }, _, rfl,
      rfl, rfl, rfl,
      (Alters.modifyScope (e := e.newCell.2) hs rfl rfl).congr rfl rfl,
      List.getElem?_concat_length, rfl,
      .inl ⟨rfl, rfl, rfl⟩⟩
  | some key =>
    rw [addRule_known hs hslot] at hadd
    cases hadd
    exact ⟨key, { rule with slot := some slot, cell := (s.rule? key).bind (·.cell), merged :=
      none }, _, rfl,
      rfl, rfl, rfl, (Alters.modifyScope hs rfl rfl).congr rfl rfl,
      List.getElem?_set_self (hi.lt_length hl hslot), rfl, .inr ⟨rfl, rfl⟩⟩

/-- So does declaring one without a slot. -/
theorem addUnnamedRule_alters (hadd : addUnnamedRule b rule e = (.ok r, e₁))
    (hs : e.scope? b = some s) : ∃ q, q.content = rule.content ∧
    q.explicitName = rule.explicitName ∧
      q.slot = rule.slot ∧ q.merged = none ∧ Alters b s (s.withUnnamed q) e e₁ ∧
      r = Scope.refOf b s.rules.length q := by
  rw [addUnnamedRule_eq hs] at hadd
  cases hadd
  exact ⟨{ rule with cell := some e.nextCell, merged := none }, rfl, rfl, rfl, rfl,
    (Alters.modifyScope (e := e.newCell.2) hs rfl rfl).congr rfl rfl, rfl⟩

/-- Using something changes the scope in its references only. -/
theorem addReference_alters (used : ScopeId) (hs : e.scope? b = some s) :
    ∃ references, Alters b s { s with references } e (e.addReference b used) := by
  refine ⟨if used ∈ s.references then s.references else s.references ++ [used], ?_⟩
  have hkeeps : (if used ∈ s.references then s else
      { s with references := s.references ++ [used] }) = { s with references :=
        if used ∈ s.references then s.references else s.references ++ [used] } := by
    split <;> rfl
  have ha : Alters b s _ e (e.addReference b used) :=
    .modifyScope hs (by rw [hkeeps]) (by rw [hkeeps])
  rwa [hkeeps] at ha

/-- Extending something changes the scope in what it extends, if the script runs for itself. -/
theorem setBase_alters {μ : Type} {c : Builder} {base : ScopeId} {m : μ} {s₁ : Engine × μ}
    (hs : e.scope? c.scope = some s) (hset : Script.setBase c base (e, m) = some (.ok (), s₁)) :
    ∃ base', Alters c.scope s { s with base := base' } e s₁.1 ∧
      (0 < c.depth → base' = s.base) := by
  unfold Script.setBase at hset
  split at hset
  · next hdepth =>
    cases hset
    exact ⟨some base, .modifyScope (g := fun s => { s with base := some base }) hs rfl rfl,
      fun hpos => absurd hdepth hpos.ne'⟩
  · cases hset
    exact ⟨s.base, .refl hs, fun _ => rfl⟩

/-- No scope is new inside of the one that declares while a definition is reached. -/
theorem Leaves.inside_back (h : Leaves (root :: roots) e e₁) (hs : Sound (root :: roots) e)
    (hin : e₁.Inside root k) : e.Inside root k := by
  induction hin with
  | root _ =>
    obtain ⟨s, hroot, -⟩ := hs.root_owner List.mem_cons_self
    exact .root hroot
  | nested hk howner _ ih =>
    obtain ⟨u, hu⟩ := ih.live
    obtain ⟨-, u', hu', hmem, -⟩ := h.orderly.sound.linked.owner_child hk howner
    cases (h.scope hu).symm.trans hu'
    obtain ⟨t, ht, hown⟩ := hs.linked.child_owner hu hmem
    exact .nested ht hown ih

/-! ### On both sides -/

section Both

variable {P : ScopeId → ScopeId → Prop} {L : Likeness}

/-- **Handles of rules at the same key are alike,** if the scopes say alike things. -/
theorem refAt?_alike (he : Indexed e) (hf : Indexed f) (hkj : P k j) (hs : e.scope? k = some s)
    (ht : f.scope? j = some t) (hst : s.Kindred L t) (key : Nat) :
    Option.Rel (RuleRef.Alike (pairing P e f units)) (e.refAt? k key) (f.refAt? j key) := by
  have hrule : Option.Rel (Rule.Resembles L) (e.rule? k key) (f.rule? j key) := by
    unfold Engine.rule?
    rw [hs, ht]
    exact hst.rule? key
  unfold Engine.refAt?
  cases hr : e.rule? k key with
  | none =>
    have hr' := rel_none (hr ▸ hrule)
    rw [hr']
    exact .none
  | some q =>
    obtain ⟨q', hr', hq⟩ := rel_some (hr ▸ hrule)
    rw [hr']
    exact .some (refOf_alike hkj he hf hr hr' hq.alike)

/-- **So are those of rules under one slot.** -/
theorem findRule_alike (he : Indexed e) (hf : Indexed f) (hkj : P k j) (hs : e.scope? k = some s)
    (ht : f.scope? j = some t) (hst : s.Kindred L t) (slot : String) :
    Option.Rel (RuleRef.Alike (pairing P e f units)) (e.findRule k slot) (f.findRule j slot) := by
  unfold Engine.findRule
  rw [hs, ht, Option.bind_some, Option.bind_some, hst.named]
  cases t.named.get? slot with
  | none => exact .none
  | some key => exact refAt?_alike he hf hkj hs ht hst key

/-- **So are those that are handed out,** if the scopes have one name. -/
theorem collectRefs_alike (he : Indexed e) (hf : Indexed f) (hkj : P k j)
    (hs : e.scope? k = some s) (ht : f.scope? j = some t) (hst : s.Kindred L t)
    (hname : s.name = t.name) {refs refs' : ScopeRefs} (hrefs : (collectRefs k e).1 = .ok refs)
    (hrefs' : (collectRefs j f).1 = .ok refs') : refs.Alike (pairing P e f units) refs' := by
  rw [collectRefs_eq hs] at hrefs
  rw [collectRefs_eq ht] at hrefs'
  cases hrefs
  cases hrefs'
  refine ⟨hkj, hname, ?_⟩
  -- Both scopes list the same slots, so the references are compared slot by slot.
  rw [hst.named]
  refine List.rel_filterMap (R := Eq) (fun entry entry' heq => ?_)
    (List.forall₂_same.mpr fun _ _ => rfl)
  subst heq
  have href : Option.Rel (RuleRef.Alike (pairing P e f units)) (e.refAt? k entry.2)
      (f.refAt? j entry.2) := refAt?_alike he hf hkj hs ht hst entry.2
  show Option.Rel _ ((e.refAt? k entry.2).map (entry.1, ·)) ((f.refAt? j entry.2).map (entry.1, ·))
  generalize e.refAt? k entry.2 = ref, f.refAt? j entry.2 = ref' at href
  cases href with
  | none => exact .none
  | some href => exact .some ⟨rfl, href⟩

/-- **Alike rules are declared on both sides,** at one key of scopes that say alike things then. -/
structure Joint (L : Likeness) (b b' : ScopeId) (s s₁ t t₁ : Scope) (e e₁ f f₁ : Engine)
    (r r' : RuleRef) : Prop where
  alters : Alters b s s₁ e e₁
  alters' : Alters b' t t₁ f f₁
  kindred : s₁.Kindred L t₁
  kept : s₁.name = s.name ∧ s₁.names = s.names ∧ s₁.base = s.base
  kept' : t₁.name = t.name ∧ t₁.names = t.names ∧ t₁.base = t.base
  rule : ∃ key q q', s₁.rules[key]? = some q ∧ t₁.rules[key]? = some q' ∧ q.Alike L q' ∧
    r = Scope.refOf b key q ∧ r' = Scope.refOf b' key q'

/-- Their handles are alike. -/
theorem Joint.alike (h : Joint L b b' s s₁ t t₁ e e₁ f f₁ r r') (hbb' : P b b') (he : Indexed e₁)
    (hf : Indexed f₁) : r.Alike (pairing P e₁ f₁ units) r' := by
  obtain ⟨key, q, q', hq, hq', halike, rfl, rfl⟩ := h.rule
  exact refOf_alike hbb' he hf (rule?_eq_some_iff.mpr ⟨s₁, h.alters.new, hq⟩)
    (rule?_eq_some_iff.mpr ⟨t₁, h.alters'.new, hq'⟩) halike

/-- **Alike rules are declared under one slot.** -/
theorem addRule_joint (hs : e.scope? b = some s) (ht : f.scope? b' = some t)
    (hi : s.Indexed ∧ s.Listed) (hi' : t.Indexed ∧ t.Listed) (hst : s.Kindred L t)
    (hrule : rule.Alike L rule') (hadd : addRule b slot rule e = (.ok r, e₁))
    (hadd' : addRule b' slot rule' f = (.ok r', f₁)) :
    ∃ s₁ t₁, Joint L b b' s s₁ t t₁ e e₁ f f₁ r r' ∧ (s.Tidy → s₁.Tidy) := by
  obtain ⟨key, q, s₁, hcontent, hname, hslot, hmerged, ha, hq, rfl, hcases⟩ :=
    addRule_alters hadd hs hi.1 hi.2
  obtain ⟨key', q', t₁, hcontent', hname', hslot', hmerged', ha', hq', rfl, hcases'⟩ :=
    addRule_alters hadd' ht hi'.1 hi'.2
  have hqq' : q.Resembles L q' :=
    ⟨⟨hcontent ▸ hcontent' ▸ hrule.content, by rw [hname, hname', hrule.explicitName],
      hslot.trans hslot'.symm⟩, by rw [hmerged, hmerged']; exact .none⟩
  -- The slot is new on both sides, or it has the same key.
  rw [← hst.named] at hcases'
  rcases hcases with ⟨hnew, rfl, rfl⟩ | ⟨hknown, rfl⟩
  · rcases hcases' with ⟨-, rfl, rfl⟩ | ⟨hknown', -⟩
    · refine ⟨_, _, ⟨ha, ha', hst.withNamed slot hqq', ⟨rfl, rfl, rfl⟩, ⟨rfl, rfl, rfl⟩,
        s.rules.length, q, q', hq, ?_, hqq'.alike, rfl, ?_⟩, fun h => h.withNamed hnew hslot⟩
      · rw [hst.rules.length_eq]
        exact hq'
      · rw [hst.rules.length_eq]
    · cases hnew.symm.trans hknown'
  · rcases hcases' with ⟨hnew', -⟩ | ⟨hknown', rfl⟩
    · cases hnew'.symm.trans hknown
    · cases hknown.symm.trans hknown'
      exact ⟨_, _, ⟨ha, ha', hst.setRule key hqq', ⟨rfl, rfl, rfl⟩, ⟨rfl, rfl, rfl⟩,
        key, q, q', hq, hq', hqq'.alike, rfl, rfl⟩, fun h => h.setRule hknown hslot⟩

/-- **Alike rules are declared without a slot.** -/
theorem addUnnamedRule_joint (hs : e.scope? b = some s) (ht : f.scope? b' = some t)
    (hst : s.Kindred L t) (hrule : rule.Alike L rule')
    (hadd : addUnnamedRule b rule e = (.ok r, e₁))
    (hadd' : addUnnamedRule b' rule' f = (.ok r', f₁)) :
    ∃ s₁ t₁, Joint L b b' s s₁ t t₁ e e₁ f f₁ r r' ∧ (rule.slot = none → s.Tidy → s₁.Tidy) := by
  obtain ⟨q, hcontent, hname, hslot, hmerged, ha, rfl⟩ := addUnnamedRule_alters hadd hs
  obtain ⟨q', hcontent', hname', hslot', hmerged', ha', rfl⟩ := addUnnamedRule_alters hadd' ht
  have hqq' : q.Resembles L q' :=
    ⟨⟨hcontent ▸ hcontent' ▸ hrule.content, by rw [hname, hname', hrule.explicitName],
      by rw [hslot, hslot', hrule.slot]⟩, by rw [hmerged, hmerged']; exact .none⟩
  refine ⟨_, _, ⟨ha, ha', hst.withUnnamed hqq', ⟨rfl, rfl, rfl⟩, ⟨rfl, rfl, rfl⟩,
    s.rules.length, q, q', List.getElem?_concat_length, ?_, hqq'.alike, rfl, ?_⟩,
    fun hnone h => h.withUnnamed (hslot.trans hnone)⟩
  · rw [hst.rules.length_eq]
    exact List.getElem?_concat_length
  · rw [hst.rules.length_eq]

end Both

namespace Abreast

variable (h : Abreast F G units root root' e f)
include h

/-- **Both scripts report something.** -/
theorem report (event event' : Event) :
    Abreast F G units root root' (e.report event) (f.report event') where
  settled := h.settled
  drafts hkj hk hj := h.drafts hkj ((inside_report event).mp hk) ((inside_report event').mp hj)

variable (hc : Courses F G root root' roots roots' e f)
include hc

/-- **Twins are changed alike.** -/
theorem alters (htwin : Twin F G b b') (ha : Alters b s s₁ e e₁) (ha' : Alters b' t t₁ f f₁)
    (hst : s₁.Resembles (twins F G units) t₁) : Abreast F G units root root' e₁ f₁ where
  settled hkj hk := h.settled hkj (ha.settles_back hk)
  drafts {k j} hkj hk hj := by
    by_cases hkb : k = b
    · subst hkb
      obtain rfl := htwin.unique hc.linked hkj
      exact ⟨s₁, t₁, ha.new, ha'.new, hst⟩
    · have hjb : j ≠ b' := fun hjb => hkb (hkj.symm.unique hc.linked' (hjb ▸ htwin.symm))
      rw [ha.other hkb, ha'.other hjb]
      exact h.drafts hkj (ha.inside_iff.mp hk) (ha'.inside_iff.mp hj)

/-- **The rule of a slot** is found by both scripts. -/
theorem findRule (hkj : (shared F G units root root' e f).scopes b b') (slot : String) :
    Option.Rel (RuleRef.Alike (shared F G units root root' e f)) (e.findRule b slot)
      (f.findRule b' slot) := by
  obtain ⟨s, t, hs, ht, hst⟩ := h.resembles hc hkj
  exact findRule_alike hc.orderly.vacant.toIndexed hc.orderly'.vacant.toIndexed hkj hs ht
    hst.toKindred slot

/-- **The handles of the rules of a definition** that both scripts use. -/
theorem collectRefs (hkj : (shared F G units root root' e f).scopes k j) {refs refs' : ScopeRefs}
    (hrefs : (collectRefs k e).1 = .ok refs) (hrefs' : (Engine.collectRefs j f).1 = .ok refs') :
    refs.Alike (shared F G units root root' e f) refs' := by
  obtain ⟨s, t, hs, ht, hst⟩ := h.resembles hc hkj
  exact collectRefs_alike hc.orderly.vacant.toIndexed hc.orderly'.vacant.toIndexed hkj hs ht
    hst.toKindred hst.name hrefs hrefs'

/-- The names that both scripts are told are the same. -/
theorem name? {cell cell' : NameCell} (hcell : cell.Alike (shared F G units root root' e f) cell') :
    cell.name? e.names = cell'.name? f.names := by
  cases hcell with
  | fixed => rfl
  | ofRule hab => exact h.cell hc hab
  | empty => rfl

/-! ### Rules -/

/-- **Both scripts declare alike rules** at one key, and get alike handles. -/
theorem joint (htwin : Twin F G b b') (hb : e.Inside root b) (hb' : f.Inside root' b')
    (hst : s.Resembles (twins F G units) t)
    (hj : Joint (twins F G units) b b' s s₁ t t₁ e e₁ f f₁ r r') (hi : Indexed e₁)
    (hi' : Indexed f₁) : Abreast F G units root root' e₁ f₁ ∧
      r.Alike (shared F G units root root' e₁ f₁) r' :=
  ⟨h.alters hc htwin hj.alters hj.alters' (hst.changed hj.kindred hj.kept hj.kept'),
    hj.alike ⟨htwin, .inl (hj.alters.inside_iff.mpr hb), .inl (hj.alters'.inside_iff.mpr hb')⟩ hi
      hi'⟩

/-- **Both scripts declare a rule under a slot.** -/
theorem addRule (htwin : Twin F G b b') (hb : e.Inside root b) (hb' : f.Inside root' b')
    (hrule : rule.Alike (twins F G units) rule') (hadd : addRule b slot rule e = (.ok r, e₁))
    (hadd' : Engine.addRule b' slot rule' f = (.ok r', f₁)) (hi : Indexed e₁) (hi' : Indexed f₁) :
    Abreast F G units root root' e₁ f₁ ∧ r.Alike (shared F G units root root' e₁ f₁) r' := by
  obtain ⟨s, t, hs, ht, hst⟩ := h.drafts htwin hb hb'
  obtain ⟨s₁, t₁, hj, -⟩ := addRule_joint hs ht
    ⟨hc.orderly.vacant.scope hs, hc.orderly.sound.linked.listed hs⟩
    ⟨hc.orderly'.vacant.scope ht, hc.orderly'.sound.linked.listed ht⟩ hst.toKindred hrule hadd hadd'
  exact h.joint hc htwin hb hb' hst hj hi hi'

/-- **Both scripts declare a rule without a slot.** -/
theorem addUnnamedRule (htwin : Twin F G b b') (hb : e.Inside root b) (hb' : f.Inside root' b')
    (hrule : rule.Alike (twins F G units) rule') (hadd : addUnnamedRule b rule e = (.ok r, e₁))
    (hadd' : Engine.addUnnamedRule b' rule' f = (.ok r', f₁)) (hi : Indexed e₁) (hi' : Indexed f₁) :
    Abreast F G units root root' e₁ f₁ ∧ r.Alike (shared F G units root root' e₁ f₁) r' := by
  obtain ⟨s, t, hs, ht, hst⟩ := h.drafts htwin hb hb'
  obtain ⟨s₁, t₁, hj, -⟩ := addUnnamedRule_joint hs ht hst.toKindred hrule hadd hadd'
  exact h.joint hc htwin hb hb' hst hj hi hi'

/-! ### Links -/

/-- **Both scripts extend twins.** -/
theorem setBase {base base' : ScopeId} (htwin : Twin F G b b') (hb : e.Inside root b)
    (hb' : f.Inside root' b') (hbase : Twin F G base base') : Abreast F G units root root'
      (e.modifyScope b fun s => { s with base := some base })
      (f.modifyScope b' fun s => { s with base := some base' }) := by
  obtain ⟨s, t, hs, ht, hst⟩ := h.drafts htwin hb hb'
  exact h.alters hc htwin (.modifyScope hs rfl rfl) (.modifyScope ht rfl rfl)
    ⟨⟨hst.named, hst.order, hst.rules, hst.owner, hst.children⟩, hst.name, hst.names, .some hbase⟩

/-- Only scripts that run for themselves set what their scopes extend. -/
theorem setBase_run {μ : Type} {c c' : Builder} {base base' : ScopeId} {m m' : μ}
    {s₁ t₁ : Engine × μ}
    (hdepth : c.depth = c'.depth) (htwin : Twin F G c.scope c'.scope) (hb : e.Inside root c.scope)
    (hb' : f.Inside root' c'.scope) (hbase : Twin F G base base')
    (hset : Script.setBase c base (e, m) = some (.ok (), s₁))
    (hset' : Script.setBase c' base' (f, m') = some (.ok (), t₁)) :
    Abreast F G units root root' s₁.1 t₁.1 := by
  unfold Script.setBase at hset hset'
  rw [← hdepth] at hset'
  split at hset
  · cases hset
    rw [if_pos (by assumption)] at hset'
    cases hset'
    exact h.setBase hc htwin hb hb' hbase
  · cases hset
    rw [if_neg (by assumption)] at hset'
    cases hset'
    exact h

/-- **Both scripts use something.** -/
theorem addReference (used used' : ScopeId) (htwin : Twin F G b b') (hb : e.Inside root b)
    (hb' : f.Inside root' b') :
    Abreast F G units root root' (e.addReference b used) (f.addReference b' used') := by
  obtain ⟨s, t, hs, ht, hst⟩ := h.drafts htwin hb hb'
  obtain ⟨references, ha⟩ := addReference_alters used hs
  obtain ⟨references', ha'⟩ := addReference_alters used' ht
  exact h.alters hc htwin ha ha'
    ⟨⟨hst.named, hst.order, hst.rules, hst.owner, hst.children⟩, hst.name, hst.names, hst.base⟩

/-- **Both scripts nest a scope,** at the same place of twins. -/
theorem addNested {child child' : ScopeId} (htwin : Twin F G b b') (hb : e.Inside root b)
    (hb' : f.Inside root' b') (hnest : addNested b e = (.ok child, e₁))
    (hnest' : Engine.addNested b' f = (.ok child', f₁)) (hd : Endures e e₁) (hd' : Endures f f₁)
    (he : Endures e₁ F) (hf : Endures f₁ G) :
    Abreast F G units root root' e₁ f₁ ∧ Twin F G child child' := by
  obtain ⟨s, t, hs, ht, hst⟩ := h.drafts htwin hb hb'
  -- The child comes last in both lists, which are as long as each other.
  have hn := addNested_nested hc.orderly.sound.linked hs hnest
  have hn' := addNested_nested hc.orderly'.sound.linked ht hnest'
  have hchild : Twin F G child child' := by
    obtain ⟨sF, hsF, hfosters⟩ := he.fosters b _ hn.outer
    obtain ⟨tG, htG, hfosters'⟩ := hf.fosters b' _ hn'.outer
    refine .nested htwin hsF htG (Scope.Fosters.getElem? hfosters List.getElem?_concat_length)
      (Scope.Fosters.getElem? hfosters' ?_)
    rw [hst.children.length_eq]
    exact List.getElem?_concat_length
  refine ⟨⟨fun hkj hk => h.settled hkj (hn.settles_back hk), fun {k j} hkj hk hj => ?_⟩, hchild⟩
  -- The pair is that of the new scopes, that of the scopes around them, or an old one.
  by_cases hkc : k = child
  · subst hkc
    obtain rfl := hchild.unique hc.linked hkj
    exact ⟨_, _, hn.inner, hn'.inner, ⟨rfl, rfl, .nil, .some htwin, .nil⟩, hst.name, rfl, .none⟩
  · have hjc : j ≠ child' := fun heq => hkc (hkj.symm.unique hc.linked' (heq ▸ hchild.symm))
    by_cases hkb : k = b
    · subst hkb
      obtain rfl := htwin.unique hc.linked hkj
      exact ⟨_, _, hn.outer, hn'.outer,
        hst.changed (hst.withChild hchild) ⟨rfl, rfl, rfl⟩ ⟨rfl, rfl, rfl⟩⟩
    · have hjb : j ≠ b' := fun heq => hkb (hkj.symm.unique hc.linked' (heq ▸ htwin.symm))
      obtain ⟨u, hu⟩ := hk.live
      obtain ⟨v, hv⟩ := hj.live
      rw [hn.other hkc hkb] at hu ⊢
      rw [hn'.other hjc hjb] at hv ⊢
      exact h.drafts hkj (hd.inside_back hc.orderly.sound.linked hu hk)
        (hd'.inside_back hc.orderly'.sound.linked hv hj)

/-- **What is reached meanwhile** leaves the scopes alone that the two scripts declare. -/
theorem leaves (hl : Leaves (root :: roots) e e₁) (hl' : Leaves (root' :: roots') f f₁)
    (hsettled : ∀ {k j}, Twin F G k j → e₁.Settles k → Matched F G units k j) :
    Abreast F G units root root' e₁ f₁ where
  settled := hsettled
  drafts hkj hk hj := by
    obtain ⟨s, t, hs, ht, hst⟩ := h.drafts hkj (hl.inside_back hc.orderly.sound hk)
      (hl'.inside_back hc.orderly'.sound hj)
    exact ⟨s, t, hl.scope hs, hl'.scope ht, hst⟩

end Abreast

/-- Nothing is learned from reports. -/
theorem shared_report (event event' : Event) : shared F G units root root' (e.report event)
    (f.report event') = shared F G units root root' e f := by
  unfold shared Sees
  simp only [inside_report]
  rfl

/-! ### Definitions that get scopes -/

/-- A scope that was opened has nothing nested in it. -/
theorem inside_opened {μ : Type} {d : Definition μ} (hs : Sound roots e)
    (hin : (opened d e).Inside e.nextScope k) : k = e.nextScope := by
  have hl := (opened_spec d hs).sound.linked
  cases hin with
  | root _ => rfl
  | nested hk howner hin =>
    have hle := (hl.le_of_inside hin).trans (hl.owner_child hk howner).1.le
    rw [scope?_opened] at hk
    split at hk
    · assumption
    · exact absurd (hs.linked.lt_nextScope hk) (Nat.not_lt.mpr hle)

/-- If no number is taken, a definition gets the scope name that it asks for. -/
theorem Steady.reserve {μ : Type} {d : Definition μ} (h : Steady e (opened d e)) :
    (e.naming.reserve d.scopeName d.multiplex).1 = d.scopeName := by
  rcases Naming.reserve_cases d.scopeName d.multiplex e.naming with ⟨hname, -⟩ | ⟨hlt, -⟩
  · exact hname
  · exact absurd h.nextId hlt.ne'

/-- **A definition gets a scope on both sides.** -/
theorem Abreast.opened {μ : Type} {d : Definition μ} (hF : Linked F)
    (hmatched : ∀ {k j}, Twin F G k j → e.Settles k → Matched F G units k j)
    (htwin : Twin F G e.nextScope f.nextScope) (hs : Sound roots e)
    (hsteady : Steady e (opened d e)) (hsteady' : Steady f (Engine.opened d f)) :
    Abreast F G units e.nextScope f.nextScope (Engine.opened d e) (Engine.opened d f) where
  settled {k j} hkj hk := by
    obtain ⟨u, hu, hsettled⟩ := hk
    rw [scope?_opened] at hu
    split at hu
    · cases hu
      exact absurd rfl hsettled
    · exact hmatched hkj ⟨u, hu, hsettled⟩
  drafts {k j} hkj hk hj := by
    obtain rfl := inside_opened hs hk
    obtain rfl := htwin.unique hF hkj
    rw [scope?_opened, if_pos rfl, scope?_opened, if_pos rfl]
    exact ⟨_, _, rfl, rfl, ⟨rfl, rfl, .nil, .none, .nil⟩,
      hsteady.reserve.trans hsteady'.reserve.symm, rfl, .none⟩

end Engine

end StyleBook
