import StyleBook.Proofs.Order.Mentions

namespace StyleBook

/-!
# Declaring once more

A definition that extends another one declares what that one has declared, in a scope of its own.
The scope of the other one is processed by then. Step by step, what is declared in the new scope
says what was declared in the old one: about scopes that were nested at the same places, and about
processed scopes, which are the same for both.

* `Engine.mates` — some scopes correspond, and processed scopes to themselves;
* `Engine.Sequel` — a script declares in one engine, and later another script in another one;
* `Engine.Rehearses` — what the first script has declared is what the second one has declared;
* `Engine.Rehearses.addRule`, … — so it is after each step;
* `Engine.Rehearses.related` — what both know corresponds in all that merging looks at.
-/

/-- Scopes that say alike things echo each other, if the places of names correspond. -/
theorem Scope.Kindred.echoes {L : Likeness} {s t : Scope} (h : s.Kindred L t)
    (hcells : ∀ {key : Nat} {r r' : Rule}, s.rules[key]? = some r → t.rules[key]? = some r' →
      Option.Rel L.cells r.cell r'.cell) : s.Echoes L L t where
  named := h.named
  order := h.order
  rules := List.forall₂_iff_get.mpr ⟨h.rules.length_eq, fun key hlt hlt' =>
    ((List.forall₂_iff_get.mp h.rules).2 key hlt hlt').mirrors
      (hcells (List.getElem?_eq_getElem hlt) (List.getElem?_eq_getElem hlt'))⟩
  owner := h.owner
  children := h.children

namespace Engine

variable {e e₁ f f₁ : Engine} {root root' b b' k j : ScopeId} {roots roots' : List ScopeId}
  {s s₁ t t₁ : Scope} {units : UnitTable} {slot : String} {rule rule' : Rule}
  {r r' : RuleRef} {T T' : ScopeId → ScopeId → Prop}

/-! ### Which scopes correspond -/

/-- **The scopes of some pairs correspond,** and processed scopes correspond to themselves. -/
def Mates (T : ScopeId → ScopeId → Prop) (e : Engine) (k j : ScopeId) : Prop :=
  T k j ∨ k = j ∧ e.Settles k

/-- So do the places of their rules. -/
def mates (T : ScopeId → ScopeId → Prop) (units : UnitTable) (e f : Engine) : Likeness :=
  pairing (Mates T e) e f units

theorem mates_mono (hT : T ≤ T') (he : Endures e e₁) (hf : Endures f f₁) :
    mates T units e f ≤ mates T' units e₁ f₁ :=
  pairing_mono (fun hkj => hkj.imp (hT _ _) fun ⟨heq, hk⟩ => ⟨heq, he.settles hk⟩)
    he.anchors hf.anchors

/-- **A script declares in one engine, and later another script in another one.** -/
structure Sequel (root root' : ScopeId) (roots roots' : List ScopeId) (e f : Engine) : Prop where
  orderly : Orderly (root :: roots) e
  orderly' : Orderly (root' :: roots') f
  endures : Endures e f

/-- A processed scope says alike things in both engines. -/
theorem Sequel.settled (hq : Sequel root root' roots roots' e f)
    (hm : Mentions units e.Settles e.Settles e) (hk : e.Settles k) :
    ∃ s, e.scope? k = some s ∧ f.scope? k = some s ∧ s.Kindred (mates T units e f) s := by
  obtain ⟨s, hs, hsettled⟩ := id hk
  have hL : selves units e.Settles e ≤ mates T units e f :=
    pairing_mono .inr (refl_of Grows e).evolves.anchors hq.endures.anchors
  refine ⟨s, hs, hq.endures.settled hs hsettled, rfl, rfl,
    List.forall₂_same.mpr fun r hr => (hm.rules hk hs r hr).mono hL, ?_,
    List.forall₂_same.mpr fun c hc => .inr ⟨rfl, ?_⟩⟩
  · cases howner : s.owner with
    | none => exact .none
    | some o => exact .some (.inr ⟨rfl, hq.orderly.sound.settles_owner hs hsettled howner⟩)
  · obtain ⟨t, ht, howner⟩ := hq.orderly.sound.linked.child_owner hs hc
    exact ⟨t, ht, hq.orderly.sound.linked.settled_of_inside (.nested ht howner (.root hs)) hs
      hsettled ht⟩

/-- **The handles of a definition that both scripts use.** -/
theorem Sequel.collectRefs (hq : Sequel root root' roots roots' e f)
    (hm : Mentions units e.Settles e.Settles e) (hk : e.Settles k) {refs refs' : ScopeRefs}
    (hrefs : (collectRefs k e).1 = .ok refs) (hrefs' : (Engine.collectRefs k f).1 = .ok refs') :
    refs.Alike (mates T units e f) refs' := by
  obtain ⟨s, hs, ht, hst⟩ := hq.settled (T := T) hm hk
  exact collectRefs_alike hq.orderly.vacant.toIndexed hq.orderly'.vacant.toIndexed
    (.inr ⟨rfl, hk⟩) hs ht hst rfl hrefs hrefs'

/-- **What the first script has declared is what the second one has declared,** in scopes that
    correspond. The scope of the second one extends that of the first one. -/
structure Rehearses (T : ScopeId → ScopeId → Prop) (units : UnitTable) (root root' : ScopeId)
    (e f : Engine) : Prop where
  roots : T root root'
  inside {k j : ScopeId} : T k j → e.Inside root k ∧ f.Inside root' j
  unique : Relator.BiUnique T
  drafts {k j : ScopeId} : T k j → ∃ s t, e.scope? k = some s ∧ f.scope? j = some t ∧
    s.Kindred (mates T units e f) t ∧ s.Tidy
  heir : ∃ t, f.scope? root' = some t ∧ t.base = some root

/-- Both scopes are at their start. -/
theorem Rehearses.start (hs : e.scope? root = some s) (ht : f.scope? root' = some t)
    (hempty : s.rules = [] ∧ s.named = [] ∧ s.order = [] ∧ s.owner = none ∧ s.children = [])
    (hempty' : t.rules = [] ∧ t.named = [] ∧ t.order = [] ∧ t.owner = none ∧ t.children = [])
    (hbase : t.base = some root) :
    Rehearses (fun k j => k = root ∧ j = root') units root root' e f where
  roots := ⟨rfl, rfl⟩
  inside := by
    rintro k j ⟨rfl, rfl⟩
    exact ⟨.root hs, .root ht⟩
  -- There is one pair, so it is unique on both sides.
  unique := ⟨fun _ _ _ h h' => h.1.trans h'.1.symm, fun _ _ _ h h' => h.2.trans h'.2.symm⟩
  drafts := by
    rintro k j ⟨rfl, rfl⟩
    obtain ⟨hrules, hnamed, horder, howner, hchildren⟩ := hempty
    obtain ⟨hrules', hnamed', horder', howner', hchildren'⟩ := hempty'
    -- Neither scope holds anything: all lists that are compared are empty.
    refine ⟨s, t, hs, ht, ⟨hnamed.trans hnamed'.symm, horder.trans horder'.symm, ?_, ?_, ?_⟩,
      .of_empty hrules⟩
    · rw [hrules, hrules']
      exact .nil
    · rw [howner, howner']
      exact .none
    · rw [hchildren, hchildren']
      exact .nil
  heir := ⟨t, ht, hbase⟩

namespace Rehearses

section Steps

variable (h : Rehearses T units root root' e f)
include h

/-- **Scopes that correspond are changed alike.** -/
theorem alters (hT : T b b') (ha : Alters b s s₁ e e₁) (ha' : Alters b' t t₁ f f₁)
    (he : Endures e e₁) (hf : Endures f f₁) (hst : s₁.Kindred (mates T units e₁ f₁) t₁)
    (htidy : s₁.Tidy) (hbase : b' = root' → t₁.base = t.base) :
    Rehearses T units root root' e₁ f₁ where
  roots := h.roots
  inside hkj := (h.inside hkj).imp ha.inside_iff.mpr ha'.inside_iff.mpr
  unique := h.unique
  drafts {k j} hkj := by
    -- The pair that was changed is the given one; every other pair is as it was.
    by_cases hkb : k = b
    · subst hkb
      obtain rfl := h.unique.2 hT hkj
      exact ⟨s₁, t₁, ha.new, ha'.new, hst, htidy⟩
    · have hjb : j ≠ b' := fun heq => hkb (h.unique.1 (heq ▸ hkj) hT)
      obtain ⟨u, v, hu, hv, huv, hneat⟩ := h.drafts hkj
      exact ⟨u, v, (ha.other hkb).trans hu, (ha'.other hjb).trans hv,
        huv.mono (mates_mono le_rfl he hf), hneat⟩
  heir := by
    obtain ⟨u, hu, hroot⟩ := h.heir
    -- The base link is that of the root, which may be the scope that was changed.
    by_cases hb : b' = root'
    · subst hb
      cases hu.symm.trans ha'.old
      exact ⟨t₁, ha'.new, (hbase rfl).trans hroot⟩
    · exact ⟨u, (ha'.other (Ne.symm hb)).trans hu, hroot⟩

/-- No scope is changed. -/
theorem aside (hscopes : e₁.scopes = e.scopes) (hscopes' : f₁.scopes = f.scopes)
    (he : Endures e e₁) (hf : Endures f f₁) : Rehearses T units root root' e₁ f₁ where
  roots := h.roots
  inside hkj := (h.inside hkj).imp he.inside hf.inside
  unique := h.unique
  drafts hkj := by
    obtain ⟨s, t, hs, ht, hst, hneat⟩ := h.drafts hkj
    exact ⟨s, t, (congrArg (Dict.get? _) hscopes).trans hs,
      (congrArg (Dict.get? _) hscopes').trans ht, hst.mono (mates_mono le_rfl he hf), hneat⟩
  heir := by
    obtain ⟨t, ht, hbase⟩ := h.heir
    exact ⟨t, (congrArg (Dict.get? _) hscopes').trans ht, hbase⟩

/-- **What the first script reaches** leaves the scopes alone that it declares. -/
theorem leaves (hl : Leaves (root :: roots) e e₁) (hf : Endures f f) :
    Rehearses T units root root' e₁ f where
  roots := h.roots
  inside hkj := (h.inside hkj).imp_left hl.grows.endures.inside
  unique := h.unique
  drafts hkj := by
    obtain ⟨s, t, hs, ht, hst, hneat⟩ := h.drafts hkj
    exact ⟨s, t, hl.scope hs, ht, hst.mono (mates_mono le_rfl hl.grows.endures hf), hneat⟩
  heir := h.heir

/-- **Either script may extend something,** but the second one keeps what its scope extends. -/
theorem setBase {μ : Type} {c c' : Builder} {base base' : ScopeId} {m m' : μ} {s₁ t₁ : Engine × μ}
    (hT : T c.scope c'.scope) (hdepth : c'.scope = root' → 0 < c'.depth)
    (hset : Script.setBase c base (e, m) = some (.ok (), s₁))
    (hset' : Script.setBase c' base' (f, m') = some (.ok (), t₁)) (he : Endures e s₁.1)
    (hf : Endures f t₁.1) : Rehearses T units root root' s₁.1 t₁.1 := by
  obtain ⟨s, t, hs, ht, hst, hneat⟩ := h.drafts hT
  obtain ⟨_, ha, -⟩ := setBase_alters hs hset
  obtain ⟨_, ha', hkept⟩ := setBase_alters ht hset'
  have hst' := hst.mono (mates_mono le_rfl he hf)
  exact h.alters hT ha ha' he hf
    ⟨hst'.named, hst'.order, hst'.rules, hst'.owner, hst'.children⟩ hneat
    fun hroot => hkept (hdepth hroot)

/-- **Both scripts use something.** -/
theorem addReference (used : ScopeId) (hT : T b b') (he : Endures e (e.addReference b used))
    (hf : Endures f (f.addReference b' used)) :
    Rehearses T units root root' (e.addReference b used) (f.addReference b' used) := by
  obtain ⟨s, t, hs, ht, hst, hneat⟩ := h.drafts hT
  obtain ⟨_, ha⟩ := addReference_alters used hs
  obtain ⟨_, ha'⟩ := addReference_alters used ht
  have hst' := hst.mono (mates_mono le_rfl he hf)
  exact h.alters hT ha ha' he hf
    ⟨hst'.named, hst'.order, hst'.rules, hst'.owner, hst'.children⟩ hneat fun _ => rfl

/-- **Both scripts declare alike rules,** and get alike handles. -/
theorem joint (hT : T b b') (hd : Declares root roots e e₁) (hd' : Declares root' roots' f f₁)
    (hj : Joint (mates T units e₁ f₁) b b' s s₁ t t₁ e e₁ f f₁ r r') (htidy : s₁.Tidy) :
    Rehearses T units root root' e₁ f₁ ∧ r.Alike (mates T units e₁ f₁) r' :=
  ⟨h.alters hT hj.alters hj.alters' hd.grows.endures hd'.grows.endures hj.kindred htidy
    fun _ => hj.kept'.2.2,
    hj.alike (.inl hT) hd.orderly.vacant.toIndexed hd'.orderly.vacant.toIndexed⟩

/-- **Both scripts declare a rule without a slot,** which has none. -/
theorem addUnnamedRule (hT : T b b') (hrule : rule.Alike (mates T units e f) rule')
    (hslot : rule.slot = none) (hadd : addUnnamedRule b rule e = (.ok r, e₁))
    (hadd' : Engine.addUnnamedRule b' rule' f = (.ok r', f₁)) (hd : Declares root roots e e₁)
    (hd' : Declares root' roots' f f₁) :
    Rehearses T units root root' e₁ f₁ ∧ r.Alike (mates T units e₁ f₁) r' := by
  obtain ⟨s, t, hs, ht, hst, hneat⟩ := h.drafts hT
  have hL : mates T units e f ≤ mates T units e₁ f₁ :=
    mates_mono le_rfl hd.grows.endures hd'.grows.endures
  obtain ⟨s₁, t₁, hj, htidy⟩ :=
    addUnnamedRule_joint hs ht (hst.mono hL) (hrule.mono hL) hadd hadd'
  exact h.joint hT hd hd' hj (htidy hslot hneat)

variable (hq : Sequel root root' roots roots' e f)
include hq

/-- Scopes that are declared are not processed. -/
theorem apart (hkj : T k j) : ¬ e.Settles k ∧ ¬ e.Settles j := by
  obtain ⟨hin, hin'⟩ := h.inside hkj
  refine ⟨fun ⟨s, hs, hsettled⟩ => ?_, fun hj => ?_⟩
  · exact hq.orderly.sound.unsettled List.mem_cons_self hin hs hsettled
  · obtain ⟨t, ht, hsettled⟩ := hq.endures.settles hj
    exact hq.orderly'.sound.unsettled List.mem_cons_self hin' ht hsettled

/-- **No scope corresponds to two.** -/
theorem exact : (mates T units e f).Exact := by
  refine pairing_exact ⟨?_, ?_⟩ hq.orderly.vacant.toIndexed hq.orderly'.vacant.toIndexed
  · rintro k k' j (hkj | ⟨rfl, hk⟩) (hkj' | ⟨rfl, hk'⟩)
    · exact h.unique.1 hkj hkj'
    · exact absurd hk' (h.apart hq hkj).2
    · exact absurd hk (h.apart hq hkj').2
    · rfl
  · rintro k j j' (hkj | ⟨rfl, hk⟩) (hkj' | ⟨rfl, hk'⟩)
    · exact h.unique.2 hkj hkj'
    · exact absurd hk' (h.apart hq hkj).1
    · exact absurd hk (h.apart hq hkj').1
    · rfl

/-! ### Answers -/

/-- **The rule of a slot** is found by both scripts. -/
theorem findRule (hT : T b b') (slot : String) :
    Option.Rel (RuleRef.Alike (mates T units e f)) (e.findRule b slot) (f.findRule b' slot) := by
  obtain ⟨s, t, hs, ht, hst, -⟩ := h.drafts hT
  exact findRule_alike hq.orderly.vacant.toIndexed hq.orderly'.vacant.toIndexed (.inl hT) hs ht hst
    slot

/-- **The names that both scripts are told are the same.** -/
theorem name? {cell cell' : NameCell} (hcell : cell.Alike (mates T units e f) cell') :
    cell.name? e.names = cell'.name? f.names := by
  cases hcell with
  | fixed => rfl
  | empty => rfl
  | @ofRule a b hab =>
    obtain ⟨k, j, key, hkj | ⟨rfl, hk⟩, ha, hb⟩ := hab
    · obtain ⟨hin, hin'⟩ := h.inside hkj
      exact (hq.orderly.unfilled hin ha).trans (hq.orderly'.unfilled hin' hb).symm
    · -- The scope is the same in both engines, and keeps its names.
      obtain ⟨s, hs, hsettled⟩ := hk
      obtain ⟨q, hrule, hb⟩ := hb.congr (hs.trans (hq.endures.settled hs hsettled).symm)
      obtain ⟨q', hrule', ha'⟩ := id ha
      cases hrule.symm.trans hrule'
      cases hb.symm.trans ha'
      exact (hq.endures.cell hq.orderly.vacant.toIndexed ⟨s, hs, hsettled⟩ ha).symm

/-! ### Rules -/

/-- **Both scripts declare a rule under a slot.** -/
theorem addRule (hT : T b b') (hrule : rule.Alike (mates T units e f) rule')
    (hadd : addRule b slot rule e = (.ok r, e₁)) (hadd' : addRule b' slot rule' f = (.ok r', f₁))
    (hd : Declares root roots e e₁) (hd' : Declares root' roots' f f₁) :
    Rehearses T units root root' e₁ f₁ ∧ r.Alike (mates T units e₁ f₁) r' := by
  obtain ⟨s, t, hs, ht, hst, hneat⟩ := h.drafts hT
  have hL : mates T units e f ≤ mates T units e₁ f₁ :=
    mates_mono le_rfl hd.grows.endures hd'.grows.endures
  obtain ⟨s₁, t₁, hj, htidy⟩ := addRule_joint hs ht
    ⟨hq.orderly.vacant.scope hs, hq.orderly.sound.linked.listed hs⟩
    ⟨hq.orderly'.vacant.scope ht, hq.orderly'.sound.linked.listed ht⟩ (hst.mono hL)
    (hrule.mono hL) hadd hadd'
  exact h.joint hT hd hd' hj (htidy hneat)

/-- **Both scripts nest a scope.** -/
theorem addNested {child child' : ScopeId} (hT : T b b')
    (hnest : addNested b e = (.ok child, e₁)) (hnest' : Engine.addNested b' f = (.ok child', f₁))
    (hd : Declares root roots e e₁) (hd' : Declares root' roots' f f₁) :
    Rehearses (fun k j => T k j ∨ k = child ∧ j = child') units root root' e₁ f₁ := by
  obtain ⟨s, t, hs, ht, hst, hneat⟩ := h.drafts hT
  have hn := addNested_nested hq.orderly.sound.linked hs hnest
  have hn' := addNested_nested hq.orderly'.sound.linked ht hnest'
  have hend := hd.grows.endures
  have hend' := hd'.grows.endures
  -- The new scopes correspond to no other ones.
  have hnew : ∀ {k j}, T k j → k ≠ child ∧ j ≠ child' := fun hkj => by
    obtain ⟨u, hu⟩ := (h.inside hkj).1.live
    obtain ⟨v, hv⟩ := (h.inside hkj).2.live
    obtain rfl := addNested_ok hnest
    obtain rfl := addNested_ok hnest'
    exact ⟨(hq.orderly.sound.linked.lt_nextScope hu).ne,
      (hq.orderly'.sound.linked.lt_nextScope hv).ne⟩
  have hL : mates T units e f ≤
      mates (fun k j => T k j ∨ k = child ∧ j = child') units e₁ f₁ :=
    mates_mono (fun _ _ => .inl) hend hend'
  refine ⟨.inl h.roots, ?_, ⟨?_, ?_⟩, ?_, ?_⟩
  · rintro k j (hkj | ⟨rfl, rfl⟩)
    · exact (h.inside hkj).imp hend.inside hend'.inside
    · exact ⟨.nested hn.inner rfl (hend.inside (h.inside hT).1),
        .nested hn'.inner rfl (hend'.inside (h.inside hT).2)⟩
  · rintro k k' j (hkj | ⟨rfl, rfl⟩) (hkj' | ⟨rfl, hj⟩)
    · exact h.unique.1 hkj hkj'
    · exact absurd hj (hnew hkj).2
    · exact absurd rfl (hnew hkj').2
    · rfl
  · rintro k j j' (hkj | ⟨rfl, rfl⟩) (hkj' | ⟨hk, rfl⟩)
    · exact h.unique.2 hkj hkj'
    · exact absurd hk (hnew hkj).1
    · exact absurd rfl (hnew hkj').1
    · rfl
  · rintro k j (hkj | ⟨rfl, rfl⟩)
    · by_cases hkb : k = b
      · subst hkb
        obtain rfl := h.unique.2 hT hkj
        exact ⟨_, _, hn.outer, hn'.outer, (hst.mono hL).withChild (.inl (.inr ⟨rfl, rfl⟩)), hneat⟩
      · have hjb : j ≠ b' := fun heq => hkb (h.unique.1 (heq ▸ hkj) hT)
        obtain ⟨u, v, hu, hv, huv, hneat'⟩ := h.drafts hkj
        exact ⟨u, v, (hn.other (hnew hkj).1 hkb).trans hu, (hn'.other (hnew hkj).2 hjb).trans hv,
          huv.mono hL, hneat'⟩
    · exact ⟨_, _, hn.inner, hn'.inner, ⟨rfl, rfl, .nil, .some (.inl (.inl hT)), .nil⟩,
        .of_empty rfl⟩
  · obtain ⟨u, hu, hbase⟩ := h.heir
    by_cases hb : b' = root'
    · subst hb
      cases hu.symm.trans ht
      exact ⟨_, hn'.outer, hbase⟩
    · exact ⟨u, (hn'.other (hnew h.roots).2 (Ne.symm hb)).trans hu, hbase⟩

/-! ### What corresponds -/

/-- **Scopes that correspond correspond in all that merging looks at.** -/
theorem related (hm : Mentions units e.Settles e.Settles e) :
    Related (Scope.Echoes (mates T units e f) (mates T units e f)) (mates T units e f) e f where
  scope {k j} hkj := by
    obtain ⟨s, t, hs, ht, hst⟩ : ∃ s t, e.scope? k = some s ∧ f.scope? j = some t ∧
        s.Kindred (mates T units e f) t := by
      rcases hkj with hT | ⟨rfl, hk⟩
      · obtain ⟨s, t, hs, ht, hst, -⟩ := h.drafts hT
        exact ⟨s, t, hs, ht, hst⟩
      · obtain ⟨s, hs, ht, hst⟩ := hq.settled (T := T) hm hk
        exact ⟨s, s, hs, ht, hst⟩
    exact ⟨s, t, hs, ht, hst.echoes fun hr hr' => pairing_cell hkj hq.orderly.vacant.toIndexed
      hq.orderly'.vacant.toIndexed (rule?_eq_some_iff.mpr ⟨s, hs, hr⟩)
      (rule?_eq_some_iff.mpr ⟨t, ht, hr'⟩)⟩
  nodup := ⟨hq.orderly.sound.linked.keys_nodup, hq.orderly'.sound.linked.keys_nodup⟩

end Steps

end Rehearses

end Engine

end StyleBook
