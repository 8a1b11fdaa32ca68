import StyleBook.Proofs.Order.Growing
import StyleBook.Proofs.Script.Uniform

namespace StyleBook

/-!
# Twins

Engines that have processed the same definitions have numbered scopes differently. Which scope is
which is told by their definitions, and by where scopes are nested.

* `Engine.Twin` — a scope of one engine and the same one of another one;
* `Engine.Twin.biUnique` — no scope has two twins;
* `Engine.pairing` — places of names correspond that stand at the same keys of scopes that do;
* `Engine.twins`, `Engine.shared` — the likeness of twins, and of those that two scripts know which
  declare side by side.
-/

namespace Engine

variable {e e' f f' F G : Engine} {root root' k j : ScopeId} {s t : Scope}

/-- **The same scope in two engines:** that of one definition, or one that is nested at the same
    place of the same scope. -/
inductive Twin (F G : Engine) : ScopeId → ScopeId → Prop
  | entry {d k j} (hk : F.scopeOf? d = some k) (hj : G.scopeOf? d = some j) : Twin F G k j
  | nested {k j s t c c'} {n : Nat} (h : Twin F G k j) (hs : F.scope? k = some s)
      (ht : G.scope? j = some t)
    (hc : s.children[n]? = some c) (hc' : t.children[n]? = some c') : Twin F G c c'

namespace Twin

theorem symm (h : Twin F G k j) : Twin G F j k := by
  induction h with
  | entry hk hj => exact .entry hj hk
  | nested _ hs ht hc hc' ih => exact .nested ih ht hs hc' hc

/-- A scope of a definition, or one that is nested, is there. -/
theorem live (hF : Linked F) (h : Twin F G k j) : ∃ s, F.scope? k = some s := by
  cases h with
  | entry hk _ =>
    obtain ⟨s, hs, -⟩ := hF.singleton_live hk
    exact ⟨s, hs⟩
  | nested _ hs _ hc _ =>
    obtain ⟨t, ht, -⟩ := hF.child_owner hs (List.mem_of_getElem? hc)
    exact ⟨t, ht⟩

/-- **No scope has two twins.** -/
theorem unique {j' : ScopeId} (hF : Linked F) (h : Twin F G k j) (h' : Twin F G k j') : j = j' := by
  -- A scope with an entry has no owner and a nested one has, so both ways end alike.
  induction h generalizing j' with
  | entry hk hj =>
    obtain ⟨s, hs, ho⟩ := hF.singleton_live hk
    cases h' with
    | entry hk' hj' =>
      cases hF.singleton_inj hk hk'
      exact Option.some.inj (hj.symm.trans hj')
    | nested _ ht _ hc _ =>
      obtain ⟨s', hs', ho'⟩ := hF.child_owner ht (List.mem_of_getElem? hc)
      cases hs.symm.trans hs'
      cases ho.symm.trans ho'
  | nested _ hs ht hc hc' ih =>
    obtain ⟨u, hu, ho⟩ := hF.child_owner hs (List.mem_of_getElem? hc)
    cases h' with
    | entry hk' _ =>
      obtain ⟨u', hu', ho'⟩ := hF.singleton_live hk'
      cases hu.symm.trans hu'
      cases ho.symm.trans ho'
    | nested h₂ hs₂ ht₂ hc₂ hc₂' =>
      obtain ⟨u', hu', ho'⟩ := hF.child_owner hs₂ (List.mem_of_getElem? hc₂)
      cases hu.symm.trans hu'
      cases ho.symm.trans ho'
      cases hs.symm.trans hs₂
      cases ih h₂
      cases ht.symm.trans ht₂
      -- No scope nests another one twice, so the places agree.
      obtain ⟨hlt, -⟩ := List.getElem?_eq_some_iff.mp hc
      obtain rfl := (List.getElem?_inj hlt (hF.children_nodup hs)).mp (hc.trans hc₂.symm)
      exact Option.some.inj (hc'.symm.trans hc₂')

theorem biUnique (hF : Linked F) (hG : Linked G) : Relator.BiUnique (Twin F G) :=
  ⟨fun _ _ _ h h' => h.symm.unique hG h'.symm, fun _ _ _ h h' => h.unique hF h'⟩

/-- The twin of a scope that is inside of the scope of a definition is inside of that one's twin. -/
theorem inside (hF : Linked F) (hG : Linked G) (hroot : Twin F G root root')
    (howner : ∃ s, F.scope? root = some s ∧ s.owner = none) (h : Twin F G k j)
    (hin : F.Inside root k) : G.Inside root' j := by
  -- Twins climb together: an owner's twin is the twin's owner.
  induction h with
  | entry hk hj =>
    obtain ⟨s, hs, ho⟩ := hF.singleton_live hk
    obtain rfl := hin.eq_of_owner ⟨s, hs, ho⟩
    obtain ⟨t, ht, -⟩ := hG.singleton_live hj
    cases hroot.unique hF (.entry hk hj)
    exact .root ht
  | nested h hs ht hc hc' ih =>
    obtain ⟨u, hu, ho⟩ := hF.child_owner hs (List.mem_of_getElem? hc)
    obtain ⟨u', hu', ho'⟩ := hG.child_owner ht (List.mem_of_getElem? hc')
    refine .nested hu' ho' (ih ?_)
    cases hin with
    -- The root has no owner, so the walk does not end at a nested scope.
    | root _ =>
      obtain ⟨v, hv, hnone⟩ := howner
      cases hu.symm.trans hv
      cases ho.symm.trans hnone
    | nested hu₂ ho₂ hin =>
      cases hu.symm.trans hu₂
      cases ho.symm.trans ho₂
      exact hin

end Twin

/-! ### Places of names -/

/-- A place of a name stays at its key. -/
theorem HeldAt.anchors {key cell : Nat} (h : e.HeldAt k key cell) (ha : Anchors e e') :
    e'.HeldAt k key cell := by
  obtain ⟨r, hr, hcell⟩ := h
  obtain ⟨s, hs, hkey⟩ := rule?_eq_some_iff.mp hr
  obtain ⟨s', hs', hanchored⟩ := ha k s hs
  obtain ⟨r', hr', hcell'⟩ := hanchored.cell hkey
  exact ⟨r', rule?_eq_some_iff.mpr ⟨s', hs', hr'⟩, hcell'.trans hcell⟩

/-- **What corresponds if these scopes do:** the places of names at the same keys. -/
def pairing (P : ScopeId → ScopeId → Prop) (e f : Engine) (units : UnitTable) : Likeness where
  cells a b := ∃ k j key, P k j ∧ e.HeldAt k key a ∧ f.HeldAt j key b
  scopes := P
  sources _ := True
  units := units

variable {P Q : ScopeId → ScopeId → Prop} {units : UnitTable}

/-- No place corresponds to two, since each rule has a place of its own. -/
theorem pairing_exact (hP : Relator.BiUnique P) (he : Indexed e) (hf : Indexed f) :
    (pairing P e f units).Exact where
  cells := by
    constructor
    · rintro a a' b ⟨k, j, key, hkj, ⟨r, hr, ha⟩, q, hq, hb⟩
        ⟨k', j', key', hkj', ⟨r', hr', ha'⟩, q', hq', hb'⟩
      obtain ⟨rfl, rfl⟩ := hf.own hq hq' (hb'.trans hb.symm)
      obtain rfl := hP.1 hkj hkj'
      cases hr.symm.trans hr'
      exact Option.some.inj (ha.symm.trans ha')
    · rintro a b b' ⟨k, j, key, hkj, ⟨r, hr, ha⟩, q, hq, hb⟩
        ⟨k', j', key', hkj', ⟨r', hr', ha'⟩, q', hq', hb'⟩
      obtain ⟨rfl, rfl⟩ := he.own hr hr' (ha'.trans ha.symm)
      obtain rfl := hP.2 hkj hkj'
      cases hq.symm.trans hq'
      exact Option.some.inj (hb.symm.trans hb')
  scopes := hP

/-- More places correspond later. -/
theorem pairing_mono (hPQ : ∀ {k j}, P k j → Q k j) (he : Anchors e e') (hf : Anchors f f') :
    pairing P e f units ≤ pairing Q e' f' units where
  cells := fun ⟨k, j, key, hkj, ha, hb⟩ => ⟨k, j, key, hPQ hkj, ha.anchors he, hb.anchors hf⟩
  scopes := hPQ
  sources h := h
  units := rfl

/-- The places of rules at the same key correspond. -/
theorem pairing_cell {key : Nat} {r r' : Rule} (hkj : P k j) (he : Indexed e) (hf : Indexed f)
    (hr : e.rule? k key = some r) (hr' : f.rule? j key = some r') :
    Option.Rel (pairing P e f units).cells r.cell r'.cell := by
  obtain ⟨a, ha, -⟩ := he.placed hr
  obtain ⟨b, hb, -⟩ := hf.placed hr'
  rw [ha, hb]
  exact .some ⟨k, j, key, hkj, ⟨r, hr, ha⟩, r', hr', hb⟩

/-- **Handles of rules at the same key are alike,** if so are the rules. -/
theorem refOf_alike {key : Nat} {r r' : Rule} (hkj : P k j) (he : Indexed e) (hf : Indexed f)
    (hr : e.rule? k key = some r) (hr' : f.rule? j key = some r') {L : Likeness}
    (h : r.Alike L r') :
    (Scope.refOf k key r).Alike (pairing P e f units) (Scope.refOf j key r') where
  scope := hkj
  key := rfl
  kind := h.content.kind
  slot := congrArg (·.getD "") h.slot
  cell := by
    have hcell : Option.Rel (pairing P e f units).cells r.cell r'.cell :=
      pairing_cell hkj he hf hr hr'
    unfold Scope.refOf
    generalize r.cell = cell, r'.cell = cell' at hcell
    cases hcell with
    | none => exact .empty
    | some hcell => exact .ofRule hcell
  template := h.content.template?

/-! ### Which scopes correspond -/

/-- **All twins correspond.** -/
def twins (F G : Engine) (units : UnitTable) : Likeness := pairing (Twin F G) F G units

/-- The scope is inside of the one that declares, or processed. -/
def Sees (e : Engine) (root k : ScopeId) : Prop := e.Inside root k ∨ e.Settles k

/-- **Twins that two scripts know of which declare side by side** in different engines. -/
def shared (F G : Engine) (units : UnitTable) (root root' : ScopeId) (e f : Engine) : Likeness :=
  pairing (fun k j => Twin F G k j ∧ e.Sees root k ∧ f.Sees root' j) e f units

theorem Endures.sees (h : Endures e e') (hk : e.Sees root k) : e'.Sees root k :=
  hk.imp h.inside h.settles

theorem shared_mono (he : Endures e e') (hf : Endures f f') :
    shared F G units root root' e f ≤ shared F G units root root' e' f' :=
  pairing_mono (fun h => ⟨h.1, he.sees h.2.1, hf.sees h.2.2⟩) he.anchors hf.anchors

theorem shared_le_twins (he : Endures e F) (hf : Endures f G) :
    shared F G units root root' e f ≤ twins F G units :=
  pairing_mono (fun h => h.1) he.anchors hf.anchors

theorem shared_exact (hF : Linked F) (hG : Linked G) (he : Indexed e) (hf : Indexed f) :
    (shared F G units root root' e f).Exact :=
  have hexact := Twin.biUnique hF hG
  pairing_exact ⟨fun _ _ _ h h' => hexact.1 h.1 h'.1, fun _ _ _ h h' => hexact.2 h.1 h'.1⟩ he hf

end Engine

end StyleBook
