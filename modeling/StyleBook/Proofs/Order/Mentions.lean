import StyleBook.Proofs.Order.SideBySide

namespace StyleBook

/-!
# What processed scopes mention

A script that depends only on what its calls return gets handles of processed scopes, and of those
that it declares. So the rules of a processed scope mention no scope that is not processed, in their
values as little as in what they inherit.

* `Engine.selves` — some scopes correspond to themselves, and nothing else to anything;
* `Engine.Mentions` — the rules of some scopes are alike to themselves then;
* `Engine.Discreet` — so are those of processed scopes, and of scopes that declare;
* `Engine.Discreet.addRule`, … — steps of scripts keep this;
* `Engine.Discreet.processed` — processing does;
* `Circumspect` — a script stands where it declares, and knows what it mentions;
  `Circumspect.add`, … — so it is behind each step.
-/

/-- Rules that say alike things correspond, if they are at corresponding places. -/
theorem Rule.Resembles.mirrors {L : Likeness} {r r' : Rule} (h : r.Resembles L r')
    (hcell : Option.Rel L.cells r.cell r'.cell) : r.Mirrors L L r' where
  alike := h.alike
  cell := hcell
  merged := h.merged
  parents := rel_imp h.alike.content.body? fun _ _ _ _ hbody =>
    hbody.parents.imp fun _ _ hp => ⟨hp.scope, hp.key⟩

namespace Engine

variable {e e' e₁ : Engine} {root k b child : ScopeId} {roots : List ScopeId} {s s₁ : Scope}
  {units : UnitTable} {A B A' B' : ScopeId → Prop}

/-- **Some scopes correspond to themselves,** with the places of their rules. -/
def selves (units : UnitTable) (A : ScopeId → Prop) (e : Engine) : Likeness :=
  pairing (fun k j => k = j ∧ A k) e e units

theorem selves_exact (h : Indexed e) : (selves units A e).Exact :=
  pairing_exact ⟨fun _ _ _ h h' => h.1.trans h'.1.symm, fun _ _ _ h h' => h.1.symm.trans h'.1⟩ h h

theorem selves_mono (hA : ∀ {k}, A k → B k) (h : Anchors e e') :
    selves units A e ≤ selves units B e' := pairing_mono (fun h => ⟨h.1, hA h.2⟩) h h

/-- A report is about no scope. -/
theorem selves_report (e : Engine) (event : Event) (root : ScopeId) :
    selves units ((e.report event).Sees root) (e.report event) = selves units (e.Sees root) e := by
  unfold selves Sees
  simp only [inside_report]
  rfl

/-- **The rules of scopes in `A` mention only scopes in `B`.** -/
structure Mentions (units : UnitTable) (A B : ScopeId → Prop) (e : Engine) : Prop where
  rules {k : ScopeId} {s : Scope} : A k → e.scope? k = some s →
    ∀ r ∈ s.rules, r.Resembles (selves units B e) r

/-- Scopes that are as they were mention what they mentioned. -/
theorem Mentions.later (h : Mentions units A B e) (ha : Anchors e e')
    (hback : ∀ {k t}, A' k → e'.scope? k = some t → A k ∧ e.scope? k = some t)
    (hB : ∀ {k}, B k → B' k) : Mentions units A' B' e' where
  rules hk ht r hr := by
    obtain ⟨hk, ht⟩ := hback hk ht
    exact (h.rules hk ht r hr).mono (selves_mono hB ha)

/-- **Processed scopes mention processed ones only,** and those that declare mention only what their
    scripts know. -/
structure Discreet (units : UnitTable) (root : ScopeId) (e : Engine) : Prop where
  settled : Mentions units e.Settles e.Settles e
  drafts : Mentions units (e.Inside root) (e.Sees root) e

namespace Discreet

/-- One scope is changed that declares. -/
theorem alters (h : Discreet units root e) (ha : Alters b s s₁ e e₁) (hend : Endures e e₁)
    (hrules : ∀ r ∈ s₁.rules, r ∈ s.rules ∨ r.Resembles (selves units (e₁.Sees root) e₁) r)
    (hb : e.Inside root b) (hunsettled : ¬ s.Settled) : Discreet units root e₁ where
  settled := h.settled.later hend.anchors (fun {k t} hk ht => by
    have hkb : k ≠ b := fun hkb => by
      obtain ⟨u, hu, hsettled⟩ := ha.settles_back hk
      rw [hkb, ha.old] at hu
      exact hunsettled (Option.some.inj hu ▸ hsettled)
    exact ⟨ha.settles_back hk, (ha.other hkb).symm.trans ht⟩) hend.settles
  drafts := ⟨fun {k t} hk ht r hr => by
    have hmono : selves units (e.Sees root) e ≤ selves units (e₁.Sees root) e₁ :=
      selves_mono hend.sees hend.anchors
    by_cases hkb : k = b
    · subst hkb
      cases ha.new.symm.trans ht
      exact (hrules r hr).elim (fun hr => (h.drafts.rules hb ha.old r hr).mono hmono) id
    · exact (h.drafts.rules (ha.inside_iff.mp hk) ((ha.other hkb).symm.trans ht) r hr).mono hmono⟩

/-- A scope is nested in one that declares. -/
theorem nested (h : Discreet units root e) (hn : Nested b s child e e₁) (hl : Linked e)
    (hend : Endures e e₁) : Discreet units root e₁ where
  settled := h.settled.later hend.anchors (fun {k t} hk ht => by
    obtain ⟨u, hu, hsettled⟩ := hn.settles_back hk
    cases (hend.settled hu hsettled).symm.trans ht
    exact ⟨⟨_, hu, hsettled⟩, hu⟩) hend.settles
  drafts := ⟨fun {k t} hk ht r hr => by
    have hmono : selves units (e.Sees root) e ≤ selves units (e₁.Sees root) e₁ :=
      selves_mono hend.sees hend.anchors
    by_cases hkc : k = child
    · subst hkc
      cases hn.inner.symm.trans ht
      cases hr
    · by_cases hkb : k = b
      · subst hkb
        cases hn.outer.symm.trans ht
        exact (h.drafts.rules (hend.inside_back hl hn.old hk) hn.old r hr).mono hmono
      · have hu := (hn.other hkc hkb).symm.trans ht
        exact (h.drafts.rules (hend.inside_back hl hu hk) hu r hr).mono hmono⟩

/-- A definition is reached meanwhile. -/
theorem leaves (h : Discreet units root e) (hl : Leaves (root :: roots) e e₁)
    (hs : Sound (root :: roots) e) (hm : Mentions units e₁.Settles e₁.Settles e₁) :
    Discreet units root e₁ where
  settled := hm
  drafts := h.drafts.later hl.grows.evolves.anchors (fun {k t} hk ht => by
    have hin := hl.inside_back hs hk
    obtain ⟨u, hu⟩ := hin.live
    cases (hl.scope hu).symm.trans ht
    exact ⟨hin, hu⟩) hl.grows.endures.sees

/-- A definition has opened its scope, which is empty. -/
theorem opened {μ : Type} {d : Definition μ} (h : Mentions units e.Settles e.Settles e)
    (hs : Sound roots e) (hg : Grows e (opened d e)) :
    Discreet units e.nextScope (opened d e) where
  settled := h.later hg.evolves.anchors (fun {k t} ⟨u, hu, hsettled⟩ ht => by
    cases hu.symm.trans ht
    rw [scope?_opened] at ht
    split at ht
    · cases ht
      exact absurd rfl hsettled
    · exact ⟨⟨t, ht, hsettled⟩, ht⟩) hg.endures.settles
  drafts := ⟨fun {k t} hk ht r hr => by
    obtain rfl := inside_opened hs hk
    rw [scope?_opened, if_pos rfl] at ht
    cases ht
    cases hr⟩

/-- The rules that a script knows of mention nothing else. -/
theorem rules (h : Discreet units root e) (hk : e.Sees root k) (hs : e.scope? k = some s)
    {r : Rule} (hr : r ∈ s.rules) : r.Resembles (selves units (e.Sees root) e) r :=
  hk.elim (fun hin => h.drafts.rules hin hs r hr) fun hsettled =>
    (h.settled.rules hsettled hs r hr).mono (selves_mono .inr (refl_of Grows e).evolves.anchors)

/-- So do their handles. -/
theorem handle (h : Discreet units root e) (hi : Indexed e) (hk : e.Sees root k) {key : Nat}
    {r : RuleRef} (hr : e.refAt? k key = some r) :
    r.Alike (selves units (e.Sees root) e) r := by
  obtain ⟨q, hq, rfl⟩ := Option.map_eq_some_iff.mp hr
  obtain ⟨s, hs, hkey⟩ := rule?_eq_some_iff.mp hq
  exact refOf_alike ⟨rfl, hk⟩ hi hi hq hq (h.rules hk hs (List.mem_of_getElem? hkey)).alike

/-- The handle of a slot, if there is one. -/
theorem findRule (h : Discreet units root e) (hi : Indexed e) (hk : e.Sees root k)
    (slot : String) : Option.Rel (RuleRef.Alike (selves units (e.Sees root) e))
      (e.findRule k slot) (e.findRule k slot) := by
  cases hr : e.findRule k slot with
  | none => exact .none
  | some r =>
    obtain ⟨key, -, hkey⟩ := Option.bind_eq_some_iff.mp hr
    exact .some (h.handle hi hk hkey)

/-- The handles of a definition that is used. -/
theorem collectRefs (h : Discreet units root e) (hi : Indexed e) (hk : e.Sees root k)
    {refs : ScopeRefs} (hrefs : (collectRefs k e).1 = .ok refs) :
    refs.Alike (selves units (e.Sees root) e) refs := by
  obtain ⟨s, hs⟩ : ∃ s, e.scope? k = some s := hk.elim Inside.live fun ⟨s, hs, _⟩ => ⟨s, hs⟩
  rw [collectRefs_eq hs] at hrefs
  cases hrefs
  refine ⟨⟨rfl, hk⟩, rfl, List.forall₂_same.mpr fun p hp => ⟨rfl, ?_⟩⟩
  obtain ⟨⟨slot, key⟩, -, hp⟩ := List.mem_filterMap.mp hp
  obtain ⟨r, hr, rfl⟩ := Option.map_eq_some_iff.mp hp
  exact h.handle hi hk hr

/-- **A rule is declared under a slot,** and mentions only what the script knows. -/
theorem addRule {slot : String} {rule : Rule} {r : RuleRef} (h : Discreet units root e)
    (ho : Orderly (root :: roots) e) (hb : e.Inside root b)
    (hrule : rule.Alike (selves units (e.Sees root) e) rule)
    (hadd : addRule b slot rule e = (.ok r, e₁)) (ho₁ : Orderly (root :: roots) e₁)
    (hend : Endures e e₁) :
    Discreet units root e₁ ∧ r.Alike (selves units (e₁.Sees root) e₁) r := by
  -- The rule put in place carries the given content, so it resembles itself under what is seen by
  -- then.
  obtain ⟨s, hs⟩ := hb.live
  obtain ⟨key, q, s₁, hcontent, -, -, hmerged, ha, hq, rfl, hcases⟩ :=
    addRule_alters hadd hs (ho.vacant.scope hs) (ho.sound.linked.listed hs)
  have hself : q.Resembles (selves units (e₁.Sees root) e₁) q :=
    ⟨⟨hcontent ▸ hrule.content.mono (selves_mono hend.sees hend.anchors), rfl, rfl⟩, by
      rw [hmerged]; exact .none⟩
  -- Whether the slot was free or taken, the other rules of the scope are the old ones.
  have h₁ : Discreet units root e₁ := h.alters ha hend (fun r hr => by
    rcases hcases with ⟨-, -, rfl⟩ | ⟨-, rfl⟩
    · rcases List.mem_append.mp hr with hold | hnew
      · exact .inl hold
      · exact .inr ((List.mem_singleton.mp hnew).symm ▸ hself)
    · rcases List.mem_or_eq_of_mem_set hr with hold | hnew
      · exact .inl hold
      · exact .inr (hnew.symm ▸ hself)) hb
    (ho.sound.unsettled List.mem_cons_self hb hs)
  have hr : e₁.refAt? b key = some (Scope.refOf b key q) :=
    Option.map_eq_some_iff.mpr ⟨q, rule?_eq_some_iff.mpr ⟨s₁, ha.new, hq⟩, rfl⟩
  exact ⟨h₁, h₁.handle ho₁.vacant.toIndexed (.inl (ha.inside_iff.mpr hb)) hr⟩

/-- **A rule is declared without a slot,** and mentions only what the script knows. -/
theorem addUnnamedRule {rule : Rule} {r : RuleRef} (h : Discreet units root e)
    (ho : Orderly (root :: roots) e) (hb : e.Inside root b)
    (hrule : rule.content.Alike (selves units (e.Sees root) e) rule.content)
    (hadd : addUnnamedRule b rule e = (.ok r, e₁)) (ho₁ : Orderly (root :: roots) e₁)
    (hend : Endures e e₁) :
    Discreet units root e₁ ∧ r.Alike (selves units (e₁.Sees root) e₁) r := by
  obtain ⟨s, hs⟩ := hb.live
  obtain ⟨q, hcontent, -, -, hmerged, ha, rfl⟩ := addUnnamedRule_alters hadd hs
  have hself : q.Resembles (selves units (e₁.Sees root) e₁) q :=
    ⟨⟨hcontent ▸ hrule.mono (selves_mono hend.sees hend.anchors), rfl, rfl⟩, by
      rw [hmerged]; exact .none⟩
  -- The rule comes last; all before it are the old ones.
  have h₁ : Discreet units root e₁ := h.alters ha hend (fun r hr => by
    rcases List.mem_append.mp hr with hold | hnew
    · exact .inl hold
    · exact .inr ((List.mem_singleton.mp hnew).symm ▸ hself)) hb
    (ho.sound.unsettled List.mem_cons_self hb hs)
  have hr : e₁.refAt? b s.rules.length = some (Scope.refOf b s.rules.length q) :=
    Option.map_eq_some_iff.mpr
      ⟨q, rule?_eq_some_iff.mpr ⟨_, ha.new, List.getElem?_concat_length⟩, rfl⟩
  exact ⟨h₁, h₁.handle ho₁.vacant.toIndexed (.inl (ha.inside_iff.mpr hb)) hr⟩

/-- A scope that declares is linked to other ones. -/
theorem modifyScope {g : Scope → Scope} (h : Discreet units root e)
    (ho : Orderly (root :: roots) e) (hb : e.Inside root b)
    (hg : ∀ s, (g s).owner = s.owner ∧ (g s).state = s.state ∧ (g s).rules = s.rules)
    (hend : Endures e (e.modifyScope b g)) : Discreet units root (e.modifyScope b g) := by
  obtain ⟨s, hs⟩ := hb.live
  exact h.alters (.modifyScope hs (hg s).1 (hg s).2.1) hend (fun r hr => .inl ((hg s).2.2 ▸ hr)) hb
    (ho.sound.unsettled List.mem_cons_self hb hs)

/-- **What a script knows echoes itself.** -/
theorem related (h : Discreet units root e) (ho : Orderly (root :: roots) e) :
    Related (Scope.Echoes (selves units (e.Sees root) e) (selves units (e.Sees root) e))
      (selves units (e.Sees root) e) e e where
  scope {k j} hkj := by
    obtain ⟨rfl, hk⟩ := hkj
    have hE : Encloses (e.Sees root) e := ho.sound.encloses ho.inherits List.mem_cons_self
    obtain ⟨s, hs⟩ : ∃ s, e.scope? k = some s := hk.elim Inside.live fun ⟨s, hs, _⟩ => ⟨s, hs⟩
    refine ⟨s, s, hs, hs, rfl, rfl, List.forall₂_same.mpr fun r hr => ?_, ?_, ?_⟩
    · obtain ⟨key, hkey⟩ := List.mem_iff_getElem?.mp hr
      have hrule : e.rule? k key = some r := rule?_eq_some_iff.mpr ⟨s, hs, hkey⟩
      exact (h.rules hk hs hr).mirrors
        (pairing_cell ⟨rfl, hk⟩ ho.vacant.toIndexed ho.vacant.toIndexed hrule hrule)
    · cases howner : s.owner with
      | none => exact .none
      | some o => exact .some ⟨rfl, hE.owner hs hk howner⟩
    · exact List.forall₂_same.mpr fun c hc => ⟨rfl, hE.child hs hk hc⟩
  nodup := ⟨ho.sound.linked.keys_nodup, ho.sound.linked.keys_nodup⟩

/-- **The scope is processed.** What is merged mentions nothing else. -/
theorem processed (h : Discreet units root e) (ho : Orderly (root :: roots) e)
    (hrun : processScope root e = (.ok (), e')) : Mentions units e'.Settles e'.Settles e' := by
  have hs := ho.sound
  have hend := Endures.processed hs hrun
  have hproc := hs.pending.processScope hs
  rw [hrun] at hproc
  obtain ⟨r, hr, -⟩ := hs.root_owner List.mem_cons_self
  have hrelated := (InStep.processWithin (selves_exact ho.vacant.toIndexed) e.walkLimit e.walkLimit
    ⟨rfl, .inl (.root hr)⟩).run (h.related ho) hrun hrun
  -- What the script knows is what is processed then.
  have hsees : ∀ {k}, e.Sees root k → e'.Settles k := fun {k} hk => by
    rcases hk with hin | hsettled
    · obtain ⟨t, ht⟩ := (hend.inside hin).live
      exact ⟨t, ht, hproc.settled rfl hin ht⟩
    · exact hend.settles hsettled
  refine ⟨fun {k t} hk ht q hq => ?_⟩
  have hk₀ : e.Sees root k := by
    by_cases hin : e.Inside root k
    · exact .inl hin
    · have hlayout := processScope_layout root e
      rw [hrun] at hlayout
      obtain ⟨u, hu, -⟩ := hlayout.back ht
      obtain ⟨t', ht', hsettled⟩ := hk
      cases (processScope_secludes hs ho.inherits hrun k u hu hin).symm.trans ht'
      exact .inr ⟨u, hu, hsettled⟩
  obtain ⟨u, v, hu, hv, huv⟩ := hrelated.scope ⟨rfl, hk₀⟩
  cases hu.symm.trans ht
  cases hv.symm.trans ht
  have hq' := List.forall₂_same.mp huv.rules q hq
  exact (⟨hq'.alike, hq'.merged⟩ : q.Resembles _ q).mono (selves_mono hsees hend.anchors)

/-- The definition that has declared does not construct any more. -/
theorem endConstruction (h : Discreet units root e) : Discreet units root e.endConstruction :=
  have hend := Endures.endConstruction e
  ⟨h.settled.later hend.anchors (fun hk ht => ⟨hk, ht⟩) hend.settles,
    h.drafts.later hend.anchors (fun hk ht => ⟨hk.of_owner fun hs => ⟨_, hs, rfl⟩, ht⟩) hend.sees⟩

/-- Something is reported. -/
theorem report (h : Discreet units root e) {event : Event} (hend : Endures e (e.report event)) :
    Discreet units root (e.report event) :=
  ⟨h.settled.later hend.anchors (fun hk ht => ⟨hk, ht⟩) hend.settles,
    h.drafts.later hend.anchors (fun hk ht => ⟨(inside_report event).mp hk, ht⟩) hend.sees⟩

end Discreet

end Engine

/-! ### Scripts -/

open Engine

variable {μ : Type} {library : Library μ} {keys : Nat → Prop} {root : ScopeId}
  {roots : List ScopeId} {b : Builder} {e e' : Engine} {units : UnitTable} {d : Nat}

/-- A script does not forget what it knows. -/
theorem Engine.Declares.selves_le (hd : Declares root roots e e') :
    selves units (e.Sees root) e ≤ selves units (e'.Sees root) e' :=
  selves_mono hd.grows.endures.sees hd.grows.endures.anchors

theorem Engine.Declares.exact (hd : Declares root roots e e') :
    (selves units (e'.Sees root) e').Exact := selves_exact hd.orderly.vacant.toIndexed

/-- **A script stands where it declares,** and so far has mentioned only what it knows. -/
structure Circumspect (keys : Nat → Prop) (units : UnitTable) (root : ScopeId)
    (roots : List ScopeId) (script : Script μ) (b : Builder) (e : Engine) : Prop
    extends Stage keys root roots script b e where
  self : script.Alike (selves units (e.Sees root) e) script
  discreet : Discreet units root e

namespace Circumspect

/-- The script of a definition does not look at places. -/
theorem definition (hcircle : Circle library keys) (hkey : keys d)
    (ho : Orderly (root :: roots) e) (hb : e.Inside root b.scope) (hm : Discreet units root e) :
    Circumspect keys units root roots (library d).script b e where
  toStage := .definition hcircle hkey ho hb
  self := hcircle.uniform hkey _ (selves_exact ho.vacant.toIndexed) fun _ => trivial
  discreet := hm

/-- A definition has opened its scope. -/
theorem opened (hcircle : Circle library keys) (hkey : keys d) (ho : Orderly roots e)
    (hnew : e.scopeOf? (library d).key = none) (hm : Mentions units e.Settles e.Settles e) :
    Circumspect keys units e.nextScope roots (library d).script ⟨e.nextScope, 0⟩
      (Engine.opened (library d) e) :=
  have hopened := ho.opened hcircle hkey hnew
  .definition hcircle hkey hopened.1.orderly hopened.1.inside (.opened hm ho.sound hopened.2)

theorem add {slot : String} {rule : Rule} {next : RuleRef → Script μ} {r : RuleRef}
    (h : Circumspect keys units root roots (.add slot rule next) b e)
    (hadd : addRule b.scope slot rule e = (.ok r, e')) :
    Declares root roots e e' ∧ Circumspect keys units root roots (next r) b e' := by
  obtain ⟨hd, hstage⟩ := h.toStage.add hadd
  cases h.self with
  | add hrule hnext =>
    obtain ⟨hm, hr⟩ :=
      h.discreet.addRule h.orderly h.inside hrule hadd hd.orderly hd.grows.endures
    exact ⟨hd, hstage, hnext hd.selves_le hd.exact hr, hm⟩

theorem addUnnamed {rule : Rule} {next : RuleRef → Script μ} {r : RuleRef}
    (h : Circumspect keys units root roots (.addUnnamed rule next) b e)
    (hadd : addUnnamedRule b.scope rule e = (.ok r, e')) :
    Declares root roots e e' ∧ Circumspect keys units root roots (next r) b e' := by
  obtain ⟨hd, hstage⟩ := h.toStage.addUnnamed hadd
  cases h.self with
  | addUnnamed hrule hnext =>
    obtain ⟨hm, hr⟩ :=
      h.discreet.addUnnamedRule h.orderly h.inside hrule.content hadd hd.orderly hd.grows.endures
    exact ⟨hd, hstage, hnext hd.selves_le hd.exact hr, hm⟩

theorem find {slot : String} {next : Option RuleRef → Script μ}
    (h : Circumspect keys units root roots (.find slot next) b e) :
    Circumspect keys units root roots (next (e.findRule b.scope slot)) b e := by
  cases h.self with
  | find hnext =>
    exact ⟨h.toStage.find,
      hnext (h.discreet.findRule h.orderly.vacant.toIndexed (.inl h.inside) _), h.discreet⟩

theorem scope {next : ScopeId → Script μ}
    (h : Circumspect keys units root roots (.scope next) b e) :
    Circumspect keys units root roots (next b.scope) b e := by
  cases h.self with
  | scope hnext => exact ⟨h.toStage.scope, hnext ⟨rfl, .inl h.inside⟩, h.discreet⟩

theorem nameOf {cell : NameCell} {next : Option String → Script μ} (name : Option String)
    (h : Circumspect keys units root roots (.nameOf cell next) b e) :
    Circumspect keys units root roots (next name) b e := by
  cases h.self with
  | nameOf _ hnext => exact ⟨h.toStage.nameOf name, hnext name, h.discreet⟩

theorem report {event : Event} {next : Script μ}
    (h : Circumspect keys units root roots (.report event next) b e) :
    Declares root roots e (e.report event) ∧
      Circumspect keys units root roots next b (e.report event) := by
  obtain ⟨hd, hstage⟩ := h.toStage.report
  cases h.self with
  | report hnext =>
    exact ⟨hd, hstage, (selves_report e event root).symm ▸ hnext,
      h.discreet.report hd.grows.endures⟩

theorem remember {change : μ → μ} {next : Script μ}
    (h : Circumspect keys units root roots (.remember change next) b e) :
    Circumspect keys units root roots next b e := by
  cases h.self with
  | remember hnext => exact ⟨h.toStage.remember, hnext, h.discreet⟩

/-- A definition is reached that is extended, and its script stands in the scope. -/
theorem extension (hcircle : Circle library keys) {base : ScopeId}
    {next : Except Error ScopeId → Script μ} {s s₁ s₂ : Engine × μ}
    (h : Circumspect keys units root roots (.extend d next) b s.1)
    (hreach : Leaves (root :: roots) s.1 s₁.1) (hm : Mentions units s₁.1.Settles s₁.1.Settles s₁.1)
    (hready : s₁.1.Ready base) (hset : Script.setBase b base s₁ = some (.ok (), s₂)) :
    Declares root roots s₁.1 s₂.1 ∧ s₂.1.Settles base ∧
      Circumspect keys units root roots (library d).script
        { b with depth := b.depth + 1 } s₂.1 := by
  have hin := hreach.grows.extended.inside h.inside
  have hd := Declares.setBase hreach.orderly hin hready hset
  obtain ⟨t, ht, hsettled, -⟩ := hready
  have hm₁ := h.discreet.leaves hreach h.orderly.sound hm
  -- What the scope extends is none of its rules.
  have hm₂ : Discreet units root s₂.1 := by
    have hend := hd.grows.endures
    unfold Script.setBase at hset
    split at hset <;> cases hset
    · exact hm₁.modifyScope hreach.orderly hin (fun _ => ⟨rfl, rfl, rfl⟩) hend
    · exact hm₁
  exact ⟨hd, hd.grows.extended.settles ⟨t, ht, hsettled⟩,
    .definition hcircle h.stays.1 hd.orderly (hd.grows.extended.inside hin) hm₂⟩

/-- A definition has been extended. -/
theorem extend {next : Except Error ScopeId → Script μ} {base : ScopeId}
    (h : Circumspect keys units root roots (.extend d next) b e)
    (hd : Declares root roots e e') (hbase : e'.Settles base) (hm : Discreet units root e') :
    Circumspect keys units root roots (next (.ok base)) b e' := by
  cases h.self with
  | extend hnext =>
    exact ⟨h.toStage.extend hd hbase, hnext hd.selves_le hd.exact ⟨rfl, .inr hbase⟩, hm⟩

/-- A definition is reached that is used, and its rules have been handed out. -/
theorem use {next : Except Error ScopeRefs → Script μ} {used : ScopeId} {refs : ScopeRefs}
    {e₁ : Engine} (h : Circumspect keys units root roots (.use d next) b e)
    (hreach : Leaves (root :: roots) e e₁) (hm : Mentions units e₁.Settles e₁.Settles e₁)
    (hready : e₁.Ready used)
    (hrefs : (collectRefs used (e₁.addReference b.scope used)).1 = .ok refs) :
    Declares root roots e₁ (e₁.addReference b.scope used) ∧
      Circumspect keys units root roots (next (.ok refs)) b (e₁.addReference b.scope used) := by
  have hin := hreach.grows.extended.inside h.inside
  have hd₁ := Declares.addReference hreach.orderly hin hready
  obtain ⟨hd, hused⟩ := h.usage hreach hready
  have hm₂ : Discreet units root (e₁.addReference b.scope used) :=
    (h.discreet.leaves hreach h.orderly.sound hm).modifyScope hreach.orderly hin
      (fun s => by split <;> exact ⟨rfl, rfl, rfl⟩) hd₁.grows.endures
  cases h.self with
  | use hnext =>
    exact ⟨hd₁, h.toStage.use hd hused hrefs, hnext hd.selves_le hd.exact
      (hm₂.collectRefs hd.orderly.vacant.toIndexed (.inr hused) hrefs), hm₂⟩

/-- The script of a group stands in its scope. -/
theorem groupBody {condition : GroupCondition} {body : Script μ}
    {next : Except Error RuleRef → Script μ} {child : ScopeId}
    (h : Circumspect keys units root roots (.group condition body next) b e)
    (hnest : addNested b.scope e = (.ok child, e')) :
    Declares root roots e e' ∧ Circumspect keys units root roots body ⟨child, 0⟩ e' := by
  obtain ⟨hd, hstage⟩ := h.toStage.groupBody hnest
  obtain ⟨t, ht⟩ := h.inside.live
  cases h.self with
  | group hbody _ =>
    exact ⟨hd, hstage, hbody hd.selves_le hd.exact,
      h.discreet.nested (addNested_nested h.orderly.sound.linked ht hnest) h.orderly.sound.linked
        hd.grows.endures⟩

/-- A group has declared its rules, and gets a rule itself. -/
theorem group {condition : GroupCondition} {body : Script μ}
    {next : Except Error RuleRef → Script μ} {child : ScopeId} {r : RuleRef} {e₁ : Engine}
    (h : Circumspect keys units root roots (.group condition body next) b e)
    (hd : Declares root roots e e₁) (hchild : e₁.Inside root child) (hm : Discreet units root e₁)
    (hrule : addUnnamedRule b.scope (.ofContent (.group condition child)) e₁ = (.ok r, e')) :
    Declares root roots e₁ e' ∧ Circumspect keys units root roots (next (.ok r)) b e' := by
  have hin := hd.grows.extended.inside h.inside
  have hlast := Declares.addUnnamedRule hd.orderly hin (fun _ hbody => by cases hbody) hrule
  obtain ⟨hd', hstage⟩ := h.toStage.group hd hrule
  have hcontent : (RuleContent.group condition child).Alike (selves units (e₁.Sees root) e₁)
      (.group condition child) := .group ⟨rfl, .inl hchild⟩
  obtain ⟨hm', hr⟩ := hm.addUnnamedRule hd.orderly hin hcontent hrule hlast.orderly
    hlast.grows.endures
  cases h.self with
  | group _ hnext => exact ⟨hlast, hstage, hnext hd'.selves_le hd'.exact hr, hm'⟩

end Circumspect

end StyleBook
