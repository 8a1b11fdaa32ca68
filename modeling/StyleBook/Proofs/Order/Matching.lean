import StyleBook.Proofs.Order.Mirrors
import StyleBook.Proofs.Order.Seclusion
import StyleBook.Proofs.Order.Twins

namespace StyleBook

/-!
# Engines that match

Two scripts declare side by side, in engines that will have processed the same definitions. What
they have declared resembles each other, and so do the scopes that are processed in both. Then
processing takes alike steps in both engines.

* `Scope.Kindred`, `Scope.Resembles` — scopes that say alike things and inherit alike things;
* `Engine.Matched` — twins that resemble each other in the end, and their rules have the same names;
* `Engine.Abreast` — two engines in which two scripts stand side by side;
* `Engine.Abreast.processed` — what is processed side by side matches in the end.
-/

/-- Rules that were declared alike, and what is merged of them is alike. -/
structure Rule.Resembles (L : Likeness) (r r' : Rule) : Prop where
  alike : r.Alike L r'
  merged : Option.Rel (Styleset.Alike L) r.merged r'.merged

theorem Rule.Resembles.mono {L L' : Likeness} (hL : L ≤ L') {r r' : Rule} (h : r.Resembles L r') :
    r.Resembles L' r' where
  alike := h.alike.mono hL
  merged := rel_imp h.merged fun _ _ _ _ hm => hm.mono hL

/-- **Scopes that say alike things** under the same slots, and are nested in scopes that
    correspond. -/
structure Scope.Kindred (L : Likeness) (s t : Scope) : Prop where
  named : s.named = t.named
  order : s.order = t.order
  rules : List.Forall₂ (Rule.Resembles L) s.rules t.rules
  owner : Option.Rel L.scopes s.owner t.owner
  children : List.Forall₂ L.scopes s.children t.children

/-- **Scopes that resemble each other** are also called the same, and extend scopes that
    correspond. -/
structure Scope.Resembles (L : Likeness) (s t : Scope) : Prop extends Kindred L s t where
  name : s.name = t.name
  names : s.names = t.names
  base : Option.Rel L.scopes s.base t.base

/-- Scopes that echo each other say alike things. -/
theorem Scope.Echoes.kindred {L M : Likeness} {s t : Scope} (h : s.Echoes L M t) (hM : M ≤ L) :
    s.Kindred L t where
  named := h.named
  order := h.order
  rules := h.rules.imp fun _ _ h => ⟨h.alike, h.merged⟩
  owner := rel_imp h.owner fun _ _ _ _ => hM.scopes
  children := h.children.imp fun _ _ => hM.scopes

/-- Scopes that correspond in all that processing looks at resemble each other. -/
theorem Scope.Mirrors.resembles {L M : Likeness} {s t : Scope} (h : s.Mirrors L M t) (hM : M ≤ L) :
    s.Resembles L t where
  toKindred := h.toEchoes.kindred hM
  name := h.name
  names := h.names
  base := rel_imp h.base fun _ _ _ _ => hM.scopes

namespace Scope.Kindred

variable {L L' : Likeness} {s t : Scope}

theorem mono (hL : L ≤ L') (h : s.Kindred L t) : s.Kindred L' t where
  named := h.named
  order := h.order
  rules := h.rules.imp fun _ _ hr => hr.mono hL
  owner := rel_imp h.owner fun _ _ _ _ => hL.scopes
  children := h.children.imp fun _ _ => hL.scopes

theorem rule? (h : s.Kindred L t) (key : Nat) :
    Option.Rel (Rule.Resembles L) (s.rule? key) (t.rule? key) := forall₂_getElem? h.rules key

end Scope.Kindred

namespace Engine

variable {e e' f f' F G : Engine} {root root' k j : ScopeId}
    {roots roots' : List ScopeId} {s t : Scope}
  {units : UnitTable} {key : Nat}

/-! ### Scopes that match -/

/-- **What resembles each other corresponds in all that processing looks at,** since no link leaves
    what a script knows. -/
theorem mirrors_of_resembles (ho : Orderly (root :: roots) e) (ho' : Orderly (root' :: roots') f)
    (hkj : (shared F G units root root' e f).scopes k j) (hs : e.scope? k = some s)
    (ht : f.scope? j = some t) (h : s.Resembles (twins F G units) t) :
    s.Mirrors (twins F G units) (shared F G units root root' e f) t := by
  -- Scopes that a script sees mention scopes that it sees.
  have hE : Encloses (e.Sees root) e := ho.sound.encloses ho.inherits List.mem_cons_self
  have hE' : Encloses (f.Sees root') f := ho'.sound.encloses ho'.inherits List.mem_cons_self
  obtain ⟨htwin, hk, hj⟩ := hkj
  refine ⟨⟨h.named, h.order, ?_, ?_, ?_⟩, h.name, h.names, ?_⟩
  -- Rules: their parents are seen from where the rules stand.
  · refine List.forall₂_iff_get.mpr ⟨h.rules.length_eq, fun key hlt hlt' => ?_⟩
    have hr : e.rule? k key = some (s.rules.get ⟨key, hlt⟩) :=
      rule?_eq_some_iff.mpr ⟨s, hs, List.getElem?_eq_getElem hlt⟩
    have hr' : f.rule? j key = some (t.rules.get ⟨key, hlt'⟩) :=
      rule?_eq_some_iff.mpr ⟨t, ht, List.getElem?_eq_getElem hlt'⟩
    have hrule := (List.forall₂_iff_get.mp h.rules).2 key hlt hlt'
    refine ⟨hrule.alike,
      pairing_cell ⟨htwin, hk, hj⟩ ho.vacant.toIndexed ho'.vacant.toIndexed hr hr',
      hrule.merged, rel_imp hrule.alike.content.body? fun b b' hb hb' hbody => ?_⟩
    refine forall₂_imp hbody.parents fun p hp p' hp' hpp' => ⟨⟨hpp'.scope, ?_, ?_⟩, hpp'.key⟩
    · exact hE.parent (p := p.place) (r := (k, key))
        (parent_of_mem ((body?_of_rule (r := (k, key)) hr).trans hb) hp) hk
    · exact hE'.parent (p := p'.place) (r := (j, key))
        (parent_of_mem ((body?_of_rule (r := (j, key)) hr').trans hb') hp') hj
  -- The owner, the nested scopes and the base, which is settled already.
  · exact rel_imp h.owner fun o o' hown hown' howner =>
      ⟨howner, hE.owner hs hk hown, hE'.owner ht hj hown'⟩
  · exact forall₂_imp h.children fun c hc c' hc' hchild =>
      ⟨hchild, hE.child hs hk hc, hE'.child ht hj hc'⟩
  · refine rel_imp h.base fun b b' hb hb' hbase => ⟨hbase, ?_, ?_⟩
    · obtain ⟨u, hu, hsettled, -⟩ := ho.layered.base_ready hs hb
      exact .inr ⟨u, hu, hsettled⟩
    · obtain ⟨u, hu, hsettled, -⟩ := ho'.layered.base_ready ht hb'
      exact .inr ⟨u, hu, hsettled⟩

/-- **Twins that match in the end:** they resemble each other, and their
    rules have the same names. -/
structure Matched (F G : Engine) (units : UnitTable) (k j : ScopeId) : Prop where
  scope : ∃ s t, F.scope? k = some s ∧ G.scope? j = some t ∧ s.Resembles (twins F G units) t
  cell {key a b : Nat} : F.HeldAt k key a → G.HeldAt j key b → F.cells.get? a = G.cells.get? b

/-- **Two engines in which two scripts stand side by side,** on their way to `F` and `G`: the scopes
    that they declare resemble each other, and those that are processed match in the end. -/
structure Abreast (F G : Engine) (units : UnitTable) (root root' : ScopeId)
    (e f : Engine) : Prop where
  settled {k j : ScopeId} : Twin F G k j → e.Settles k → Matched F G units k j
  drafts {k j : ScopeId} : Twin F G k j → e.Inside root k → f.Inside root' j →
    ∃ s t, e.scope? k = some s ∧ f.scope? j = some t ∧ s.Resembles (twins F G units) t

/-! ### Twins on the way -/

/-- The scope of a definition that declares is not nested later either. -/
theorem Sound.root_later (hs : Sound (root :: roots) e) (h : Endures e e') :
    ∃ s, e'.scope? root = some s ∧ s.owner = none := by
  obtain ⟨s, hroot, ho⟩ := hs.root_owner List.mem_cons_self
  obtain ⟨s', hs', ho'⟩ := h.owner root s hroot
  exact ⟨s', hs', ho'.trans ho⟩

/-- The places of names are those of the scope. -/
theorem HeldAt.congr {cell : Nat} (h : e'.HeldAt k key cell) (hk : e.scope? k = e'.scope? k) :
    e.HeldAt k key cell := by
  unfold HeldAt rule? at h ⊢
  rwa [hk]

/-- Processing keeps the places of names. -/
theorem HeldAt.processed {cell : Nat} (h : e'.HeldAt k key cell)
    (hrun : processScope root e = (.ok (), e')) : e.HeldAt k key cell := by
  obtain ⟨r, hr, hcell⟩ := h
  obtain ⟨s', hs', hkey⟩ := rule?_eq_some_iff.mp hr
  have hreindexed := processScope_reindexed root e
  rw [hrun] at hreindexed
  obtain ⟨s, hs, hR⟩ := hreindexed.back hs'
  obtain ⟨q, hq, heq⟩ := hR.back hkey
  exact ⟨q, rule?_eq_some_iff.mpr ⟨s, hs, hq⟩, heq.symm.trans hcell⟩

/-- The place of a name of a processed scope is not open. -/
theorem Indexed.not_open {cell : Nat} (hi : Indexed e) (hk : e.Settles k)
    (hcell : e.HeldAt k key cell) :
    ¬ e.Open cell := by
  rintro ⟨j, t, ht, hun, hholds⟩
  obtain ⟨s, hs, hsettled⟩ := hk
  obtain ⟨r, hr, hc⟩ := hcell
  obtain ⟨s', hs', hkey⟩ := rule?_eq_some_iff.mp hr
  cases hs.symm.trans hs'
  obtain rfl := hi.holds_inj hs ht ⟨r, List.mem_of_getElem? hkey, hc⟩ hholds
  cases hs.symm.trans ht
  exact hun hsettled

/-- The name of a rule of a processed scope is kept. -/
theorem Endures.cell {cell : Nat} (h : Endures e F) (hi : Indexed e) (hk : e.Settles k)
    (hcell : e.HeldAt k key cell) : F.cells.get? cell = e.cells.get? cell := by
  obtain ⟨r, hr, hc⟩ := hcell
  obtain ⟨cell', hc', hlt⟩ := hi.placed hr
  cases hc.symm.trans hc'
  exact h.kept.cells hlt (hi.not_open hk ⟨r, hr, hc⟩)

/-- A rule of a scope that declares has no name yet. -/
theorem Orderly.unfilled {cell : Nat} (h : Orderly (root :: roots) e) (hk : e.Inside root k)
    (hcell : e.HeldAt k key cell) : e.cells.get? cell = none := by
  obtain ⟨r, hr, hc⟩ := hcell
  obtain ⟨s, hs, hkey⟩ := rule?_eq_some_iff.mp hr
  exact h.vacant.unfilled ⟨k, s, hs, h.sound.unsettled List.mem_cons_self hk hs,
    r, List.mem_of_getElem? hkey, hc⟩

/-! ### Side by side -/

/-- **The two ways that engines go** in which two scripts stand side by side. -/
structure Courses (F G : Engine) (root root' : ScopeId) (roots roots' : List ScopeId)
    (e f : Engine) :
    Prop where
  linked : Linked F
  linked' : Linked G
  twin : Twin F G root root'
  orderly : Orderly (root :: roots) e
  orderly' : Orderly (root' :: roots') f
  endures : Endures e F
  endures' : Endures f G

namespace Courses

variable (hc : Courses F G root root' roots roots' e f)
include hc

theorem symm : Courses G F root' root roots' roots f e :=
  ⟨hc.linked', hc.linked, hc.twin.symm, hc.orderly', hc.orderly, hc.endures', hc.endures⟩

theorem exact : (shared F G units root root' e f).Exact :=
  shared_exact hc.linked hc.linked' hc.orderly.vacant.toIndexed hc.orderly'.vacant.toIndexed

/-- The twin of a scope that is declared is declared on the other side, as soon as it is there. -/
theorem declared (h : Twin F G k j) (hk : e.Inside root k) (hj : f.scope? j = some t) :
    f.Inside root' j := by
  have howner := hc.orderly.sound.root_later hc.endures
  have hin := hc.twin.inside hc.linked hc.linked' howner h (hc.endures.inside hk)
  exact hc.endures'.inside_back hc.orderly'.sound.linked hj hin

/-- **Twins that two scripts know are declared by both, or processed in both.** -/
theorem alongside (h : Twin F G k j) (hk : e.Sees root k) (hj : f.Sees root' j) :
    e.Inside root k ∧ f.Inside root' j ∨ e.Settles k ∧ f.Settles j := by
  rcases hk with hk | ⟨s, hs, hsettled⟩
  · obtain ⟨t, ht⟩ : ∃ t, f.scope? j = some t := hj.elim Inside.live fun ⟨t, ht, _⟩ => ⟨t, ht⟩
    exact .inl ⟨hk, hc.declared h hk ht⟩
  · rcases hj with hj | hj
    · exact .inl ⟨hc.symm.declared h.symm hj hs, hj⟩
    · exact .inr ⟨⟨s, hs, hsettled⟩, hj⟩

end Courses

namespace Abreast

/-- Scopes that both scripts know resemble each other. -/
theorem resembles (h : Abreast F G units root root' e f)
    (hc : Courses F G root root' roots roots' e f)
    (hkj : (shared F G units root root' e f).scopes k j) :
    ∃ s t, e.scope? k = some s ∧ f.scope? j = some t ∧ s.Resembles (twins F G units) t := by
  obtain ⟨htwin, hk, hj⟩ := hkj
  rcases hc.alongside htwin hk hj with ⟨hin, hin'⟩ | ⟨hset, hset'⟩
  · exact h.drafts htwin hin hin'
  · obtain ⟨s, t, hs, ht, hst⟩ := (h.settled htwin hset).scope
    obtain ⟨s', hs', hsettled⟩ := hset
    obtain ⟨t', ht', hsettled'⟩ := hset'
    cases hs.symm.trans (hc.endures.settled hs' hsettled)
    cases ht.symm.trans (hc.endures'.settled ht' hsettled')
    exact ⟨s, t, hs', ht', hst⟩

/-- The names in places that correspond are the same. -/
theorem cell {a b : Nat} (h : Abreast F G units root root' e f)
    (hc : Courses F G root root' roots roots' e f)
    (hab : (shared F G units root root' e f).cells a b) :
    e.cells.get? a = f.cells.get? b := by
  obtain ⟨k, j, key, ⟨htwin, hk, hj⟩, ha, hb⟩ := hab
  rcases hc.alongside htwin hk hj with ⟨hin, hin'⟩ | ⟨hset, hset'⟩
  · rw [hc.orderly.unfilled hin ha, hc.orderly'.unfilled hin' hb]
  · have hsame := (h.settled htwin hset).cell (ha.anchors hc.endures.anchors)
      (hb.anchors hc.endures'.anchors)
    rwa [hc.endures.cell hc.orderly.vacant.toIndexed hset ha,
      hc.endures'.cell hc.orderly'.vacant.toIndexed hset' hb] at hsame

/-- **What two scripts know corresponds in all that processing looks at.** -/
theorem tallies (h : Abreast F G units root root' e f)
    (hc : Courses F G root root' roots roots' e f) :
    Tallies (twins F G units) (shared F G units root root' e f) e f where
  scope hkj := by
    obtain ⟨s, t, hs, ht, hst⟩ := h.resembles hc hkj
    exact ⟨s, t, hs, ht, mirrors_of_resembles hc.orderly hc.orderly' hkj hs ht hst⟩
  cell hab := h.cell hc hab
  nodup := ⟨hc.orderly.sound.linked.keys_nodup, hc.orderly'.sound.linked.keys_nodup⟩

/-- **What is processed side by side matches in the end.** -/
theorem processed (h : Abreast F G units root root' e f)
    (hc : Courses F G root root' roots roots' e f) (hrun : processScope root e = (.ok (), e'))
    (hrun' : processScope root' f = (.ok (), f')) (hl : Linked f') (hi : Indexed e')
    (hi' : Indexed f')
    (he : Endures e' F) (hf : Endures f' G) (hsteady : Steady e e')
    (hsteady' : Steady f f') (htwin : Twin F G k j) (hk : e'.Settles k) :
    Matched F G units k j := by
  -- Either the scope belongs to the root that is processed now, or it was settled before.
  have hs := hc.orderly.sound
  obtain ⟨r, hr, -⟩ := hs.root_owner List.mem_cons_self
  obtain ⟨r', hr', -⟩ := hc.orderly'.sound.root_owner List.mem_cons_self
  obtain ⟨s', hk', hsettled⟩ := hk
  by_cases hin : e.Inside root k
  · -- The scope was processed now, and so was its twin.
    have hproc := hs.pending.processScope hs
    have hproc' := hc.orderly'.sound.pending.processScope hc.orderly'.sound
    rw [hrun] at hproc
    rw [hrun'] at hproc'
    have hdone : f'.Inside root' j := by
      obtain ⟨t, ht, -⟩ := hproc'.progressed.scope hr'
      exact hf.inside_settled hl hc.linked' ⟨t, ht, hproc'.settled rfl (.root hr') ht⟩
        (hc.twin.inside hc.linked hc.linked' (hs.root_later hc.endures) htwin
          (hc.endures.inside hin))
    have hin' : f.Inside root' j := hproc'.inside_iff.mp hdone
    have hkj : (shared F G units root root' e f).scopes k j := ⟨htwin, .inl hin, .inl hin'⟩
    have htallies := (Together.processWithin hc.exact e.walkLimit f.walkLimit
      ⟨hc.twin, .inl (.root hr), .inl (.root hr')⟩).tallies (h.tallies hc) hrun hrun'
      hsteady hsteady'
    obtain ⟨s, t, hs₁, ht₁, hst⟩ := htallies.scope hkj
    cases hk'.symm.trans hs₁
    have hsettled' := hproc'.settled rfl hin' ht₁
    have hsF := he.settled hs₁ hsettled
    have htG := hf.settled ht₁ hsettled'
    refine ⟨⟨s', t, hsF, htG, hst.resembles (shared_le_twins hc.endures hc.endures')⟩,
      fun {key a b} ha hb => ?_⟩
    replace ha := ha.congr (hs₁.trans hsF.symm)
    replace hb := hb.congr (ht₁.trans htG.symm)
    rw [he.cell hi ⟨s', hs₁, hsettled⟩ ha, hf.cell hi' ⟨t, ht₁, hsettled'⟩ hb]
    exact htallies.cell ⟨k, j, key, hkj, ha.processed hrun, hb.processed hrun'⟩
  -- Processing another root has not changed it.
  · have hlayout := processScope_layout root e
    rw [hrun] at hlayout
    obtain ⟨s, hs₁, -⟩ := hlayout.back hk'
    cases (processScope_secludes hs hc.orderly.inherits hrun k s hs₁ hin).symm.trans hk'
    exact h.settled htwin ⟨s', hs₁, hsettled⟩

end Abreast

end Engine

end StyleBook
