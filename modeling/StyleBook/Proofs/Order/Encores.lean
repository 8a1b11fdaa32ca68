import StyleBook.Proofs.Name.Heirs
import StyleBook.Proofs.Order.Rehearsals

namespace StyleBook

/-!
# Names of what is declared once more

A scope that extends another one, and declares what that one has declared, is processed. Its rules
inherit alike things, and get the same names: those that they spell, or those of their slots, which
the scope takes over. Slots that only nested scopes declare have their names there as well.

* `Scope.Labelled.of_tidy` — where each slot has one rule, rule and slot have one name;
* `Engine.Encore` — both scopes are processed, one after the other;
* `Engine.Encore.echoes` — they still echo each other;
* `Engine.Encore.cells_agree` — the names of their rules are the same.
-/

namespace Scope

variable {L M : Likeness} {s t : Scope} {names : Names} {slot name : String}

/-- **Where each slot has one rule,** the rule and its slot have one name, which is the one that the
    rule spells, if it does. -/
theorem Labelled.of_tidy (h : s.Labelled names) (hneat : s.Tidy) {key : Nat} {r : Rule}
    (hr : s.rules[key]? = some r) (hslot : r.slot = some slot) (hkind : r.kind.isNamed = true) :
    ∃ name, r.name? names = some name ∧
      (∀ spelled, r.explicitName = some spelled → name = spelled) ∧
      s.nameOf? slot = some name := by
  obtain ⟨name, hname, hspelled, hkept⟩ :=
    h key r slot (List.getElem?_eq_some_iff.mp hr).1 hr hslot hkind
  refine ⟨name, hname, hspelled, hkept fun later _ hlt q hq hq' => ?_⟩
  have hkey := (hneat key r slot hr hslot).symm.trans (hneat later q slot hq hq'.1)
  exact hlt.ne (Option.some.inj hkey)

/-- A name that is spelled for a slot is that of the slot. -/
theorem Labelled.spelled (h : s.Labelled names) (hneat : s.Tidy) (hs : s.Spells slot name) :
    s.nameOf? slot = some name := by
  obtain ⟨r, hmem, hslot, hkind, hexplicit⟩ := hs
  obtain ⟨key, hr⟩ := List.mem_iff_getElem?.mp hmem
  obtain ⟨other, -, hspelled, hkept⟩ := h.of_tidy hneat hr hslot hkind
  rw [hkept, hspelled name hexplicit]

namespace Echoes

/-- Scopes that echo each other spell the same names. -/
theorem spells (h : s.Echoes L M t) : s.Spells slot name ↔ t.Spells slot name := by
  constructor
  · rintro ⟨r, hmem, hslot, hkind, hexplicit⟩
    obtain ⟨key, hr⟩ := List.mem_iff_getElem?.mp hmem
    obtain ⟨r', hr', hm⟩ := rel_some (hr ▸ forall₂_getElem? h.rules key)
    exact ⟨r', List.mem_of_getElem? hr', hm.alike.slot ▸ hslot,
      (congrArg RuleKind.isNamed hm.alike.content.kind).symm.trans hkind,
      hm.alike.explicitName ▸ hexplicit⟩
  -- The second scope has as many rules as the first, so a rule of it stands opposite one.
  · rintro ⟨r', hmem, hslot, hkind, hexplicit⟩
    obtain ⟨key, hr'⟩ := List.mem_iff_getElem?.mp hmem
    have hrel := forall₂_getElem? h.rules key
    rw [hr'] at hrel
    cases hr : s.rules[key]? with
    | none => rw [hr] at hrel; cases hrel
    | some r =>
      rw [hr] at hrel
      cases hrel with
      | some hm =>
        exact ⟨r, List.mem_of_getElem? hr, hm.alike.slot.trans hslot,
          (congrArg RuleKind.isNamed hm.alike.content.kind).trans hkind,
          hm.alike.explicitName.trans hexplicit⟩

/-- Their rules have the same slots. -/
theorem tidy (h : s.Echoes L M t) (hneat : s.Tidy) : t.Tidy := fun key r' slot hr' hslot => by
  have hrel := forall₂_getElem? h.rules key
  rw [hr'] at hrel
  cases hr : s.rules[key]? with
  | none => rw [hr] at hrel; cases hrel
  | some r =>
    rw [hr] at hrel
    cases hrel with
    | some hm =>
      rw [← h.named]
      exact hneat key r slot hr (hm.alike.slot.trans hslot)

end Echoes

end Scope

namespace Engine

variable {e e' f f' F : Engine} {root root' k j : ScopeId} {roots roots' : List ScopeId}
  {s t : Scope} {units : UnitTable} {T : ScopeId → ScopeId → Prop} {key cell : Nat}
  {slot name name' : String}

/-! ### One scope -/

namespace Orderly

variable (h : Orderly (root :: roots) e) (hrun : processScope root e = (.ok (), e'))
include h hrun

/-- **What was declared is processed,** and is changed only in names and in what is inherited. -/
theorem dubbed (hk : e.Inside root k) : ∃ s s', e.scope? k = some s ∧ e'.scope? k = some s' ∧
    s'.Settled ∧ s.Dubbed True True s' := by
  obtain ⟨s, hs⟩ := hk.live
  have hproc := h.sound.pending.processScope h.sound
  have hdubs := processWithin_dubs e.walkLimit (h.sound.awaits h.unnamed)
  rw [show processWithin e.walkLimit root e = processScope root e from rfl, hrun] at hdubs
  rw [hrun] at hproc
  obtain ⟨s', hs', hD⟩ := hdubs.scopes.scope hs
  exact ⟨s, s', hs, hs', hproc.settled rfl hk hs',
    hD.mono (fun _ => trivial) fun _ => trivial⟩

/-- **The place of a rule that gets no name stays empty.** -/
theorem nameless (hend : Endures e' F) (hk : e.Inside root k) {r : Rule}
    (hr : F.rule? k key = some r) (hcell : r.cell = some cell)
    (hidle : r.slot = none ∨ r.kind.isNamed = false) : F.cells.get? cell = none := by
  -- Before the root was processed the rule had the same cell and got no name either.
  obtain ⟨s, s', hs, hs', hsettled, hD⟩ := h.dubbed hrun hk
  obtain ⟨u, hu, hkey⟩ := rule?_eq_some_iff.mp hr
  cases (hend.settled hs' hsettled).symm.trans hu
  obtain ⟨q, hq, hR⟩ := hD.back hkey
  have hrule : e.rule? k key = some q := rule?_eq_some_iff.mpr ⟨s, hs, hq⟩
  have hcell' : q.cell = some cell := by
    rw [← hcell]
    rcases hR with rfl | ⟨-, -, m, rfl⟩ <;> rfl
  have hidle' : q.slot = none ∨ q.kind.isNamed = false := by
    rcases hR with rfl | ⟨-, -, m, rfl⟩ <;> exact hidle
  -- A rule without a name keeps its cell empty while its root is processed, and nothing fills it
  -- later.
  have hnameless : Nameless k key cell e :=
    ⟨h.vacant.toIndexed, ⟨q, hrule, hcell', hidle'⟩, h.unfilled hk ⟨q, hrule, hcell'⟩⟩
  have hdone := hnameless.processScope root
  rw [hrun] at hdone
  rw [hend.cell hdone.indexed ⟨s', hs', hsettled⟩
    ⟨r, rule?_eq_some_iff.mpr ⟨s', hs', hkey⟩, hcell⟩]
  exact hdone.empty

end Orderly

/-! ### Both scopes -/

/-- **Both scopes are processed:** the second one, which has declared what the first one had
    declared, some time after the first one. -/
structure Encore (T : ScopeId → ScopeId → Prop) (units : UnitTable) (root root' : ScopeId)
    (roots roots' : List ScopeId) (e e' f f' : Engine) : Prop where
  rehearses : Rehearses T units root root' e f
  sequel : Sequel root root' roots roots' e f
  mentions : Mentions units e.Settles e.Settles e
  processed : processScope root e = (.ok (), e')
  between : Endures e' f
  processed' : processScope root' f = (.ok (), f')

namespace Encore

variable (h : Encore T units root root' roots roots' e e' f f')
include h

/-- What was processed first is there in the end. -/
theorem endures : Endures e' f' :=
  h.between.trans (Endures.processed h.sequel.orderly'.sound h.processed')

/-- **They echo each other in the end,** and processed scopes echo themselves. -/
theorem related : Related (Scope.Echoes (mates T units e f) (mates T units e f))
    (mates T units e f) e' f' :=
  (InStep.processWithin (h.rehearses.exact h.sequel) e.walkLimit f.walkLimit
    (.inl h.rehearses.roots)).run (h.rehearses.related h.sequel h.mentions) h.processed h.processed'

/-- **Scopes that correspond echo each other later,** and stay as they are. -/
theorem echoes (hF : Endures f' F) (hkj : Mates T e k j) : ∃ s t, F.scope? k = some s ∧
    F.scope? j = some t ∧ s.Settled ∧ t.Settled ∧
      s.Echoes (mates T units e f) (mates T units e f) t := by
  obtain ⟨s, t, hs, ht, hst⟩ := h.related.scope hkj
  obtain ⟨hsettled, hsettled'⟩ : s.Settled ∧ t.Settled := by
    rcases hkj with hT | ⟨rfl, u, hu, hsettled⟩
    · obtain ⟨hin, hin'⟩ := h.rehearses.inside hT
      obtain ⟨_, s', -, hs', hsettled, -⟩ := h.sequel.orderly.dubbed h.processed hin
      obtain ⟨_, t', -, ht', hsettled', -⟩ := h.sequel.orderly'.dubbed h.processed' hin'
      cases hs.symm.trans hs'
      cases ht.symm.trans ht'
      exact ⟨hsettled, hsettled'⟩
    · have hend := Endures.processed h.sequel.orderly.sound h.processed
      cases hs.symm.trans (hend.settled hu hsettled)
      cases ht.symm.trans (h.endures.settled hs hsettled)
      exact ⟨hsettled, hsettled⟩
  exact ⟨s, t, (h.endures.trans hF).settled hs hsettled, hF.settled ht hsettled', hsettled,
    hsettled', hst⟩

/-- Each slot has one rule in them. -/
theorem tidy (hF : Endures f' F) (hT : T k j) (hs : F.scope? k = some s) : s.Tidy := by
  obtain ⟨u, v, hu, -, -, hneat⟩ := h.rehearses.drafts hT
  obtain ⟨_, s', _, hs', hsettled, -⟩ :=
    h.sequel.orderly.dubbed h.processed (h.rehearses.inside hT).1
  cases hs.symm.trans ((h.endures.trans hF).settled hs' hsettled)
  have hfiled := processScope_filed root e
  rw [h.processed] at hfiled
  obtain ⟨s₀, hs₀, hfile⟩ := hfiled.back hs'
  cases hu.symm.trans hs₀
  exact hneat.filed hfile

/-- **The second scope takes over the names of slots** that no rule of it spells. -/
theorem heir (hF : Endures f' F) (hs : F.scope? root = some s) (ht : F.scope? root' = some t)
    (hnone : ∀ other, ¬ t.Spells slot other) (hname : s.nameOf? slot = some name)
    (hname' : t.nameOf? slot = some name') : name' = name := by
  obtain ⟨s₁, t₁, hs₁, ht₁, -, -, hst⟩ := h.echoes hF (.inl h.rehearses.roots)
  cases hs.symm.trans hs₁
  cases ht.symm.trans ht₁
  obtain ⟨hin, hin'⟩ := h.rehearses.inside h.rehearses.roots
  obtain ⟨_, s', -, hs', hsettled, -⟩ := h.sequel.orderly.dubbed h.processed hin
  -- Both scopes were processed with their roots, and are the same from then on.
  cases hs.symm.trans ((h.endures.trans hF).settled hs' hsettled)
  obtain ⟨t₀, t', ht₀, ht', hsettled', hD⟩ := h.sequel.orderly'.dubbed h.processed' hin'
  cases ht.symm.trans (hF.settled ht' hsettled')
  obtain ⟨u, hu, hbase⟩ := h.rehearses.heir
  cases ht₀.symm.trans hu
  obtain ⟨u, hu, howner⟩ := h.sequel.orderly'.sound.root_owner List.mem_cons_self
  cases ht₀.symm.trans hu
  -- A scope that is declared has given no name yet: all names come from processing it.
  have hunnamed : t₀.names = [] := h.sequel.orderly'.unnamed ht₀
    (h.sequel.orderly'.sound.unsettled List.mem_cons_self hin' ht₀)
  -- So the second scope is an heir of the first when it is processed.
  have hheir : Heir root slot name root' f :=
    ⟨⟨s, h.between.settled hs' hsettled, hname, fun other ho => absurd (hst.spells.mp ho)
      (hnone other)⟩, ⟨t₀, ht₀, howner, hbase, fun other ho => hnone other
      (hD.resourced.spells.mpr ho), fun other ho => by
        unfold Scope.nameOf? at ho
        rw [hunnamed] at ho
        cases ho⟩⟩
  have hdone := hheir.processScope root'
  rw [h.processed'] at hdone
  obtain ⟨u, hu, -, -, -, hother⟩ := hdone.heir
  cases ht'.symm.trans hu
  exact hother name' hname'

section Names

variable (hF : Endures f' F) (hlabelled : Labelled F)
include hF hlabelled

/-- A slot for which a name is spelled has that name in both scopes. -/
theorem spelled_agree {other : String} (hT : T k j) (hs : F.scope? k = some s)
    (ht : F.scope? j = some t) (hspells : s.Spells slot other) (hname : s.nameOf? slot = some name)
    (hname' : t.nameOf? slot = some name') : name = name' := by
  obtain ⟨s₁, t₁, hs₁, ht₁, hsettled, hsettled', hst⟩ := h.echoes hF (.inl hT)
  cases hs.symm.trans hs₁
  cases ht.symm.trans ht₁
  have hneat := h.tidy hF hT hs
  have hsame := (hlabelled.labelled hs hsettled).spelled hneat hspells
  have hsame' :=
    (hlabelled.labelled ht hsettled').spelled (hst.tidy hneat) (hst.spells.mp hspells)
  rw [hsame, Option.some.injEq] at hname
  rw [hsame', Option.some.injEq] at hname'
  exact hname.symm.trans hname'

/-- **Slots have the same names in scopes that correspond.** -/
theorem names_agree (hin : e.Inside root k) (hT : T k j) (hs : F.scope? k = some s)
    (ht : F.scope? j = some t) (hname : s.nameOf? slot = some name)
    (hname' : t.nameOf? slot = some name') : name = name' := by
  induction hin generalizing j s t with
  | root _ =>
    by_cases hspells : ∃ other, s.Spells slot other
    · obtain ⟨other, ho⟩ := hspells
      exact h.spelled_agree hF hlabelled hT hs ht ho hname hname'
    obtain rfl := h.rehearses.unique.2 h.rehearses.roots hT
    obtain ⟨s₁, t₁, hs₁, ht₁, -, -, hst⟩ := h.echoes hF (.inl hT)
    cases hs.symm.trans hs₁
    cases ht.symm.trans ht₁
    exact (h.heir hF hs ht (fun other ho => hspells ⟨other, hst.spells.mpr ho⟩) hname hname').symm
  | @nested k o u hu howner hin ih =>
    by_cases hspells : ∃ other, s.Spells slot other
    · obtain ⟨other, ho⟩ := hspells
      exact h.spelled_agree hF hlabelled hT hs ht ho hname hname'
    obtain ⟨s₁, t₁, hs₁, ht₁, -, -, hst⟩ := h.echoes hF (.inl hT)
    cases hs.symm.trans hs₁
    cases ht.symm.trans ht₁
    -- Both scopes have the name from their owners, which correspond.
    obtain ⟨u', hu', ho⟩ := (h.sequel.endures.trans
      ((Endures.processed h.sequel.orderly'.sound h.processed').trans hF)).owner k u hu
    cases hs.symm.trans hu'
    have howner' : s.owner = some o := ho.trans howner
    obtain ⟨o', hto, hoo'⟩ := rel_some (howner' ▸ hst.owner)
    have hTo : T o o' := by
      rcases hoo' with hTo | ⟨-, v, hv, hsettled⟩
      · exact hTo
      · exact absurd hsettled (h.sequel.orderly.sound.unsettled List.mem_cons_self hin hv)
    obtain ⟨u', v', hu'', hv', -, -, -⟩ := h.echoes hF (.inl hTo)
    have hup := (hlabelled.owned hs howner' hu'' hname).resolve_left hspells
    have hup' := (hlabelled.owned ht hto hv' hname').resolve_left
      fun ⟨other, ho⟩ => hspells ⟨other, hst.spells.mpr ho⟩
    exact ih hTo hu'' hv' hup hup'

/-- **The rules of scopes that correspond have the same names.** -/
theorem cells_agree {a b : Nat} (hab : (pairing (Mates T e) F F units).cells a b) :
    F.cells.get? a = F.cells.get? b := by
  -- Either the scopes were declared again one by the other, or they are one scope.
  obtain ⟨k, j, key, hkj | ⟨rfl, -⟩, ⟨r, hr, hc⟩, r', hr', hc'⟩ := hab
  · obtain ⟨hin, hin'⟩ := h.rehearses.inside hkj
    obtain ⟨s, t, hs, ht, hsettled, hsettled', hst⟩ := h.echoes hF (.inl hkj)
    obtain ⟨s₁, hs₁, hkey⟩ := rule?_eq_some_iff.mp hr
    obtain ⟨t₁, ht₁, hkey'⟩ := rule?_eq_some_iff.mp hr'
    cases hs.symm.trans hs₁
    cases ht.symm.trans ht₁
    obtain ⟨q, hq, hm⟩ := rel_some (hkey ▸ forall₂_getElem? hst.rules key)
    cases hkey'.symm.trans hq
    have hkind : r.kind = r'.kind := hm.alike.content.kind
    -- Rules without a slot or of a kind that has no name leave their cells empty in both.
    by_cases hidle : r.slot = none ∨ r.kind.isNamed = false
    · have hidle' : r'.slot = none ∨ r'.kind.isNamed = false := by
        rwa [← hm.alike.slot, ← hkind]
      rw [h.sequel.orderly.nameless h.processed (h.endures.trans hF) hin hr hc hidle,
        h.sequel.orderly'.nameless h.processed' hF hin' hr' hc' hidle']
    -- Rules that get a name get that of their slot, unless they spell their own.
    · obtain ⟨hslot, hnamed⟩ := not_or.mp hidle
      obtain ⟨slot, hslot⟩ := Option.ne_none_iff_exists'.mp hslot
      have hnamed := Bool.not_eq_false _ ▸ hnamed
      have hneat := h.tidy hF hkj hs
      obtain ⟨name, hn, -, hname⟩ :=
        (hlabelled.labelled hs hsettled).of_tidy hneat hkey hslot hnamed
      obtain ⟨name', hn', -, hname'⟩ := (hlabelled.labelled ht hsettled').of_tidy (hst.tidy hneat)
        hkey' (hm.alike.slot ▸ hslot) (hkind ▸ hnamed)
      obtain rfl := h.names_agree hF hlabelled hin hkj hs ht hname hname'
      unfold Rule.name? at hn hn'
      rw [hc] at hn
      rw [hc'] at hn'
      exact hn.trans hn'.symm
  · cases hr.symm.trans hr'
    cases hc.symm.trans hc'
    rfl

end Names

end Encore

end Engine

end StyleBook
