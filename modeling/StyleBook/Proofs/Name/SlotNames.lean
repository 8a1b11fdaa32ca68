import StyleBook.Proofs.Name.InheritedNames
import StyleBook.Proofs.Name.Labels
import StyleBook.Proofs.Name.Slots

namespace StyleBook

/-!
# Names of slots and of their rules

The rule that is found under a slot has the slot's name, and a slot of a nested scope has the name
that it has in the owner. Both fail where a rule that was declared without a slot has one
nevertheless, because it is a copy of another scope's rule, and spells a name for it.

* `Engine.labelled_survives`, `Run.labelled` — rules and slots have names,
  whatever is built or called;
* `Run.slot_names` — which name the rule under a slot has, and which one its slot;
* `name_taken` — a slot with another name than its rule.
-/

/-- A change of users and of the state spares names. -/
theorem Scope.Reused.dubbed {P : Prop} {s s' : Scope} (h : Reused P s s') :
    Dubbed False True s s' where
  resourced := h.resourced
  length_eq := by rw [h.rules]
  rule hr := ⟨_, by rw [h.rules]; exact hr, .inl rfl⟩
  keeps hn := absurd trivial hn
  state hn := absurd trivial hn

namespace Engine

variable {e e' : Engine} {id : ScopeId} {roots : List ScopeId}

/-! ### Building -/

namespace Labelled

/-- Declaring changes no name, while scopes that are not processed have none. -/
theorem redeclares (h : Labelled e) (hs : Sound roots e) (hu : e.Unnamed) (hr : Redeclares e e')
    (hp : KeepsPlaces e e') : Labelled e' where
  owned hs' ho ht' hname := by
    have hsettled := Unnamed.settled (hr.unnamed hu) hs' hname
    have hs₀ := hr.settled_back hs' hsettled
    obtain ⟨t, ht, hsettled'⟩ := hs.settles_owner hs₀ hsettled ho
    cases ht'.symm.trans (hr.kept ht hsettled')
    exact h.owned hs₀ ho ht hname
  labelled {k s'} hs' hsettled := (h.labelled (hr.settled_back hs' hsettled) hsettled).dubbed
    (refl_of (Scope.Dubbed False False) s') (refl_of Scope.KeepsNames s') hp

/-- Scopes are left out. -/
theorem abandoned {key : Nat} (h : Labelled e) (ha : Abandoned id key e e')
    (hcells : e'.cells = e.cells) : Labelled e' where
  owned hs' ho ht' := h.owned (ha.back hs').2 ho (ha.back ht').2
  labelled hs' := by
    rw [names_of_cells hcells]
    exact h.labelled (ha.back hs').2

/-- A change of users and of states keeps names between calls. -/
theorem reused (h : Labelled e) (hs : Sound [] e) (hr : Rescoped (fun _ => Scope.Reused True) e e')
    (hcells : e'.cells = e.cells) : Labelled e' where
  owned hs' ho ht' hname := by
    obtain ⟨s, hs₀, hR⟩ := hr.back hs'
    obtain ⟨t, ht, hR'⟩ := hr.back ht'
    rw [hR.dubbed.resourced.nameOf? not_false] at hname
    simp only [hR.dubbed.resourced.spells, hR'.dubbed.resourced.nameOf? not_false]
    exact h.owned hs₀ (hR.owner ▸ ho) ht hname
  labelled hs' _ := by
    obtain ⟨s, hs₀, hR⟩ := hr.back hs'
    exact (h.labelled hs₀ (hs.settled hs₀)).dubbed hR.dubbed
      (Scope.Resourced.keepsNames hR.dubbed.resourced) (KeepsPlaces.of_cells hcells)

end Labelled

/-- When a definition has declared its rules, it is the turn of its scope. -/
theorem Sound.awaits (hs : Sound (id :: roots) e) (hu : e.Unnamed) : Awaits id e where
  linked := hs.linked
  unsettled hin := hs.unsettled List.mem_cons_self hin
  unnamed hin _ hs' := hu hs' (hs.unsettled List.mem_cons_self hin hs')

/-- Processing a scope gives its rules and slots the names that they should have. -/
theorem processScope_labelled (hs : Sound (id :: roots) e) (hu : e.Unnamed) (h : Labelled e) :
    Labelled (processScope id e).2 :=
  (processWithin_dubs e.walkLimit (hs.awaits hu)).labelled h

/-- **Names of rules and slots survive building.** -/
theorem labelled_survives : Survives Labelled where
  unchanged h hr hcells := by
    refine h.spared (hr.mono fun _ s _ _ heq => heq ▸ ?_) (.of_cells hcells)
    exact refl_of (Scope.Dubbed False False) s
  redeclares h hs hu hr hcells := h.redeclares hs hu hr (.of_cells hcells)
  processed h hs hu hrun := by
    have hlabelled := processScope_labelled hs hu h
    rwa [hrun] at hlabelled
  unprocessed {id _ _ e₂ _ key} h hs hu hrun := by
    have hproc := hs.pending.processScope hs
    have hlabelled := processScope_labelled hs hu h
    rw [hrun] at hproc hlabelled
    exact hlabelled.abandoned (abandon_abandoned hproc.linked id key) (abandon_cells e₂ id key).2.1
  failed {id _ e key} h hs :=
    h.abandoned (abandon_abandoned hs.linked id key) (abandon_cells e id key).2.1

/-- **Calls keep names of rules and slots.** -/
theorem labelled_callwise : Callwise (Preserves Labelled) :=
  labelled_survives.callwise (fun hl hs hr ht => hl.reused hs hr (congrArg (·.cells) ht))
    fun {e e' id slot r} hl h => by
      have hlabelled := nameForWithin_labelled e.walkLimit id slot e hl
      have hrun : nameForWithin e.walkLimit id slot e = (r, e') := h
      rwa [hrun] at hlabelled

/-- **Calls keep rules under their slots.** -/
theorem slotted_callwise : Callwise fun e e' => Slotted e → Slotted e' where
  toStepwise := slotted_stepwise
  reused _ _ hr _ h := h.rescoped <| hr.mono fun _ s s' _ hR =>
    .of_rules hR.rules (by rw [hR.eq_users]) (by rw [hR.eq_users])
  named {e e' id slot r} _ _ h hl := by
    have hrenamed := nameForWithin_renamed e.walkLimit id slot e
    have hrun : nameForWithin e.walkLimit id slot e = (r, e') := h
    rw [hrun] at hrenamed
    exact hl.rescoped (hrenamed.mono fun _ _ _ _ hR => hR.filed)
  configured _ _ h hl := by
    subst h
    exact hl.rescoped (.of_scopes_eq rfl rfl rfl)

end Engine

open Engine

variable {μ σ : Type} [Sink σ] {library : Library μ} {naming : NamingConfig} {catalog : Catalog}
  {ambient : Ambient}

/-- **Rules and slots have names in every run,** and rules are found under their slots. -/
theorem Run.labelled {memory : μ} {s : Engine × μ} {steps : List (Request μ × Answer)}
    (h : Run library (create naming catalog ambient, memory) steps s) :
    Labelled s.1 ∧ Slotted s.1 := by
  have hs := sound_create naming catalog ambient
  have hnone : ∀ {k s}, (create naming catalog ambient).scope? k ≠ some s := fun hs => by cases hs
  exact ⟨(h.callwise labelled_callwise hs hs.unnamed
      ⟨fun hs => absurd hs hnone, fun hs => absurd hs hnone⟩).2,
    h.callwise slotted_callwise hs fun _ _ hs => absurd hs hnone⟩

/-- **Which names slots and rules have:** the rule under a slot has the name of the slot, unless a
    copy that was declared behind it without a slot spells another one. A slot of a nested scope has
    the name that it has in the owner, and so has its rule, unless a rule of the nested scope spells
    another one. -/
theorem Run.slot_names {memory : μ} {s : Engine × μ} {steps : List (Request μ × Answer)}
    (h : Run library (create naming catalog ambient, memory) steps s) {k : ScopeId} {t : Scope}
    (ht : s.1.scope? k = some t) (slot : String) :
    (∀ key rule, t.named.get? slot = some key → t.rule? key = some rule →
      rule.kind.isNamed = true → ∃ name, rule.name? s.1.names = some name ∧
        ((∀ copy ∈ t.unnamed, key < copy → ∀ r, t.rule? copy = some r → ¬ r.Spells slot) →
          t.nameOf? slot = some name)) ∧
    ∀ o u, t.owner = some o → s.1.scope? o = some u → (∀ rule ∈ t.rules, ¬ rule.Spells slot) →
      (∀ name, t.nameOf? slot = some name → u.nameOf? slot = some name) ∧
      ∀ rule ∈ t.rules, rule.slot = some slot → rule.kind.isNamed = true →
        ∃ name, rule.name? s.1.names = some name ∧ u.nameOf? slot = some name := by
  obtain ⟨hlabelled, hslotted⟩ := h.labelled
  have hsettled := (h.sound (sound_create naming catalog ambient)).settled ht
  have hnames := hlabelled.labelled ht hsettled
  refine ⟨fun key rule hkey hrule hkind => ?_, fun o u ho hu hspells => ?_⟩
  · obtain ⟨rule', hr, hslot⟩ := (hslotted k t ht).named hkey
    cases hrule.symm.trans hr
    have hlt := (List.getElem?_eq_some_iff.mp hr).1
    obtain ⟨name, hname, -, hlast⟩ := hnames key rule slot hlt hr hslot hkind
    refine ⟨name, hname, fun hcopies => hlast fun later hlater hbehind r hr' hr'' => ?_⟩
    -- A later rule with the slot was declared without one, or it would be under the slot.
    rcases (hslotted k t ht).listed hlater with hunnamed | ⟨slot', hslot'⟩
    · exact hcopies later hunnamed hbehind r hr' hr''
    · obtain ⟨r', hr₁, hslot₁⟩ := (hslotted k t ht).named hslot'
      cases hr'.symm.trans hr₁
      cases hr''.1.symm.trans hslot₁
      cases hkey.symm.trans hslot'
      exact lt_irrefl _ hbehind
  · have howned : ∀ name, t.nameOf? slot = some name → u.nameOf? slot = some name := by
      intro name hname
      rcases hlabelled.owned ht ho hu hname with ⟨n, rule, hrule, hslot, hkind, hn⟩ | howned
      · exact absurd ⟨hslot, hkind, Option.isSome_of_eq_some hn⟩ (hspells rule hrule)
      · exact howned
    refine ⟨howned, fun rule hrule hslot hkind => ?_⟩
    obtain ⟨key, hkey⟩ := List.mem_iff_getElem?.mp hrule
    obtain ⟨name, hname, -, hlast⟩ :=
      hnames key rule slot (List.getElem?_eq_some_iff.mp hkey).1 hkey hslot hkind
    exact ⟨name, hname, howned name <| hlast fun _ _ _ r hr hr' =>
      hspells r (List.mem_of_getElem? hr) hr'⟩

/-- A copy of a rule that was declared under a slot, with a name that it spells. -/
def copiedRule : Rule := { Rule.cls .empty with slot := some "body", explicitName := some "shared" }

/-- A library of two definitions that declare the copy without a slot: before the rule that is found
    under its slot and a group with another one, and behind the rule. -/
def copyingLibrary : Library Unit
  | 0 => ⟨0, "Early", "early", false, .addUnnamed copiedRule fun _ =>
      .add "body" (.cls .empty) fun _ =>
        .group (.media "print") (.add "body" (.cls .empty) fun _ => .done) fun _ => .done⟩
  | key => ⟨key, "Late", "late", false, .add "body" (.cls .empty) fun _ =>
      .addUnnamed copiedRule fun _ => .done⟩

/-- A slot, its rule and that of a group have the name that a copy spells before them. -/
theorem slot_names_of_sample : ∃ steps s t u rule inner,
    Run copyingLibrary (create {} .empty .initial, ()) steps s ∧
      s.1.scope? 1 = some t ∧ t.named.get? "body" = some 1 ∧ t.rule? 1 = some rule ∧
      rule.kind.isNamed = true ∧
      (∀ copy ∈ t.unnamed, 1 < copy → ∀ r, t.rule? copy = some r → ¬ r.Spells "body") ∧
      rule.name? s.1.names = some "shared" ∧ t.nameOf? "body" = some "shared" ∧
      s.1.scope? 2 = some u ∧ u.owner = some 1 ∧ (∀ r ∈ u.rules, ¬ r.Spells "body") ∧
      inner ∈ u.rules ∧ inner.slot = some "body" ∧ inner.kind.isNamed = true ∧
      inner.name? s.1.names = some "shared" := by
  have hout : ((Session.performAll copyingLibrary [.process 2 0]
      (freshSession TextSink.empty)).any fun out =>
        (out.2.engine.scope? 1).any (fun t => t.named.get? "body" = some 1 &&
          (t.rule? 1).any (·.kind.isNamed) &&
          t.unnamed.all (fun copy => copy ≤ 1 || (t.rule? copy).all (!·.Spells "body")) &&
          t.nameOf? "body" = some "shared") &&
        (out.2.engine.scope? 2).any fun u => u.owner = some 1 &&
          u.rules.all (!·.Spells "body") &&
          u.rules.any fun r => r.slot = some "body" && r.kind.isNamed) = true := by decide +kernel
  -- The run is decided, and then the general theorem is applied to the scope and to its group.
  obtain ⟨⟨steps, s⟩, hperform, hp⟩ := (Option.any_eq_true _ _).mp hout
  simp only [Bool.and_eq_true, Option.any_eq_true, List.all_eq_true, List.any_eq_true,
    Bool.or_eq_true, Option.all_eq_true, decide_eq_true_eq, Bool.not_eq_true',
    decide_eq_false_iff_not] at hp
  obtain ⟨⟨t, ht, ⟨⟨hkey, rule, hrule, hkind⟩, hcopies⟩, hname⟩,
    u, hu, ⟨ho, hspells⟩, inner, hinner, hslot, hkind'⟩ := hp
  have hrun : Run copyingLibrary (create {} .empty .initial, ()) steps (s.engine, s.memory) :=
    .performAll .start hperform
  have hlater : ∀ copy ∈ t.unnamed, 1 < copy → ∀ r, t.rule? copy = some r → ¬ r.Spells "body" :=
    fun copy hcopy hlt r hr => (hcopies copy hcopy).resolve_left (Nat.not_le.mpr hlt) r hr
  obtain ⟨name, hruleName, hsame⟩ :=
    (Run.slot_names hrun ht "body").1 1 rule hkey hrule hkind
  cases hname.symm.trans (hsame hlater)
  obtain ⟨-, hnested⟩ := (Run.slot_names hrun hu "body").2 1 t ho ht hspells
  obtain ⟨name', hinnerName, howned⟩ := hnested inner hinner hslot hkind'
  cases hname.symm.trans howned
  exact ⟨steps, _, t, u, rule, inner, hrun, ht, hkey, hrule, hkind, hlater,
    hruleName, hname, hu, ho,
    hspells, hinner, hslot, hkind', hinnerName⟩

/-- **A slot can have another name than the rule under it:** the one that a copy spells which was
    declared behind the rule without a slot. -/
theorem name_taken : ∃ steps s t rule,
    Run copyingLibrary (create {} .empty .initial, ()) steps s ∧ s.1.scope? 1 = some t ∧
      t.ruleOf? "body" = some rule ∧ rule.kind.isNamed = true ∧
      rule.name? s.1.names = some "late_body" ∧ t.nameOf? "body" = some "shared" := by
  have hout : ((Session.performAll copyingLibrary [.process 2 1]
      (freshSession TextSink.empty)).any fun out =>
        (out.2.engine.scope? 1).any fun t => (t.ruleOf? "body").any (fun rule =>
          rule.kind.isNamed && rule.name? out.2.engine.names = some "late_body") &&
          t.nameOf? "body" = some "shared") = true := by decide +kernel
  obtain ⟨⟨steps, s⟩, hperform, hp⟩ := (Option.any_eq_true _ _).mp hout
  simp only [Bool.and_eq_true, Option.any_eq_true, decide_eq_true_eq] at hp
  obtain ⟨t, ht, ⟨rule, hrule, hkind, hname⟩, hslot⟩ := hp
  exact ⟨steps, _, t, rule, .performAll .start hperform, ht, hrule, hkind, hname, hslot⟩

end StyleBook
