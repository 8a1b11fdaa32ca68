import StyleBook.Proofs.Name.NameOrigins

namespace StyleBook

/-!
# Names that are handed down

A definition has the names of the one it extends: its scope takes them over from the scope that it
extends, for each slot that is declared there and for which no rule spells another name. Nested
scopes take theirs over from their owners.

* `Scope.Gains` — a scope that may get names, but loses none;
* `Engine.Handed` — the slots of processed scopes have names, and these are handed down;
* `Engine.NameFits` — a name that a scope can get;
* `Engine.Hands` — a computation keeps this; `Engine.nameForWithin_hands`,
  `Engine.processWithin_hands` — finding or making names and processing scopes do;
* `Engine.handed_survives` — so does every step of building.
-/

/-- The scope is changed, but not in what names depend on, and keeps a name for each slot that has
    one. -/
structure Scope.Gains (s s' : Scope) : Prop where
  resourced : Resourced True s s'
  named {slot : String} : (s.nameOf? slot).isSome → (s'.nameOf? slot).isSome

/-- The scope has the name that it had for the slot, or the given one. -/
def Scope.Answered (slot name : String) (s s' : Scope) : Prop :=
  s'.nameOf? slot = s.nameOf? slot ∨ s'.nameOf? slot = some name

namespace Scope

variable {s s' : Scope}

instance : IsPreorder Scope Gains where
  refl s := ⟨refl_of (Resourced True) s, id⟩
  trans _ _ _ h h' := ⟨trans_of (Resourced True) h.resourced h'.resourced, h'.named ∘ h.named⟩

instance {slot name : String} : IsPreorder Scope (Answered slot name) where
  refl _ := .inl rfl
  trans _ _ _ h h' := by
    rcases h' with hsame | hnew
    · exact h.imp hsame.trans hsame.trans
    · exact .inr hnew

/-- A change that spares names. -/
theorem Resourced.gains (h : Resourced False s s') : Gains s s' :=
  ⟨h.mono False.elim, fun hname => by rwa [h.nameOf? not_false]⟩

/-- What names slots have after one was put in. -/
theorem nameOf?_insert (s : Scope) (slot name other : String) :
    ({ s with names := s.names.insert slot name } : Scope).nameOf? other =
      if other = slot then some name else s.nameOf? other := Dict.get?_insert _ _ _ _

/-- One more name. -/
theorem gains_insertName (s : Scope) (slot name : String) :
    Gains s { s with names := s.names.insert slot name } where
  resourced := (Renamed.names trivial s _).resourced
  named hname := by
    rw [nameOf?_insert]
    split
    · rfl
    · exact hname

end Scope

namespace Engine

variable {e e' : Engine} {id k : ScopeId} {slot name : String} {key : Nat} {roots : List ScopeId}

/-- **Names are handed down:** the slots of a processed scope have names, and where a scope that
    extends it has a name for one of them, it is the same, unless a rule spells it. The name that a
    nested scope has for a slot is that of its owner, unless a rule of one of them spells it. -/
structure Handed (e : Engine) : Prop where
  base_ready {k s b} : e.scope? k = some s → s.base = some b → e.Ready b
  named {k s slot} : e.scope? k = some s → s.owner = none → s.Settled → s.NamesSlot slot →
    (s.nameOf? slot).isSome
  handed {k s b t slot name} : e.scope? k = some s → s.owner = none → s.base = some b →
    e.scope? b = some t → t.NamesSlot slot → s.nameOf? slot = some name →
      (∃ n, s.Spells slot n) ∨ t.nameOf? slot = some name
  owned {k s o t slot name} : e.scope? k = some s → s.owner = some o → e.scope? o = some t →
    s.nameOf? slot = some name →
      (∃ n, s.Spells slot n) ∨ (∃ n, t.Spells slot n) ∨ t.nameOf? slot = some name

/-- The scope can get the name for the slot: it is spelled, or that of the scope it is taken over
    from, and it is no other one than the scope has. -/
structure NameFits (id : ScopeId) (slot name : String) (e : Engine) : Prop where
  base {s b t} : e.scope? id = some s → s.owner = none → s.base = some b → e.scope? b = some t →
    t.NamesSlot slot → (∃ n, s.Spells slot n) ∨ t.nameOf? slot = some name
  owner {s o t} : e.scope? id = some s → s.owner = some o → e.scope? o = some t →
    (∃ n, s.Spells slot n) ∨ t.nameOf? slot = some name
  kept {s other} : e.scope? id = some s → s.nameOf? slot = some other →
    (∃ n, s.Spells slot n) ∨ other = name
  unsettled {s} : e.scope? id = some s → s.owner = none → s.Settled → ¬ s.NamesSlot slot

namespace Handed

variable {s t : Scope} {b : ScopeId}

/-- The name of a slot in the scope that is extended. -/
theorem base_named (h : Handed e) (hs : e.scope? k = some s) (hb : s.base = some b)
    (ht : e.scope? b = some t) (hslot : t.NamesSlot slot) : ∃ n, t.nameOf? slot = some n := by
  obtain ⟨u, hu, hsettled, ho⟩ := h.base_ready hs hb
  cases ht.symm.trans hu
  exact Option.isSome_iff_exists.mp (h.named ht ho hsettled hslot)

/-- Changes that spare names and what names depend on. If a scope is processed, its slots have
    names. -/
theorem spared (h : Handed e) (hr : Rescoped (fun _ => Scope.Resourced False) e e')
    (hnew : ∀ {k s s'}, e.scope? k = some s → e'.scope? k = some s' → s'.Settled →
      s.Settled ∨ (s.owner = none → ∀ slot, s.NamesSlot slot → (s.nameOf? slot).isSome)) :
    Handed e' where
  base_ready hs' hb := by
    obtain ⟨s, hs, hR⟩ := hr.back hs'
    obtain ⟨t, ht, hsettled, ho⟩ := h.base_ready hs (hR.base ▸ hb)
    obtain ⟨t', ht', hR'⟩ := hr.scope ht
    exact ⟨t', ht', hR'.settled hsettled, hR'.owner.trans ho⟩
  -- A scope that is processed now has names for its slots, and others had them before.
  named hs' ho hsettled hslot := by
    obtain ⟨s, hs, hR⟩ := hr.back hs'
    have ho := hR.owner ▸ ho
    have hslot := hR.namesSlot.mp hslot
    rw [hR.nameOf? not_false]
    rcases hnew hs hs' hsettled with hold | hnamed
    · exact h.named hs ho hold hslot
    · exact hnamed ho _ hslot
  handed hs' ho hb ht' hslot hname := by
    obtain ⟨s, hs, hR⟩ := hr.back hs'
    obtain ⟨t, ht, hR'⟩ := hr.back ht'
    rw [hR.nameOf? not_false] at hname
    simp only [hR.spells, hR'.nameOf? not_false]
    exact h.handed hs (hR.owner ▸ ho) (hR.base ▸ hb) ht (hR'.namesSlot.mp hslot) hname
  owned hs' ho ht' hname := by
    obtain ⟨s, hs, hR⟩ := hr.back hs'
    obtain ⟨t, ht, hR'⟩ := hr.back ht'
    rw [hR.nameOf? not_false] at hname
    simp only [hR.spells, hR'.spells, hR'.nameOf? not_false]
    exact h.owned hs (hR.owner ▸ ho) ht hname

/-- One more name, which fits. -/
theorem insertName (h : Handed e) (hfits : NameFits id slot name e) :
    Handed (e.modifyScope id fun s => { s with names := s.names.insert slot name }) := by
  have hr : Rescoped (fun _ => Scope.Resourced True) e
      (e.modifyScope id fun s => { s with names := s.names.insert slot name }) :=
    .modifyScope fun s _ => (s.gains_insertName slot name).resourced
  have hlook : ∀ {k s s'}, e.scope? k = some s →
      (e.modifyScope id fun s => { s with names := s.names.insert slot name }).scope? k = some s' →
      s'.state = s.state ∧ ∀ other, s'.nameOf? other =
        if k = id ∧ other = slot then some name else s.nameOf? other := by
    intro k s s' hs hs'
    by_cases hk : k = id
    · subst hk
      rw [scope?_modifyScope_self _ hs] at hs'
      cases hs'
      exact ⟨rfl, fun other => by simp only [true_and, Scope.nameOf?_insert]⟩
    · rw [scope?_modifyScope_of_ne _ hk, hs] at hs'
      cases hs'
      exact ⟨rfl, fun other => by rw [if_neg fun hc => hk hc.1]⟩
  refine ⟨fun hs' hb => ?_, fun {k s' slot'} hs' ho hsettled hslot => ?_,
    fun {k s' b t' slot' name'} hs' ho hb ht' hslot hname => ?_,
    fun {k s' o t' slot' name'} hs' ho ht' hname => ?_⟩
  · obtain ⟨s, hs, hR⟩ := hr.back hs'
    obtain ⟨t, ht, hsettled, ho⟩ := h.base_ready hs (hR.base ▸ hb)
    obtain ⟨t', ht', hR'⟩ := hr.scope ht
    exact ⟨t', ht', hR'.settled hsettled, hR'.owner.trans ho⟩
  · obtain ⟨s, hs, hR⟩ := hr.back hs'
    obtain ⟨hstate, hnames⟩ := hlook hs hs'
    have hsettled : s.Settled := by
      unfold Scope.Settled at hsettled ⊢
      rwa [← hstate]
    rw [hnames]
    split
    · rfl
    · exact h.named hs (hR.owner ▸ ho) hsettled (hR.namesSlot.mp hslot)
  · obtain ⟨s, hs, hR⟩ := hr.back hs'
    obtain ⟨t, ht, hR'⟩ := hr.back ht'
    have ho := hR.owner ▸ ho
    have hb := hR.base ▸ hb
    have hslot := hR'.namesSlot.mp hslot
    -- The scope that is extended keeps its name for the slot.
    have hkept : t'.nameOf? slot' = t.nameOf? slot' := by
      rw [(hlook ht ht').2, if_neg]
      rintro ⟨rfl, rfl⟩
      obtain ⟨u, hu, hsettled, ho'⟩ := h.base_ready hs hb
      cases ht.symm.trans hu
      exact hfits.unsettled ht ho' hsettled hslot
    rw [hkept]
    simp only [hR.spells]
    rw [(hlook hs hs').2] at hname
    split at hname
    · next heq =>
      obtain ⟨rfl, rfl⟩ := heq
      cases hname
      exact hfits.base hs ho hb ht hslot
    · exact h.handed hs ho hb ht hslot hname
  · obtain ⟨s, hs, hR⟩ := hr.back hs'
    obtain ⟨t, ht, hR'⟩ := hr.back ht'
    have ho := hR.owner ▸ ho
    rw [(hlook hs hs').2] at hname
    rw [(hlook ht ht').2]
    simp only [hR.spells, hR'.spells]
    split at hname
    · next heq =>
      -- The nested scope gets the name.
      obtain ⟨rfl, rfl⟩ := heq
      cases hname
      split
      · exact .inr (.inr rfl)
      · exact (hfits.owner hs ho ht).imp_right .inr
    · obtain hspells | hspells | hname := h.owned hs ho ht hname
      · exact .inl hspells
      · exact .inr (.inl hspells)
      split
      · next heq =>
        -- Its owner does.
        obtain ⟨rfl, rfl⟩ := heq
        refine .inr ((hfits.kept ht hname).imp_right fun heq => ?_)
        rw [heq]
      · exact .inr (.inr hname)

end Handed

/-! ### Finding and making names -/

/-- What a computation does to names: no scope loses one, and they stay handed down. -/
structure Hands (e e' : Engine) : Prop where
  gains : Rescoped (fun _ => Scope.Gains) e e'
  handed : Handed e → Handed e'

instance : IsPreorder Engine Hands where
  refl e := ⟨.refl e, fun h => h⟩
  trans _ _ _ h h' := ⟨h.gains.trans h'.gains, h'.handed ∘ h.handed⟩

namespace Hands

/-- A change that spares names, what names depend on, and what is processed. -/
theorem spared (hr : Rescoped (fun _ => Scope.Resourced False) e e')
    (hstate : ∀ {k s s'}, e.scope? k = some s → e'.scope? k = some s' → s'.state = s.state) :
    Hands e e' where
  gains := hr.mono fun _ _ _ _ hR => hR.gains
  handed h := h.spared hr fun hs hs' hsettled => by
    unfold Scope.Settled at hsettled ⊢
    rw [hstate hs hs'] at hsettled
    exact .inl hsettled

/-- A change of a scope that does so. -/
theorem modifyScope {f : Scope → Scope}
    (hf : ∀ s, e.scope? id = some s → Scope.Resourced False s (f s))
    (hstate : ∀ s, (f s).state = s.state) : Hands e (e.modifyScope id f) :=
  spared (.modifyScope hf) fun {k s s'} hs hs' => by
    rw [scope?_modifyScope] at hs'
    split at hs'
    · next hk =>
      subst hk
      rw [hs, Option.map_some] at hs'
      cases hs'
      exact hstate s
    · cases hs.symm.trans hs'
      rfl

/-- No scope is changed. -/
theorem unchanged (hr : Rescoped (fun _ => Eq) e e') : Hands e e' :=
  spared (hr.mono fun _ s _ _ heq => heq ▸ refl_of (Scope.Resourced False) s) fun hs hs' => by
    obtain ⟨s', hs'', rfl⟩ := hr.scope hs
    cases hs'.symm.trans hs''
    rfl

end Hands

/-- **A scope that extends another one finds that scope's name.** -/
theorem Handed.base_found (h : Handed e) (limit : Nat) {s t : Scope} {b : ScopeId}
    (hs : e.scope? k = some s) (ho : s.owner = none) (hb : s.base = some b)
    (ht : e.scope? b = some t) (hslot : t.NamesSlot slot) :
    ∃ n, t.nameOf? slot = some n ∧ foundName limit s slot e = (.ok n, e) := by
  obtain ⟨n, hn⟩ := h.base_named hs hb ht hslot
  have hi : e.inheritedWithin slot e.walkLimit s.base = .ok (some n) := by
    unfold walkLimit
    rw [hb, inheritedWithin]
    simp only [ht, hn]
  refine ⟨n, hn, ?_⟩
  unfold foundName
  simp only [ho, stateful_bind, stateful_get, hi]
  rfl

/-- A name comes from the owner, or no scope is changed. -/
theorem Hands.foundName {limit : Nat}
    (howner : ∀ o, Hands e (nameForWithin limit o slot e).2) (s : Scope) :
    Hands e (foundName limit s slot e).2 := by
  cases ho : s.owner with
  | none => exact .unchanged (foundName_none ho e)
  | some o =>
    rw [foundName_some ho]
    exact howner o

/-- What a scope gets as a name of a slot. -/
theorem gains_insertName (id : ScopeId) (slot name : String) (e : Engine) :
    Rescoped (fun _ => Scope.Gains) e
      (e.modifyScope id fun s => { s with names := s.names.insert slot name }) :=
  .modifyScope fun s _ => s.gains_insertName slot name

/-- A scope gets a name that fits. -/
theorem Hands.insertName (hfits : NameFits id slot name e) :
    Hands e (e.modifyScope id fun s => { s with names := s.names.insert slot name }) where
  gains := gains_insertName id slot name e
  handed h := h.insertName hfits

/-- A name that a rule spells fits, if the scope is nested or is not processed yet. -/
theorem NameFits.spelled {s : Scope} (hs : e.scope? id = some s) (hspells : s.Spells slot name)
    (hid : s.owner = none → ¬ s.Settled) : NameFits id slot name e where
  base hs' _ _ _ _ := by
    cases hs.symm.trans hs'
    exact .inl ⟨name, hspells⟩
  owner hs' _ _ := by
    cases hs.symm.trans hs'
    exact .inl ⟨name, hspells⟩
  kept hs' _ := by
    cases hs.symm.trans hs'
    exact .inl ⟨name, hspells⟩
  unsettled hs' ho hsettled := by
    cases hs.symm.trans hs'
    exact absurd hsettled (hid ho)

/-- A scope that is not nested has found or made a name. -/
theorem foundName_hands {s : Scope} {limit : Nat} (hs : e.scope? id = some s)
    (howner : s.owner = none) (hname : s.nameOf? slot = none)
    (hrun : foundName limit s slot e = (.ok name, e')) :
    Hands e (e'.modifyScope id fun s => { s with names := s.names.insert slot name }) := by
  have hsame : Rescoped (fun _ => Eq) e (foundName limit s slot e).2 := foundName_none howner e
  rw [hrun] at hsame
  have hfound : Hands e e' := .unchanged hsame
  have hback : ∀ {k s'}, e'.scope? k = some s' → e.scope? k = some s' := fun hs' => by
    obtain ⟨_, hs₀, rfl⟩ := hsame.back hs'
    exact hs₀
  refine ⟨hfound.gains.trans (gains_insertName id slot name e'), fun h => ?_⟩
  refine (hfound.handed h).insertName ⟨fun hs' ho hb ht hslot => ?_, fun hs' ho => ?_,
    fun hs' hother => ?_, fun hs' ho hsettled hslot => ?_⟩ <;> cases hs.symm.trans (hback hs')
  -- The scope that is extended has a name for the slot, which the search has found.
  · obtain ⟨n, hn, hrun'⟩ := h.base_found limit hs ho hb (hback ht) hslot
    cases hrun.symm.trans hrun'
    exact .inr hn
  · cases howner.symm.trans ho
  · cases hname.symm.trans hother
  · -- A processed scope has a name for the slot already.
    have hsome := h.named hs ho hsettled hslot
    rw [hname] at hsome
    cases hsome

/-- A name that is found for a slot is kept. -/
theorem nameForWithin_named {limit : Nat} (h : nameForWithin limit id slot e = (.ok name, e')) :
    ∃ s, e'.scope? id = some s ∧ s.nameOf? slot = some name := by
  have hrenamed := nameForWithin_renamed limit id slot e
  rw [h] at hrenamed
  obtain ⟨s, hs, ⟨hname, rfl⟩ | ⟨-, _, e₁, -, -, rfl⟩⟩ := nameForWithin_ok h
  · exact ⟨s, hs, hname⟩
  · obtain ⟨s', hs', -⟩ := hrenamed.scope hs
    rw [scope?_modifyScope, if_pos rfl] at hs'
    obtain ⟨s₁, hs₁, rfl⟩ := Option.map_eq_some_iff.mp hs'
    refine ⟨_, scope?_modifyScope_self _ hs₁, ?_⟩
    rw [Scope.nameOf?_insert, if_pos rfl]

/-- A scope that gets a name for a slot on the way gets the one that is found. -/
theorem nameForWithin_answered {limit : Nat}
    (h : nameForWithin limit id slot e = (.ok name, e')) :
    Rescoped (fun _ => Scope.Answered slot name) e e' := by
  induction limit generalizing id e' with
  | zero => cases h
  | succ limit ih =>
    obtain ⟨s, -, ⟨-, rfl⟩ | ⟨-, rest, e₁, hlimit, hrun, rfl⟩⟩ := nameForWithin_ok h
    -- The name was there, and nothing happened; or it comes from elsewhere and is put in here.
    · exact .refl _
    cases hlimit
    have hfound : Rescoped (fun _ => Scope.Answered slot name) e e₁ := by
      cases howner : s.owner with
      | none =>
        have hsame : Rescoped (fun _ => Scope.Answered slot name) e (foundName limit s slot e).2 :=
          foundName_none howner e
        rwa [hrun] at hsame
      | some o =>
        rw [foundName_some howner] at hrun
        exact ih hrun
    refine hfound.trans (.modifyScope fun t _ => .inr ?_)
    rw [Scope.nameOf?_insert, if_pos rfl]

/-- The name of its owner fits a nested scope that has none. -/
theorem NameFits.owned {limit : Nat} {s : Scope} {o : ScopeId} (hs : e.scope? id = some s)
    (howner : s.owner = some o) (hname : s.nameOf? slot = none)
    (hrun : nameForWithin limit o slot e = (.ok name, e')) : NameFits id slot name e' := by
  -- The scope is renamed on the way at most, and if it gets a name for the slot, it is this one.
  have hback : ∀ {s'}, e'.scope? id = some s' →
      s'.owner = some o ∧ ∀ other, s'.nameOf? slot = some other → other = name := fun hs' => by
    have hrenamed := nameForWithin_renamed limit o slot e
    rw [hrun] at hrenamed
    obtain ⟨s₀, hs₀, hR⟩ := hrenamed.back hs'
    cases hs.symm.trans hs₀
    refine ⟨hR.owner.trans howner, fun other hother => ?_⟩
    obtain ⟨s₁, hs₁, hsame | hnew⟩ := (nameForWithin_answered hrun).scope hs
    · cases hs'.symm.trans hs₁
      rw [hsame, hname] at hother
      cases hother
    · cases hs'.symm.trans hs₁
      exact Option.some.inj (hother.symm.trans hnew)
  refine ⟨fun hs' ho => ?_, fun hs' ho ht => ?_, fun hs' hother => .inr ((hback hs').2 _ hother),
    fun hs' ho => ?_⟩
  · cases (hback hs').1.symm.trans ho
  · cases (hback hs').1.symm.trans ho
    obtain ⟨t', ht', hname'⟩ := nameForWithin_named hrun
    cases ht.symm.trans ht'
    exact .inr hname'
  · cases (hback hs').1.symm.trans ho

/-- **Finding or making a name keeps names handed down.** -/
theorem nameForWithin_hands (limit : Nat) (id : ScopeId) (slot : String) (e : Engine) :
    Hands e (nameForWithin limit id slot e).2 := by
  refine nameForWithin_each (R := Hands) (fun howner => .foundName howner _)
    (fun {limit id s name e e₁} hs hname hrun hfound => ?_) limit id e
  -- A scope that is not nested takes the name over from what it extends; a nested one has that of
  -- its owner.
  cases howner : s.owner with
  | none => exact foundName_hands hs howner hname hrun
  | some o =>
    rw [foundName_some howner] at hrun
    exact trans_of Hands hfound (.insertName (.owned hs howner hname hrun))

/-! ### Processing -/

/-- Putting a name into the place of a rule changes no scope. -/
theorem placeName_unchanged (cell : Option Nat) (name slot : String) (e : Engine) :
    Steps (Rescoped fun _ => Eq) (placeName cell name slot) e := by
  cases cell with
  | none => exact .throw _ e
  | some cell => exact Rescoped.fillCell e cell name slot

/-- **Naming a rule keeps names handed down,** when the rule's scope is nested or is not processed
    yet. -/
theorem assignName_hands (hid : ∀ {s}, e.scope? id = some s → s.owner = none → ¬ s.Settled)
    (key : Nat) : Hands e (assignName id key e).2 := by
  -- The place of the rule is no name of a slot.
  refine assignName_steps (R := Hands) (fun rule slot hr hslot hkind => ?_)
    fun cell name slot e₁ => .unchanged (placeName_unchanged cell name slot e₁)
  cases hexplicit : rule.explicitName with
  | some name =>
    obtain ⟨s, hs, hkey⟩ := rule?_eq_some_iff.mp hr
    have hspells : s.Spells slot name := ⟨rule, List.mem_of_getElem? hkey, hslot, hkind, hexplicit⟩
    exact .bind (.modify (.insertName (.spelled hs hspells (hid hs)))) fun _ e₁ _ => .pure name e₁
  | none => exact nameForWithin_hands e.walkLimit id slot e

/-- The name of a rule is the one that it spells, if it does, and also that of its slot. -/
theorem ruleName_ok {explicitName : Option String} {s : Scope} (hs : e.scope? id = some s)
    (h : ruleName id slot explicitName e = (.ok name, e')) :
    (∀ spelled, explicitName = some spelled → name = spelled) ∧
      ∃ s', e'.scope? id = some s' ∧ s'.nameOf? slot = some name := by
  cases explicitName with
  | none => exact ⟨nofun, nameForWithin_named h⟩
  | some name' =>
    unfold ruleName at h
    cases h
    refine ⟨fun _ heq => Option.some.inj heq, _, scope?_modifyScope_self _ hs, ?_⟩
    rw [Scope.nameOf?_insert, if_pos rfl]

/-- A rule of a named kind names its slot. -/
theorem assignName_named {rule : Rule} (hr : e.rule? id key = some rule)
    (hslot : rule.slot = some slot) (hkind : rule.kind.isNamed = true)
    (h : assignName id key e = (.ok (), e')) :
    ∃ s, e'.scope? id = some s ∧ (s.nameOf? slot).isSome := by
  rw [assignName_slotted hr hslot hkind] at h
  obtain ⟨name, e₁, hname, hplace⟩ := stateful_bind_eq_ok h
  obtain ⟨s, hs, -⟩ := rule?_eq_some_iff.mp hr
  obtain ⟨-, s₁, hs₁, hnamed⟩ := ruleName_ok hs hname
  -- Filling the rule's place leaves names of slots alone.
  have hsame := placeName_unchanged rule.cell name slot e₁
  unfold Steps at hsame
  rw [hplace] at hsame
  obtain ⟨_, hs', rfl⟩ := hsame.scope hs₁
  exact ⟨_, hs', by rw [hnamed]; rfl⟩

/-- **After the steps for the rules of a scope,** their slots have names. -/
theorem forEach_assignName_hands (list : List Nat)
    (hid : ∀ {s}, e.scope? id = some s → s.owner = none → ¬ s.Settled) :
    Hands e (forEach (assignName id) list e).2 ∧
      ((forEach (assignName id) list e).1 = .ok () → ∀ key ∈ list, ∀ {rule slot},
        e.rule? id key = some rule → rule.slot = some slot → rule.kind.isNamed = true →
        ∃ s, (forEach (assignName id) list e).2.scope? id = some s ∧ (s.nameOf? slot).isSome) := by
  induction list generalizing e with
  | nil => exact ⟨refl_of Hands e, fun _ key hkey => by cases hkey⟩
  | cons first rest ih =>
    have hfirst : Hands e (assignName id first e).2 := assignName_hands hid first
    have hrenamed := assignName_renamed id first e
    rw [forEach_cons]
    rcases hrun : assignName id first e with ⟨err | ⟨⟩, e₁⟩ <;> rw [hrun] at hfirst hrenamed
    · rw [stateful_bind_error hrun]
      exact ⟨hfirst, fun hok => by cases hok⟩
    rw [stateful_bind_ok hrun]
    -- The scope is not processed after the step either, so the next one may name a rule as well.
    have hid₁ : ∀ {s}, e₁.scope? id = some s → s.owner = none → ¬ s.Settled := fun hs₁ ho => by
      obtain ⟨s, hs, hR⟩ := hrenamed.back hs₁
      have hstate := hid hs (hR.owner ▸ ho)
      rw [hR.eq_names]
      exact hstate
    obtain ⟨hrest, hnamed⟩ := ih hid₁
    refine ⟨trans_of Hands hfirst hrest, fun hok key hkey rule slot hr hslot hkind => ?_⟩
    -- The slot has its name after its own step, and keeps it through those that follow.
    rcases List.mem_cons.mp hkey with rfl | hmem
    · obtain ⟨s, hs, hname⟩ := assignName_named hr hslot hkind hrun
      obtain ⟨s', hs', hG⟩ := hrest.gains.scope hs
      exact ⟨s', hs', hG.named hname⟩
    · obtain ⟨s, hs, hget⟩ := rule?_eq_some_iff.mp hr
      obtain ⟨s₁, hs₁, hR⟩ := hrenamed.scope hs
      exact hnamed hok key hmem (rule?_eq_some_iff.mpr ⟨s₁, hs₁, hR.rules ▸ hget⟩) hslot hkind

/-- After all steps for the rules of a scope, it is ready to be processed. -/
theorem processRules_hands {s : Scope} (hs : e.scope? id = some s) (hl : s.Listed)
    (hid : s.owner = none → ¬ s.Settled) :
    Hands e (processRules id s.order e).2 ∧ ((processRules id s.order e).1 = .ok () →
      ∃ s', (processRules id s.order e).2.scope? id = some s' ∧
        ∀ slot, s'.NamesSlot slot → (s'.nameOf? slot).isSome) := by
  have hids : ∀ {s'}, e.scope? id = some s' → s'.owner = none → ¬ s'.Settled := fun hs' ho => by
    cases hs.symm.trans hs'
    exact hid ho
  obtain ⟨hnames, hnamed⟩ := forEach_assignName_hands s.order hids
  unfold processRules
  rcases hA : forEach (assignName id) s.order e with ⟨err | ⟨⟩, eA⟩ <;> rw [hA] at hnames hnamed
  · rw [stateful_bind_error hA]
    exact ⟨hnames, fun hok => by cases hok⟩
  rw [stateful_bind_ok hA]
  have hmerge := forEach_mergeAt_remerged (fun key => (id, key)) s.order eA
  have hok := forEach_mergeAt_ok (fun key => (id, key)) s.order eA
  rcases hB : forEach (mergeAt id) s.order eA with ⟨r, eB⟩
  rw [hB] at hmerge hok
  cases hok
  rw [stateful_bind_ok hB]
  let eC := eB.modifyScope id fun s => { s with byKind := s.buckets }
  have hmerged : Hands eA eB :=
    .spared (hmerge.mono fun _ _ _ _ hR => hR.resourced) fun hs hs' => by
    obtain ⟨s', hs'', hR⟩ := hmerge.scope hs
    cases hs'.symm.trans hs''
    rw [hR.eq_rules]
  -- Merging and sorting leave names alone, so what naming did is what there is at the end.
  have hsorted : Hands eB eC :=
    .modifyScope (fun _ _ => .of_rules rfl rfl rfl rfl rfl rfl rfl fun h => h) fun _ => rfl
  have hbehind : Hands eA eC := trans_of Hands hmerged hsorted
  have hall : Hands e eC := trans_of Hands hnames hbehind
  refine ⟨hall, fun _ => ?_⟩
  obtain ⟨s', hs', hG⟩ := hall.gains.scope hs
  refine ⟨s', hs', fun slot hslot => ?_⟩
  obtain ⟨rule, hrule, hslot, hkind⟩ := hG.resourced.namesSlot.mp hslot
  obtain ⟨key, hkey⟩ := List.mem_iff_getElem?.mp hrule
  -- The order lists all rules, so the one of the slot has been named.
  have hlt : key < s.rules.length := (List.getElem?_eq_some_iff.mp hkey).1
  obtain ⟨sA, hsA, hname⟩ := hnamed rfl key (hl.mem_order.mpr hlt)
    (rule?_eq_some_iff.mpr ⟨s, hs, hkey⟩) hslot hkind
  obtain ⟨sC, hsC, hG'⟩ := hbehind.gains.scope hsA
  cases hs'.symm.trans hsC
  exact hG'.named hname

/-- A scope counts as processed when its slots have names. -/
theorem Hands.settle {s : Scope} (hs : e.scope? id = some s)
    (hnamed : ∀ slot, s.NamesSlot slot → (s.nameOf? slot).isSome) (event : Event) :
    Hands e ((e.modifyScope id fun s => { s with state := .processed }).report event) := by
  have hr : Rescoped (fun _ => Scope.Resourced False) e
      ((e.modifyScope id fun s => { s with state := .processed }).report event) := by
    refine .trans (.modifyScope fun t _ => ?_) (.report event)
    exact .of_rules rfl rfl rfl rfl rfl rfl rfl fun _ => by simp [Scope.Settled]
  refine ⟨hr.mono fun _ _ _ _ hR => hR.gains,
    fun h => h.spared hr fun {k t t'} ht ht' hsettled => ?_⟩
  rw [scope?_report] at ht'
  by_cases hk : k = id
  · subst hk
    cases hs.symm.trans ht
    exact .inr fun _ => hnamed
  · rw [scope?_modifyScope_of_ne _ hk, ht] at ht'
    cases ht'
    exact .inl hsettled

/-- **Processing scopes keeps names handed down.** -/
theorem processWithin_hands (limit : Nat) {c : ScopeId} (h : Among id c e)
    (hc : ∀ {s}, e.scope? c = some s → s.owner = none → ¬ s.Settled) :
    Hands e (processWithin limit c e).2 := by
  induction limit generalizing c e with
  | zero => exact refl_of Hands e
  | succ limit ih =>
    obtain ⟨s, hs⟩ := h.inside.live
    rw [processWithin_succ, stateful_bind_ok (requireScope_some hs)]
    obtain ⟨hrules, hready⟩ := processRules_hands hs (h.listed hs) (hc hs)
    rcases h₁ : processRules c s.order e with ⟨err | ⟨⟩, e₁⟩ <;> rw [h₁] at hrules hready
    · rw [stateful_bind_error h₁]
      exact hrules
    rw [stateful_bind_ok h₁]
    refine trans_of Hands hrules ?_
    obtain ⟨s₁, hs₁, hnamed⟩ := hready rfl
    -- What is nested in the scope has an owner.
    have hchildren : Hands e₁ (forEach (processWithin limit) s.children e₁).2 := by
      refine forEach_steps s.children fun c' hc' e' h' => ?_
      have hgains := hrules.gains.trans h'.gains
      have hchild := (h.child hs hc').resourced (P := fun _ => True)
        (hgains.mono fun _ _ _ _ hG => hG.resourced)
      refine ih hchild fun {t} ht ho => ?_
      obtain ⟨u, hu, ho'⟩ := h.child_owner hs hc'
      obtain ⟨t', ht', hG⟩ := hgains.scope hu
      cases ht.symm.trans ht'
      rw [hG.resourced.owner, ho'] at ho
      cases ho
    rcases h₂ : forEach (processWithin limit) s.children e₁ with ⟨err | ⟨⟩, e₂⟩ <;>
      rw [h₂] at hchildren
    · rw [stateful_bind_error h₂]
      exact hchildren
    rw [stateful_bind_ok h₂]
    obtain ⟨s₂, hs₂, hG⟩ := hchildren.gains.scope hs₁
    refine trans_of Hands hchildren (.settle hs₂ (fun slot hslot => ?_) _)
    exact hG.named (hnamed slot (hG.resourced.namesSlot.mp hslot))

/-! ### Building -/

/-- A scope with a name is processed, while those that are not have none. -/
theorem Unnamed.settled (h : e.Unnamed) {s : Scope} (hs : e.scope? k = some s)
    (hname : s.nameOf? slot = some name) : s.Settled := by
  by_contra hn
  have hnone : s.names = [] := h hs hn
  unfold Scope.nameOf? at hname
  rw [hnone] at hname
  cases hname

/-- Declaring keeps names handed down, while scopes that are not processed have no names. -/
theorem Handed.redeclares (h : Handed e) (hs : Sound roots e) (hu : e.Unnamed)
    (hr : Redeclares e e') : Handed e' where
  base_ready hs' hb := by
    obtain ⟨t, ht, hsettled, ho⟩ := hr.base_ready h.base_ready hs' hb
    exact ⟨t, hr.kept ht hsettled, hsettled, ho⟩
  named hs' ho hsettled := h.named (hr.settled_back hs' hsettled) ho hsettled
  handed {k s' b t' slot name} hs' ho hb ht' hslot hname := by
    have hs₀ := hr.settled_back hs' (Unnamed.settled (hr.unnamed hu) hs' hname)
    obtain ⟨t, ht, hsettled', -⟩ := h.base_ready hs₀ hb
    cases ht'.symm.trans (hr.kept ht hsettled')
    exact h.handed hs₀ ho hb ht hslot hname
  owned {k s' o t' slot name} hs' ho ht' hname := by
    have hsettled := Unnamed.settled (hr.unnamed hu) hs' hname
    have hs₀ := hr.settled_back hs' hsettled
    obtain ⟨t, ht, hsettled'⟩ := hs.settles_owner hs₀ hsettled ho
    cases ht'.symm.trans (hr.kept ht hsettled')
    exact h.owned hs₀ ho ht hname

/-- Names are handed down among the scopes that are left. -/
theorem Handed.abandoned {e₂ : Engine} {key : Nat} {r : Except Error Unit} (h : Handed e)
    (hs : Sound (id :: roots) e) (hproc : Processes (e.Inside id) e r e₂) (hhands : Hands e e₂)
    (ha : Abandoned id key e₂ e') : Handed e' := by
  have h₂ := hhands.handed h
  refine ⟨fun hs' hb => ?_, fun hs' => h₂.named (ha.back hs').2,
    fun hs' ho hb ht' => h₂.handed (ha.back hs').2 ho hb (ha.back ht').2,
    fun hs' ho ht' => h₂.owned (ha.back hs').2 ho (ha.back ht').2⟩
  obtain ⟨s, hs₀, hG⟩ := hhands.gains.back (ha.back hs').2
  obtain ⟨t, ht, hsettled, ho⟩ := h.base_ready hs₀ (hG.resourced.base ▸ hb)
  exact ⟨t, ha.kept_settled hs hproc ht hsettled, hsettled, ho⟩

/-- Processing the scope of a definition keeps names handed down. -/
theorem processScope_hands (hs : Sound (id :: roots) e) : Hands e (processScope id e).2 :=
  processWithin_hands e.walkLimit hs.among fun hs' _ =>
    hs.unsettled List.mem_cons_self hs.among.inside hs'

/-- **Names that are handed down survive building.** -/
theorem handed_survives : Survives Handed where
  unchanged h hr _ := (Hands.unchanged hr).handed h
  redeclares h hs hu hr _ := h.redeclares hs hu hr
  processed h hs _ hrun := by
    have hhands := processScope_hands hs
    rw [hrun] at hhands
    exact hhands.handed h
  unprocessed {id _ _ _ _ key} h hs _ hrun := by
    have hhands := processScope_hands hs
    have hproc := hs.pending.processScope hs
    rw [hrun] at hhands hproc
    exact h.abandoned hs hproc hhands (abandon_abandoned hproc.linked id key)
  failed {id _ e key} h hs := by
    have hproc : Processes (e.Inside id) e (.error .unknownScope) e :=
      ⟨hs.linked, .refl e, fun hok => by cases hok⟩
    exact h.abandoned hs hproc (refl_of Hands e) (abandon_abandoned hs.linked id key)

end Engine

end StyleBook
