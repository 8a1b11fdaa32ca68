import StyleBook.Proofs.Name.RuleNames

namespace StyleBook

/-!
# Names of rules while scopes are processed

Once a scope is processed its rules have names, and so have their slots. A nested scope has the
names of its owner, but for those that its own rules spell.

* `Engine.Labelled` — so it is in an engine;
* `Engine.Dubs` — what processing may do to names while it keeps this;
* `Engine.nameForWithin_dubs`, `Engine.assignName_dubs`, `Engine.processWithin_dubs` — finding or
  making a name does, naming a rule does while nothing is named below, and so does processing.
-/

/-- Rules keep their names while those that are there stay. -/
theorem Scope.Labelled.dubbed {near own : Prop} {s s' : Scope} {names names' : Names}
    (h : s.Labelled names) (hd : Scope.Dubbed near own s s') (hkeeps : Scope.KeepsNames s s')
    (hnames : ∀ cell name, names cell = some name → names' cell = some name) :
    s'.Labelled names' := by
  unfold Scope.Labelled
  rw [hd.length_eq]
  exact Scope.LabelledTo.dubbed h hd hkeeps hnames

namespace Engine

variable {e e' e'' : Engine} {id k c : ScopeId} {key : Nat} {slot name : String}

/-- A change of scopes along two relations. -/
theorem Rescoped.and {R Q : ScopeId → Scope → Scope → Prop} (h : Rescoped R e e')
    (h' : Rescoped Q e e') : Rescoped (fun k s s' => R k s s' ∧ Q k s s') e e' where
  keys := h.keys
  scope hs := by
    obtain ⟨s', hs', hR⟩ := h.scope hs
    obtain ⟨s'', hs'', hQ⟩ := h'.scope hs
    cases hs'.symm.trans hs''
    exact ⟨s', hs', hR, hQ⟩
  singletons := h.singletons
  nextScope := h.nextScope

/-- **Rules and slots have names:** a processed scope's rules have them, and a name that a nested
    scope has is that of its owner, unless a rule of the nested scope spells one for the slot. -/
structure Labelled (e : Engine) : Prop where
  owned {k s o t slot name} : e.scope? k = some s → s.owner = some o → e.scope? o = some t →
    s.nameOf? slot = some name → (∃ n, s.Spells slot n) ∨ t.nameOf? slot = some name
  labelled {k s} : e.scope? k = some s → s.Settled → s.Labelled e.names

namespace Labelled

/-- Changes that spare names. -/
theorem spared (h : Labelled e) (hr : Rescoped (fun _ => Scope.Dubbed False False) e e')
    (hp : KeepsPlaces e e') : Labelled e' where
  owned hs' ho ht' hname := by
    obtain ⟨s, hs, hD⟩ := hr.back hs'
    obtain ⟨t, ht, hD'⟩ := hr.back ht'
    rw [hD.resourced.nameOf? not_false] at hname
    simp only [hD.resourced.spells, hD'.resourced.nameOf? not_false]
    exact h.owned hs (hD.resourced.owner ▸ ho) ht hname
  labelled hs' hsettled := by
    obtain ⟨s, hs, hD⟩ := hr.back hs'
    have hold : s.Settled := by
      unfold Scope.Settled at hsettled ⊢
      rwa [← hD.state not_false]
    exact (h.labelled hs hold).dubbed hD (hD.keeps not_false) hp

/-- **One more name,** if a processed scope has no other one for the slot, and the scope, its owner
    and what is nested in it agree on it. -/
theorem insertName (h : Labelled e)
    (hkeeps : ∀ {s other}, e.scope? id = some s → s.Settled → s.nameOf? slot = some other →
      other = name)
    (hfrom : ∀ {s o t}, e.scope? id = some s → s.owner = some o → e.scope? o = some t →
      (∃ n, s.Spells slot n) ∨ t.nameOf? slot = some name)
    (hto : ∀ {k s other}, e.scope? k = some s → s.owner = some id → s.nameOf? slot = some other →
      (∃ n, s.Spells slot n) ∨ other = name) :
    Labelled (e.modifyScope id fun s => { s with names := s.names.insert slot name }) := by
  have hr : Rescoped (fun _ => Scope.Renamed True) e
      (e.modifyScope id fun s => { s with names := s.names.insert slot name }) :=
    .modifyScope fun s _ => .names trivial s _
  have hcells : (e.modifyScope id fun s => { s with names := s.names.insert slot name }).names =
      e.names := names_modifyScope _
  have hlook : ∀ {k s s'}, e.scope? k = some s →
      (e.modifyScope id fun s => { s with names := s.names.insert slot name }).scope? k = some s' →
      ∀ other, s'.nameOf? other = if k = id ∧ other = slot then some name else s.nameOf? other := by
    intro k s s' hs hs' other
    by_cases hk : k = id
    · subst hk
      rw [scope?_modifyScope_self _ hs] at hs'
      cases hs'
      simp only [true_and, Scope.nameOf?_insert]
    · rw [scope?_modifyScope_of_ne _ hk, hs] at hs'
      cases hs'
      rw [if_neg fun hc => hk hc.1]
  refine ⟨fun {k s' o t' slot' name'} hs' ho ht' hname => ?_, fun {k s'} hs' hsettled => ?_⟩
  · obtain ⟨s, hs, hR⟩ := hr.back hs'
    obtain ⟨t, ht, -⟩ := hr.back ht'
    have ho := hR.owner ▸ ho
    rw [hlook hs hs'] at hname
    rw [hlook ht ht']
    simp only [hR.resourced.spells]
    split at hname
    · next heq =>
      -- The scope itself gets the name.
      obtain ⟨rfl, rfl⟩ := heq
      cases hname
      split
      · exact .inr rfl
      · exact hfrom hs ho ht
    · rcases h.owned hs ho ht hname with hspells | howned
      · exact .inl hspells
      split
      · next heq =>
        -- Its owner does.
        obtain ⟨rfl, rfl⟩ := heq
        exact (hto hs ho hname).imp_right fun heq => by rw [heq]
      · exact .inr howned
  · obtain ⟨s, hs, hR⟩ := hr.back hs'
    have hold : s.Settled := hR.relinked.settled.mp hsettled
    have hkept : Scope.KeepsNames s s' := fun slot' name' hname' => by
      rw [hlook hs hs']
      split
      · next heq =>
        obtain ⟨rfl, rfl⟩ := heq
        rw [hkeeps hs hold hname']
      · exact hname'
    have hdubbed : Scope.Dubbed True False s s' := hR.dubbed fun _ => hkept
    rw [hcells]
    exact (h.labelled hs hold).dubbed hdubbed hkept fun _ _ hname => hname

end Labelled

/-! ### What processing does to names -/

/-- **What processing may do to names:** only `near` scopes get any, only those whose `own` turn it
    is lose any, and rules and slots have the names they should. -/
structure Dubs (near own : ScopeId → Prop) (e e' : Engine) : Prop where
  scopes : Rescoped (fun k => Scope.Dubbed (near k) (own k)) e e'
  places : KeepsPlaces e e'
  labelled : Labelled e → Labelled e'

namespace Dubs

variable {near own near' own' : ScopeId → Prop}

instance : IsPreorder Engine (Dubs near own) where
  refl e := ⟨.refl e, refl_of KeepsPlaces e, fun h => h⟩
  trans _ _ _ h h' := ⟨h.scopes.trans h'.scopes, trans_of KeepsPlaces h.places h'.places,
    h'.labelled ∘ h.labelled⟩

/-- With less said about which scopes may get names. -/
theorem mono (h : Dubs near own e e') (hnear : ∀ k, near k → near' k) (hown : ∀ k, own k → own' k) :
    Dubs near' own' e e' :=
  { h with scopes := h.scopes.mono fun k _ _ _ hD => hD.mono (hnear k) (hown k) }

/-- Scopes are nested as before. -/
theorem inside_iff (h : Dubs near own e e') {root : ScopeId} : e'.Inside root k ↔ e.Inside root k :=
  h.scopes.inside_iff fun _ _ _ hD => hD.resourced.owner

/-- A change that spares names. -/
theorem spared (hr : Rescoped (fun _ => Scope.Dubbed False False) e e') (hp : KeepsPlaces e e') :
    Dubs near own e e' where
  scopes := hr.mono fun _ _ _ _ hD => hD.mono False.elim False.elim
  places := hp
  labelled h := h.spared hr hp

/-- A change of what rules inherit. -/
theorem remerged (hr : Rescoped (fun _ => Scope.Remerged) e e') (ht : Touched e e') :
    Dubs near own e e' :=
  spared (hr.mono fun _ _ _ _ hR => hR.dubbed) (.of_cells (by rw [ht]))

/-- A report gives no names. -/
theorem report (event : Event) : Dubs near own e (e.report event) :=
  spared (.report event) (.of_cells rfl)

end Dubs

/-- Finding a name gives names to the scope and to those it is nested in. -/
theorem nameForWithin_dubbed (limit : Nat) (id : ScopeId) (slot : String) (e : Engine) :
    Rescoped (fun k => Scope.Dubbed (e.Inside k id) False) e (nameForWithin limit id slot e).2 :=
  ((nameForWithin_renamed limit id slot e).and (nameForWithin_keepsNames limit id slot e)).mono
    fun _ _ _ _ hR => hR.1.dubbed fun _ => hR.2

/-- **Finding or making a name** leaves rules and slots the names they should have. -/
theorem nameForWithin_labelled (limit : Nat) (id : ScopeId) (slot : String) (e : Engine)
    (h : Labelled e) : Labelled (nameForWithin limit id slot e).2 := by
  refine nameForWithin_each (R := Sustains Labelled) (fun howner => foundName_steps
    (fun o _ => howner o) fun _ h => ?_) (fun {limit id s name e e₁} hs hname hrun hstep h => ?_)
    limit id e h
  · exact h.spared (Rescoped.generateName _ _ _) (.of_cells (generateName_cells _ _ _))
  have hfound := hstep h
  have hrenamed := foundName_renamed limit s slot e
  rw [hrun] at hrenamed
  obtain ⟨s₁, hs₁, hR⟩ := hrenamed.scope hs
  refine hfound.insertName (fun hs' _ => foundName_new hs hname hrun hs')
    (fun {s' o t} hs' ho ht => .inr ?_) fun hk ho hother =>
      (hfound.owned hk ho hs₁ hother).imp_right (foundName_new hs hname hrun hs₁)
  -- The name of a nested scope is its owner's.
  cases hs₁.symm.trans hs'
  rw [foundName_some (hR.owner ▸ ho)] at hrun
  obtain ⟨t', ht', hname'⟩ := nameForWithin_named hrun
  cases ht.symm.trans ht'
  exact hname'

/-- Finding or making a name gives names to the scope and to those around it. -/
theorem nameForWithin_dubs (limit : Nat) (id : ScopeId) (slot : String) (e : Engine)
    {own : ScopeId → Prop} :
    Dubs (fun k => e.Inside k id) own e (nameForWithin limit id slot e).2 where
  scopes := (nameForWithin_dubbed limit id slot e).mono fun _ _ _ _ hD =>
    hD.mono (fun h => h) False.elim
  places := .of_cells (nameForWithin_cells limit id slot e)
  labelled := nameForWithin_labelled limit id slot e

/-! ### Processing -/

/-- Putting a name into a place changes no name of a scope. -/
theorem placeName_dubs {near own : ScopeId → Prop} (cell : Option Nat) (name slot : String)
    (e : Engine) : Dubs near own e (placeName cell name slot e).2 := by
  refine .spared ?_ (placeName_keepsPlaces cell name slot e)
  cases cell with
  | none => exact .refl e
  | some cell => exact Rescoped.fillCell e cell name slot

/-- **Naming a rule** leaves rules and slots the names they should have, while the scope is not
    processed and nothing nested in it has names. -/
theorem assignName_dubs (hid : e.Unsettled id)
    (hbelow : ∀ {k s}, e.scope? k = some s → s.owner = some id → s.names = []) (key : Nat) :
    Dubs (fun k => e.Inside k id) (· = id) e (assignName id key e).2 := by
  refine assignName_steps (fun rule slot hr hslot hkind => ?_) fun cell name slot e₁ =>
    placeName_dubs cell name slot e₁
  cases hexplicit : rule.explicitName with
  | none => exact nameForWithin_dubs e.walkLimit id slot e
  | some name =>
    obtain ⟨s, hs, hkey⟩ := rule?_eq_some_iff.mp hr
    have hspells : ∃ n, s.Spells slot n :=
      ⟨name, rule, List.mem_of_getElem? hkey, hslot, hkind, hexplicit⟩
    -- A spelled name goes to the slot and to the rule at once. The scope is not processed, and
    -- nothing nested in it has a name that would have to be the same.
    refine .bind (.modify ⟨.modifyScope fun t ht => ?_, .of_cells ?_, fun h => ?_⟩)
      fun _ e₁ _ => .pure name e₁
    · exact (Scope.Renamed.names (.root ht) t _).dubbed fun hne => absurd rfl hne
    · exact congrArg (·.cells) (Touched.modifyScope _)
    · refine h.insertName (fun hs' hsettled => absurd hsettled (hid hs'))
        (fun hs' _ _ => .inl ?_) fun {k t other} hk ho hother => ?_
      · cases hs.symm.trans hs'
        exact hspells
      · unfold Scope.nameOf? at hother
        rw [hbelow hk ho] at hother
        cases hother

/-- So do the steps for all its rules. -/
theorem forEach_assignName_dubs (list : List Nat) (hl : Linked e) (hid : e.Unsettled id)
    (hbelow : ∀ {k s}, e.scope? k = some s → s.owner = some id → s.names = []) :
    Dubs (fun k => e.Inside k id) (· = id) e (forEach (assignName id) list e).2 := by
  induction list generalizing e with
  | nil => exact refl_of (Dubs _ _) e
  | cons key rest ih =>
    have hfirst := assignName_dubs hid hbelow key
    have hrenamed := assignName_renamed id key e
    have hlinked := hl.relinked (hrenamed.mono fun _ _ _ _ hR => hR.relinked)
    rw [forEach_cons]
    rcases hrun : assignName id key e with ⟨err | ⟨⟩, e₁⟩ <;> rw [hrun] at hfirst hrenamed hlinked
    · rw [stateful_bind_error hrun]
      exact hfirst
    rw [stateful_bind_ok hrun]
    refine trans_of (Dubs _ _) hfirst
      ((ih hlinked (fun {s₁} hs₁ => ?_) fun {k s₁} hs₁ ho => ?_).mono
      (fun k => hfirst.inside_iff.mp) fun _ h => h)
    -- The scope is not processed after a step, so that the next rule may be named.
    · obtain ⟨s, hs, hR⟩ := hrenamed.back hs₁
      exact fun hsettled => hid hs (hR.relinked.settled.mp hsettled)
    · -- A nested scope is not one that its owner is nested in.
      obtain ⟨s, hs, hR⟩ := hrenamed.back hs₁
      have howner : s.owner = some id := hR.owner ▸ ho
      have hnot : ¬ e.Inside k id := fun hin =>
        absurd (hl.le_of_inside hin) (Nat.not_le.mpr (hl.owner_child hs howner).1)
      rw [hR.eq_of_not hnot]
      exact hbelow hs howner

/-- **A scope whose turn it is:** what is inside of it is not processed, and what is nested in it
    has no names. -/
structure Awaits (c : ScopeId) (e : Engine) : Prop where
  linked : Linked e
  unsettled {k : ScopeId} : e.Inside c k → e.Unsettled k
  unnamed {k : ScopeId} {s : Scope} : e.Inside c k → k ≠ c → e.scope? k = some s → s.names = []

/-- The steps for the rules of a scope give them names. -/
theorem processRules_dubs {s : Scope} (h : Awaits id e) (hs : e.scope? id = some s) :
    Dubs (fun k => e.Inside k id) (· = id) e (processRules id s.order e).2 ∧
      ((processRules id s.order e).1 = .ok () →
        ∃ s', (processRules id s.order e).2.scope? id = some s' ∧
          s'.Labelled (processRules id s.order e).2.names) := by
  have hnames := forEach_assignName_dubs s.order h.linked (h.unsettled (.root hs))
    fun {k t} ht ho => h.unnamed (.nested ht ho (.root hs))
      (fun heq => absurd (h.linked.owner_child ht ho).1 (heq ▸ lt_irrefl _)) ht
  unfold processRules
  rcases hA : forEach (assignName id) s.order e with ⟨err | ⟨⟩, eA⟩ <;> rw [hA] at hnames
  · rw [stateful_bind_error hA]
    exact ⟨hnames, fun hok => by cases hok⟩
  rw [stateful_bind_ok hA]
  obtain ⟨sA, hsA, hlabelled⟩ := forEach_assignName_labelled hs (h.linked.listed hs) hA
  -- From here on names stay as they are.
  have hmerge : Dubs (fun _ => False) (fun _ => False) eA (forEach (mergeAt id) s.order eA).2 :=
    forEach_steps s.order fun key _ e' _ =>
      .remerged (mergeAt_remerged id key e') (mergeAt_touched id key e')
  have hok := forEach_mergeAt_ok (fun key => (id, key)) s.order eA
  rcases hB : forEach (mergeAt id) s.order eA with ⟨r, eB⟩
  rw [hB] at hmerge hok
  cases hok
  rw [stateful_bind_ok hB]
  have hsorted : Dubs (fun _ => False) (fun _ => False) eB
      (eB.modifyScope id fun s => { s with byKind := s.buckets }) := by
    refine .spared (.modifyScope fun t _ => ?_)
      (.of_cells (congrArg (·.cells) (Touched.modifyScope _)))
    exact ⟨.of_rules rfl rfl rfl rfl rfl rfl rfl fun h => h, rfl, fun hr => ⟨_, hr, .inl rfl⟩,
      fun _ => refl_of Scope.KeepsNames t, fun _ => rfl⟩
  have hbehind := trans_of (Dubs _ _) hmerge hsorted
  refine ⟨trans_of (Dubs _ _) hnames (hbehind.mono (fun _ => False.elim) fun _ => False.elim),
    fun _ => ?_⟩
  obtain ⟨s', hs', hD⟩ := hbehind.scopes.scope hsA
  exact ⟨s', hs', hlabelled.dubbed hD (hD.keeps not_false) hbehind.places⟩

/-- A scope counts as processed when its rules have names. -/
theorem Labelled.settle (h : Labelled e) {s : Scope} (hs : e.scope? id = some s)
    (hs' : s.Labelled e.names) :
    Labelled (e.modifyScope id fun s => { s with state := .processed }) := by
  have hr : Rescoped (fun _ => Scope.Resourced False) e
      (e.modifyScope id fun s => { s with state := .processed }) :=
    .modifyScope fun _ _ => .of_rules rfl rfl rfl rfl rfl rfl rfl fun _ => by simp [Scope.Settled]
  have hcells : (e.modifyScope id fun s => { s with state := .processed }).names = e.names :=
    names_modifyScope _
  refine ⟨fun hk ho ht hname => ?_, fun {k t'} hk hsettled => ?_⟩
  -- Names of slots are as they were; of processed scopes there is one more.
  · obtain ⟨u, hu, hR⟩ := hr.back hk
    obtain ⟨t, ht, hR'⟩ := hr.back ht
    rw [hR.nameOf? not_false] at hname
    simp only [hR.spells, hR'.nameOf? not_false]
    exact h.owned hu (hR.owner ▸ ho) ht hname
  · rw [hcells]
    by_cases heq : k = id
    · subst heq
      rw [scope?_modifyScope_self _ hs] at hk
      cases hk
      exact hs'
    · exact h.labelled ((scope?_modifyScope_of_ne _ heq).symm.trans hk) hsettled

/-- Scopes that are nested in one, each when its turn comes. -/
theorem forEach_processWithin_dubs {limit : Nat}
    (ih : ∀ {c e}, Awaits c e → Dubs (fun k => e.Inside c k ∨ e.Inside k c) (e.Inside c) e
      (processWithin limit c e).2) (list : List ScopeId) (hnodup : list.Nodup)
    (hdisjoint : ∀ c ∈ list, ∀ c' ∈ list, c ≠ c' → ∀ k, e.Inside c k → ¬ e.Inside c' k)
    (h : ∀ c ∈ list, Awaits c e) :
    Dubs (fun k => ∃ c ∈ list, e.Inside c k ∨ e.Inside k c) (fun k => ∃ c ∈ list, e.Inside c k) e
      (forEach (processWithin limit) list e).2 := by
  induction list generalizing e with
  | nil => exact refl_of (Dubs _ _) e
  | cons c rest ihl =>
    rw [List.nodup_cons] at hnodup
    have hc := h c List.mem_cons_self
    have hfirst : Dubs (fun k => ∃ c' ∈ c :: rest, e.Inside c' k ∨ e.Inside k c')
        (fun k => ∃ c' ∈ c :: rest, e.Inside c' k) e (processWithin limit c e).2 :=
      (ih hc).mono (fun k hk => ⟨c, List.mem_cons_self, hk⟩) fun k hk => ⟨c, List.mem_cons_self, hk⟩
    have hscopes := (ih hc).scopes
    have hproc := processWithin_spec limit c e hc.linked fun _ hin => hc.unsettled hin
    rw [forEach_cons]
    rcases hrun : processWithin limit c e with ⟨err | ⟨⟩, e₁⟩ <;> rw [hrun] at hfirst hscopes hproc
    · rw [stateful_bind_error hrun]
      exact hfirst
    rw [stateful_bind_ok hrun]
    have hinside : ∀ {root k : ScopeId}, e₁.Inside root k ↔ e.Inside root k := hproc.inside_iff
    -- The others still wait for their turn, as nothing inside of them is inside of the first one.
    have hrest := ihl (e := e₁) hnodup.2
      (fun a ha b hb hab k hin => by
        rw [hinside] at hin ⊢
        exact hdisjoint a (List.mem_cons_of_mem c ha) b (List.mem_cons_of_mem c hb) hab k hin)
      fun a ha => by
        have hawaits := h a (List.mem_cons_of_mem c ha)
        have hne : a ≠ c := fun heq => hnodup.1 (heq ▸ ha)
        have hapart : ∀ {k}, e.Inside a k → ¬ e.Inside c k := fun {k} hin =>
          hdisjoint a (List.mem_cons_of_mem c ha) c List.mem_cons_self hne k hin
        refine ⟨hproc.linked, fun hin => ?_, fun {k s'} hin hka hs' => ?_⟩
        · exact hproc.unsettled (hapart (hinside.mp hin)) (hawaits.unsettled (hinside.mp hin))
        · -- What is nested in the other scope got no names.
          obtain ⟨s, hs, hD⟩ := hscopes.back hs'
          have hin := hinside.mp hin
          have hnear : ¬ (e.Inside c k ∨ e.Inside k c) := by
            rintro (hck | hkc)
            · exact hapart hin hck
            · obtain ⟨t, ht⟩ := hkc.live
              exact hapart (.trans hin hkc) (.root ht)
          rw [hD.resourced.names hnear]
          exact hawaits.unnamed hin hka hs
    refine trans_of (Dubs _ _) hfirst (hrest.mono (fun k hk => ?_) fun k hk => ?_)
    · obtain ⟨a, ha, hk⟩ := hk
      exact ⟨a, List.mem_cons_of_mem c ha, hk.imp hinside.mp hinside.mp⟩
    · obtain ⟨a, ha, hk⟩ := hk
      exact ⟨a, List.mem_cons_of_mem c ha, hinside.mp hk⟩

/-- What is inside of a nested scope is inside. -/
theorem Linked.inside_of_child (h : Linked e) {s : Scope} (hs : e.scope? id = some s)
    (hk : ∃ a ∈ s.children, e.Inside a k) : e.Inside id k := by
  obtain ⟨a, ha, hin⟩ := hk
  obtain ⟨t, ht, ho⟩ := h.child_owner hs ha
  exact .trans (.nested ht ho (.root hs)) hin

/-- What a nested scope is inside of, or what is inside of it, is so with the scope as well. -/
theorem Linked.near_of_child (h : Linked e) {s : Scope} (hs : e.scope? id = some s)
    (hk : ∃ a ∈ s.children, e.Inside a k ∨ e.Inside k a) : e.Inside id k ∨ e.Inside k id := by
  obtain ⟨a, ha, hak | hka⟩ := hk
  · exact .inl (h.inside_of_child hs ⟨a, ha, hak⟩)
  · obtain ⟨t, ht, ho⟩ := h.child_owner hs ha
    exact Inside.linear (.nested ht ho (.root hs)) hka

/-- **When the rules of a scope have names, it is the turn of the scopes nested in it.** -/
theorem Awaits.child {s : Scope} {a : ScopeId} (h : Awaits c e)
    (hp : Rescoped (fun _ => Scope.Progressed False) e e')
    (hd : Dubs (fun k => e.Inside k c) (· = c) e e') (hs : e'.scope? c = some s)
    (ha : a ∈ s.children) : Awaits a e' := by
  have hrelinked := hp.mono fun _ _ _ _ hp => hp.relinked not_false
  have hlinked := h.linked.relinked hrelinked
  have hinside : ∀ {k}, e'.Inside a k → e.Inside c k := fun hin =>
    hd.inside_iff.mp (hlinked.inside_of_child hs ⟨a, ha, hin⟩)
  refine ⟨hlinked, fun {k} hin {t'} ht' hsettled => ?_, fun {k t'} hin _ ht' => ?_⟩
  · obtain ⟨t, ht, hR⟩ := hrelinked.back ht'
    exact h.unsettled (hinside hin) ht (hR.settled.mp hsettled)
  · obtain ⟨t, ht, hD⟩ := hd.scopes.back ht'
    have hkc : k ≠ c := fun heq => hlinked.not_inside_child hs ha (heq ▸ hin)
    rw [hD.resourced.names fun hck => ?_]
    · exact h.unnamed (hinside hin) hkc ht
    · -- Two scopes that are inside of each other are the same.
      exact hkc (Nat.le_antisymm (h.linked.le_of_inside hck) (h.linked.le_of_inside (hinside hin)))

/-- **Processing a scope** gives names to its rules and their slots, and to those of the scopes
    nested in it. -/
theorem processWithin_dubs (limit : Nat) {c : ScopeId} (h : Awaits c e) :
    Dubs (fun k => e.Inside c k ∨ e.Inside k c) (e.Inside c) e (processWithin limit c e).2 := by
  induction limit generalizing c e with
  | zero => exact refl_of (Dubs _ _) e
  | succ limit ih =>
    rw [processWithin_succ]
    cases hs : e.scope? c with
    | none =>
      rw [stateful_bind_error (requireScope_none hs)]
      exact refl_of (Dubs _ _) e
    | some s =>
      rw [stateful_bind_ok (requireScope_some hs)]
      obtain ⟨hdubs, hlabelled⟩ := processRules_dubs h hs
      obtain ⟨hprogressed, -⟩ := processRules_spec h.linked hs (h.unsettled (.root hs) hs)
      have hrules : Dubs (fun k => e.Inside c k ∨ e.Inside k c) (e.Inside c) e
          (processRules c s.order e).2 :=
        hdubs.mono (fun _ => .inr) fun k heq => by
          subst heq
          exact .root hs
      rcases h₁ : processRules c s.order e with ⟨err | ⟨⟩, e₁⟩ <;>
        rw [h₁] at hdubs hrules hlabelled hprogressed
      · rw [stateful_bind_error h₁]
        exact hrules
      rw [stateful_bind_ok h₁]
      refine trans_of (Dubs _ _) hrules ?_
      obtain ⟨s₁, hs₁, hnamed⟩ := hlabelled rfl
      obtain ⟨t, ht, hp⟩ := hprogressed.scope hs
      cases hs₁.symm.trans ht
      rw [← hp.children]
      have hlinked : Linked e₁ :=
        h.linked.relinked (hprogressed.mono fun _ _ _ _ hp => hp.relinked not_false)
      have hchildren := forEach_processWithin_dubs (fun h => ih h) s₁.children
        (hlinked.children_nodup hs₁)
        (fun a ha b hb hab k hin => hlinked.children_disjoint hs₁ ha hb hab hin)
        fun a ha => h.child hprogressed hdubs hs₁ ha
      have hnestedDubs : Dubs (fun k => e.Inside c k ∨ e.Inside k c) (e.Inside c) e₁
          (forEach (processWithin limit) s₁.children e₁).2 :=
        (hchildren.mono (fun _ hk => hlinked.near_of_child hs₁ hk)
          fun _ hk => hlinked.inside_of_child hs₁ hk).mono
          (fun _ => .imp hrules.inside_iff.mp hrules.inside_iff.mp) fun _ => hrules.inside_iff.mp
      have hkeeps := hchildren.scopes.scope hs₁
      rcases h₂ : forEach (processWithin limit) s₁.children e₁ with ⟨err | ⟨⟩, e₂⟩ <;>
        rw [h₂] at hnestedDubs hchildren hkeeps
      · rw [stateful_bind_error h₂]
        exact hnestedDubs
      rw [stateful_bind_ok h₂]
      obtain ⟨s₂, hs₂, hD⟩ := hkeeps
      -- The scope itself is not inside of those nested in it, and keeps its names.
      have hown : ¬ ∃ a ∈ s₁.children, e₁.Inside a c := fun ⟨a, ha, hin⟩ =>
        hlinked.not_inside_child hs₁ ha hin
      refine trans_of (Dubs _ _) hnestedDubs (trans_of (Dubs _ _) ⟨.modifyScope fun t _ => ?_,
        .of_cells ?_, fun hl => hl.settle hs₂ ?_⟩ (.report _))
      · exact ⟨.of_rules rfl rfl rfl rfl rfl rfl rfl fun _ => by simp [Scope.Settled], rfl,
          fun hr => ⟨_, hr, .inl rfl⟩, fun _ => refl_of Scope.KeepsNames t,
          fun hn => absurd (.root hs) hn⟩
      · exact congrArg (·.cells) (Touched.modifyScope _)
      · exact hnamed.dubbed hD (hD.keeps hown) hchildren.places

end Engine

end StyleBook
