import StyleBook.Proofs.Engine.Frames
import StyleBook.Proofs.Name.FreshNames
import StyleBook.Proofs.Rule.Parents
import StyleBook.Proofs.Script.Stepwise

namespace StyleBook

/-!
# Where names come from

A scope has the name of a slot from a rule that spells it, from the scope it is nested in, from the
one it extends, or it was made for it.

* `Engine.LeadsTo` — where the links lead along which names are taken over;
* `Engine.Spelled`, `Engine.Made` — what a name goes back to: a rule that spells it, or a call that
  made it;
* `Engine.Credits` — all names of all scopes go back to one of these;
* `Engine.nameForWithin_names`, `Engine.processWithin_sourced` — finding or making a name, and
  processing scopes, keeps this.
-/

/-! ### Scopes -/

namespace Scope

/-- The scope declares the slot under an explicit name. -/
def Spells (s : Scope) (slot name : String) : Prop :=
  ∃ rule ∈ s.rules, rule.slot = some slot ∧ rule.kind.isNamed = true ∧ rule.explicitName = some name

/-- The scope declares the slot with a kind that has names. -/
def NamesSlot (s : Scope) (slot : String) : Prop :=
  ∃ rule ∈ s.rules, rule.slot = some slot ∧ rule.kind.isNamed = true

/-- The scope that names are taken over from: the one this scope is nested in, or else the one it
    extends. -/
def source (s : Scope) : Option ScopeId := s.owner.or s.base

/-- The scope is changed, but not in what names depend on. Its names are changed under `P` only. -/
structure Resourced (P : Prop) (s s' : Scope) : Prop where
  name : s'.name = s.name
  owner : s'.owner = s.owner
  base : s'.base = s.base
  children : s'.children = s.children
  spells {slot name : String} : s'.Spells slot name ↔ s.Spells slot name
  namesSlot {slot : String} : s'.NamesSlot slot ↔ s.NamesSlot slot
  settled : s.Settled → s'.Settled
  listed : s.Listed → s'.Listed
  names : ¬ P → s'.names = s.names

namespace Resourced

variable {P Q : Prop} {s s' : Scope}

instance : IsPreorder Scope (Resourced P) where
  refl _ := ⟨rfl, rfl, rfl, rfl, .rfl, .rfl, id, id, fun _ => rfl⟩
  trans _ _ _ h h' :=
    { name := h'.name.trans h.name
      owner := h'.owner.trans h.owner
      base := h'.base.trans h.base
      children := h'.children.trans h.children
      spells := h'.spells.trans h.spells
      namesSlot := h'.namesSlot.trans h.namesSlot
      settled := h'.settled ∘ h.settled
      listed := h'.listed ∘ h.listed
      names := fun hP => (h'.names hP).trans (h.names hP) }

/-- A weaker condition for new names. -/
theorem mono (h : Resourced P s s') (hPQ : P → Q) : Resourced Q s s' :=
  { h with names := fun hQ => h.names fun hP => hQ (hPQ hP) }

/-- A scope asks for names where it did. -/
theorem source (h : Resourced P s s') : s'.source = s.source := by
  unfold Scope.source
  rw [h.owner, h.base]

/-- A scope that gets no names has those that it had. -/
theorem nameOf? (h : Resourced P s s') (hP : ¬ P) (slot : String) :
    s'.nameOf? slot = s.nameOf? slot := by
  unfold Scope.nameOf?
  rw [h.names hP]

/-- A change of the state, of the users, or of the order by kind. -/
theorem of_rules (hrules : s'.rules = s.rules) (horder : s'.order = s.order)
    (hname : s'.name = s.name) (howner : s'.owner = s.owner) (hbase : s'.base = s.base)
    (hchildren : s'.children = s.children) (hnames : s'.names = s.names)
    (hsettled : s.Settled → s'.Settled) : Resourced P s s' :=
  ⟨hname, howner, hbase, hchildren, by unfold Spells; rw [hrules], by unfold NamesSlot; rw [hrules],
    hsettled, fun hl => hl.congr horder (congrArg List.length hrules), fun _ => hnames⟩

end Resourced

/-- What is renamed depends on the same scopes. -/
theorem Renamed.resourced {P : Prop} {s s' : Scope} (h : Renamed P s s') : Resourced P s s' where
  name := by rw [h.eq_names]
  owner := h.owner
  base := by rw [h.eq_names]
  children := by rw [h.eq_names]
  spells := by unfold Spells; rw [h.rules]
  namesSlot := by unfold NamesSlot; rw [h.rules]
  settled hs := by rw [h.eq_names]; exact hs
  listed hl := h.relinked.listed hl
  names hP := by rw [h.eq_of_not hP]

/-- What rules inherit does not matter to properties that are not about it. -/
theorem Remerged.exists_rule {p : Rule → Prop} {s s' : Scope} (h : Remerged s s')
    (hp : ∀ {r r' : Rule}, r.Remerged r' → (p r' ↔ p r)) :
    (∃ r' ∈ s'.rules, p r') ↔ ∃ r ∈ s.rules, p r := by
  constructor
  · rintro ⟨r', hr', hrest⟩
    obtain ⟨key, hkey⟩ := List.mem_iff_getElem?.mp hr'
    obtain ⟨r, hr, hR⟩ := h.back hkey
    exact ⟨r, List.mem_of_getElem? hr, (hp hR).mp hrest⟩
  · rintro ⟨r, hr, hrest⟩
    obtain ⟨key, hkey⟩ := List.mem_iff_getElem?.mp hr
    obtain ⟨r', hr', hR⟩ := h.rule hkey
    exact ⟨r', List.mem_of_getElem? hr', (hp hR).mpr hrest⟩

/-- So does what is merged. -/
theorem Remerged.resourced {P : Prop} {s s' : Scope} (h : Remerged s s') : Resourced P s s' where
  name := by rw [h.eq_rules]
  owner := by rw [h.eq_rules]
  base := by rw [h.eq_rules]
  children := by rw [h.eq_rules]
  spells := h.exists_rule fun hR => by
    rcases hR with rfl | ⟨-, -, m, rfl⟩ <;> exact .rfl
  namesSlot := h.exists_rule fun hR => by
    rcases hR with rfl | ⟨-, -, m, rfl⟩ <;> exact .rfl
  settled hs := by rw [h.eq_rules]; exact hs
  listed hl := hl.congr h.order h.length_eq
  names _ := by rw [h.eq_rules]

end Scope

namespace Engine

variable {e e' : Engine} {id k j : ScopeId} {slot name : String} {start : Naming}
  {calls calls' : List Generation}

/-! ### Links along which names are taken over -/

/-- **Names that a scope takes over may come from the other one:** the links to owners, and of
    scopes that are not nested to the scopes they extend, lead there. -/
inductive LeadsTo (e : Engine) : ScopeId → ScopeId → Prop
  /-- The scope itself. -/
  | here {k s} (live : e.scope? k = some s) : LeadsTo e k k
  /-- Where the link of a scope leads, and on from there. -/
  | link {k j i s} (live : e.scope? k = some s) (source : s.source = some j)
    (rest : LeadsTo e j i) : LeadsTo e k i

/-- Scopes with the same links lead to the same scopes. -/
theorem LeadsTo.of_source (h : e.LeadsTo k j)
    (hsource : ∀ {k s}, e.scope? k = some s → ∃ s', e'.scope? k = some s' ∧ s'.source = s.source) :
    e'.LeadsTo k j := by
  induction h with
  | here hs =>
    obtain ⟨s', hs', -⟩ := hsource hs
    exact .here hs'
  | link hs hlink _ ih =>
    obtain ⟨s', hs', heq⟩ := hsource hs
    exact .link hs' (heq.trans hlink) ih

/-- The name is spelled by a rule of the scope, or of one that the scope takes names over from. -/
def Spelled (e : Engine) (k : ScopeId) (slot name : String) : Prop :=
  ∃ j s, e.LeadsTo k j ∧ e.scope? j = some s ∧ s.Spells slot name

/-- One of the calls made the name for the slot of the scope, or of one that the scope takes names
    over from. -/
def Made (calls : List Generation) (e : Engine) (k : ScopeId) (slot name : String) : Prop :=
  ∃ j s, e.LeadsTo k j ∧ e.scope? j = some s ∧ s.owner = none ∧ ⟨s.name, slot, name⟩ ∈ calls

/-- It is one or the other. -/
def Credited (calls : List Generation) (e : Engine) (k : ScopeId) (slot name : String) : Prop :=
  e.Spelled k slot name ∨ e.Made calls k slot name

/-- A name that a scope takes over. -/
theorem Credited.link {s : Scope} (h : Credited calls e j slot name) (hs : e.scope? k = some s)
    (hlink : s.source = some j) : Credited calls e k slot name := by
  rcases h with ⟨i, t, hlead, ht, hspells⟩ | ⟨i, t, hlead, ht, hrest⟩
  · exact .inl ⟨i, t, .link hs hlink hlead, ht, hspells⟩
  · exact .inr ⟨i, t, .link hs hlink hlead, ht, hrest⟩

/-- More calls credit no less. -/
theorem Credited.mono (h : Credited calls e k slot name) (hsub : calls ⊆ calls') :
    Credited calls' e k slot name :=
  h.imp_right fun ⟨j, s, hlead, hs, ho, hc⟩ => ⟨j, s, hlead, hs, ho, hsub hc⟩

/-- Changes that spare what names depend on keep what names go back to. -/
theorem Credited.resourced {P : ScopeId → Prop} (h : Credited calls e k slot name)
    (hr : Rescoped (fun k => Scope.Resourced (P k)) e e') : Credited calls e' k slot name := by
  have hsource : ∀ {k s}, e.scope? k = some s →
      ∃ s', e'.scope? k = some s' ∧ s'.source = s.source := fun hs =>
    (hr.scope hs).imp fun _ h' => ⟨h'.1, h'.2.source⟩
  rcases h with ⟨j, s, hlead, hs, hspells⟩ | ⟨j, s, hlead, hs, ho, hc⟩
  · obtain ⟨s', hs', hR⟩ := hr.scope hs
    exact .inl ⟨j, s', hlead.of_source hsource, hs', hR.spells.mpr hspells⟩
  · obtain ⟨s', hs', hR⟩ := hr.scope hs
    exact .inr ⟨j, s', hlead.of_source hsource, hs', hR.owner.trans ho, hR.name.symm ▸ hc⟩

/-! ### All names -/

/-- **The calls led to the names of the engine:** each name of a scope goes back to one of them or
    is spelled by a rule. Scopes of definitions have different names, and what they extend is
    processed. -/
structure Credits (start : Naming) (calls : List Generation) (e : Engine) : Prop where
  history : Naming.History start calls e.naming
  credited {k s slot name} : e.scope? k = some s → s.nameOf? slot = some name →
    Credited calls e k slot name
  base_ready {k s b} : e.scope? k = some s → s.base = some b → e.Ready b
  root_known {k s} : e.scope? k = some s → s.owner = none → s.name ∈ e.naming.scopeNames
  root_inj {k j s t} : e.scope? k = some s → s.owner = none → e.scope? j = some t →
    t.owner = none → s.name = t.name → k = j

namespace Credits

/-- Changes that spare what names depend on. New names go back to what they should. -/
theorem resourced {P : ScopeId → Prop} (h : Credits start calls e)
    (hr : Rescoped (fun k => Scope.Resourced (P k)) e e') (hsub : calls ⊆ calls')
    (hhistory : Naming.History start calls' e'.naming)
    (hscopes : e.naming.scopeNames ⊆ e'.naming.scopeNames)
    (hnames : ∀ {k s s' slot name}, e.scope? k = some s → e'.scope? k = some s' →
      s'.nameOf? slot = some name → s.nameOf? slot = some name ∨ Credited calls e k slot name) :
    Credits start calls' e' where
  history := hhistory
  credited hs' hname := by
    obtain ⟨s, hs, -⟩ := hr.back hs'
    refine (Credited.resourced ?_ hr).mono hsub
    -- A name was there, with its credit, or it is new and credited by assumption.
    rcases hnames hs hs' hname with hold | hnew
    · exact h.credited hs hold
    · exact hnew
  base_ready hs' hb := by
    obtain ⟨s, hs, hR⟩ := hr.back hs'
    obtain ⟨t, ht, hsettled, ho⟩ := h.base_ready hs (hR.base ▸ hb)
    obtain ⟨t', ht', hR'⟩ := hr.scope ht
    exact ⟨t', ht', hR'.settled hsettled, hR'.owner.trans ho⟩
  root_known hs' ho := by
    obtain ⟨s, hs, hR⟩ := hr.back hs'
    rw [hR.name]
    exact hscopes (h.root_known hs (hR.owner ▸ ho))
  root_inj hs' ho ht' ho' heq := by
    obtain ⟨s, hs, hR⟩ := hr.back hs'
    obtain ⟨t, ht, hR'⟩ := hr.back ht'
    exact h.root_inj hs (hR.owner ▸ ho) ht (hR'.owner ▸ ho') (hR.name ▸ hR'.name ▸ heq)

/-- Changes that spare names and what names depend on. -/
theorem spared (h : Credits start calls e)
    (hr : Rescoped (fun _ => Scope.Resourced False) e e') (hnaming : e'.naming = e.naming) :
    Credits start calls e' :=
  h.resourced hr (List.Subset.refl _) (hnaming ▸ h.history) (hnaming ▸ List.Subset.refl _)
    fun hs hs' hname => by
      obtain ⟨s', hs'', hR⟩ := hr.scope hs
      cases hs'.symm.trans hs''
      rw [hR.nameOf? not_false] at hname
      exact .inl hname

/-- One more name. -/
theorem insertName (h : Credits start calls e) (hc : Credited calls e id slot name) :
    Credits start calls
      (e.modifyScope id fun s => { s with names := s.names.insert slot name }) := by
  have hr : Rescoped (fun _ => Scope.Renamed True) e
      (e.modifyScope id fun s => { s with names := s.names.insert slot name }) :=
    .modifyScope fun s _ => .names trivial s _
  have hnaming : (e.modifyScope id fun s => { s with names := s.names.insert slot name }).naming =
      e.naming := (Touched.modifyScope _).naming
  refine h.resourced (hr.mono fun _ _ _ _ hR => hR.resourced) (List.Subset.refl _)
    (hnaming ▸ h.history) (hnaming ▸ List.Subset.refl _) fun {k s s' other name'} hs hs' hname => ?_
  -- Of the scope itself only the slot has a new name.
  by_cases hk : k = id
  · subst hk
    rw [scope?_modifyScope_self _ hs] at hs'
    cases hs'
    change (s.names.insert slot name).get? other = some name' at hname
    rw [Dict.get?_insert] at hname
    split at hname
    · subst other
      cases hname
      exact .inr hc
    · exact .inl hname
  · rw [scope?_modifyScope_of_ne _ hk] at hs'
    cases hs.symm.trans hs'
    exact .inl hname

/-- One more call. -/
theorem generate (h : Credits start calls e) (scope slot : String) :
    Credits start (⟨scope, slot, (e.naming.generate scope slot).name⟩ :: calls)
      (generateName scope slot e).2 := by
  have hr : Rescoped (fun _ => Scope.Resourced False) e (generateName scope slot e).2 :=
    Rescoped.generateName e scope slot
  have hnaming : (generateName scope slot e).2.naming = (e.naming.generate scope slot).naming :=
    (Touched.reportAll _).naming
  refine h.resourced hr (List.subset_cons_self _ _) (hnaming ▸ h.history.generate scope slot)
    (by rw [hnaming, Naming.generate_scopeNames]; exact List.Subset.refl _) fun hs hs' hname => ?_
  obtain ⟨s', hs'', hR⟩ := hr.scope hs
  cases hs'.symm.trans hs''
  rw [hR.nameOf? not_false] at hname
  exact .inl hname

/-- A name found along the links to extended scopes. -/
theorem inherited (h : Credits start calls e) {limit : Nat} {base : Option ScopeId}
    (hready : ∀ b, base = some b → e.Ready b)
    (hi : e.inheritedWithin slot limit base = .ok (some name)) :
    ∃ b, base = some b ∧ Credited calls e b slot name := by
  induction limit generalizing base with
  | zero => cases base <;> cases hi
  | succ limit ih =>
    cases base with
    | none => cases hi
    | some b =>
      obtain ⟨t, ht, -, ho⟩ := hready b rfl
      rw [inheritedWithin] at hi
      simp only [ht] at hi
      -- The link leads to a scope that is there, and on from it with one step less.
      refine ⟨b, rfl, ?_⟩
      cases hname : t.nameOf? slot with
      | some found =>
        simp only [hname] at hi
        cases hi
        exact h.credited ht hname
      | none =>
        simp only [hname] at hi
        obtain ⟨c, hc, hcredited⟩ := ih (fun b' hb' => h.base_ready ht hb') hi
        exact hcredited.link ht (by unfold Scope.source; rw [ho, hc]; rfl)

end Credits

/-! ### Finding and making names -/

/-- The engine that a computation leaves is credited if the one is that it found. There may be more
    calls. -/
def Advances (start : Naming) (e e' : Engine) : Prop :=
  ∀ calls, Credits start calls e → ∃ calls', calls ⊆ calls' ∧ Credits start calls' e'

instance : IsPreorder Engine (Advances start) where
  refl _ := fun calls h => ⟨calls, List.Subset.refl _, h⟩
  trans _ _ _ h h' := fun calls hc => by
    obtain ⟨calls₁, hsub, hc₁⟩ := h calls hc
    obtain ⟨calls₂, hsub', hc₂⟩ := h' calls₁ hc₁
    exact ⟨calls₂, List.Subset.trans hsub hsub', hc₂⟩

/-- What is to be shown of a computation of a name for a slot: it advances the engine, and the name
    goes back to what it should. -/
def Names (start : Naming) (id : ScopeId) (slot : String) (c : EngineM String)
    (e : Engine) : Prop :=
  ∀ calls, Credits start calls e → ∃ calls', calls ⊆ calls' ∧ Credits start calls' (c e).2 ∧
    ∀ name, (c e).1 = .ok name → Credited calls' (c e).2 id slot name

/-- A name that a scope takes over from another one. -/
theorem Names.link {c : EngineM String} {s : Scope} (h : Names start j slot c e)
    (hr : Rescoped (fun _ => Scope.Resourced True) e (c e).2) (hs : e.scope? id = some s)
    (hlink : s.source = some j) : Names start id slot c e := fun calls hc => by
  obtain ⟨calls', hsub, hc', hname⟩ := h calls hc
  obtain ⟨s', hs', hR⟩ := hr.scope hs
  exact ⟨calls', hsub, hc', fun name hr => (hname name hr).link hs' (hR.source.trans hlink)⟩

/-- A name that a scope extends for or that is made for it. -/
theorem foundName_names {s : Scope} (limit : Nat) (hs : e.scope? id = some s)
    (howner : s.owner = none) : Names start id slot (foundName limit s slot) e := by
  intro calls h
  unfold foundName
  simp only [howner, stateful_bind, stateful_get]
  rcases hi : e.inheritedWithin slot e.walkLimit s.base with err | _ | name
  · exact ⟨calls, List.Subset.refl _, h, fun _ hr => by cases hr⟩
  · refine ⟨_, List.subset_cons_self _ _, h.generate s.name slot, fun _ hr => ?_⟩
    cases hr
    have hr : Rescoped (fun _ => Scope.Resourced False) e (generateName s.name slot e).2 :=
      Rescoped.generateName e s.name slot
    obtain ⟨s', hs', hR⟩ := hr.scope hs
    exact .inr ⟨id, s', .here hs', hs', hR.owner.trans howner,
      hR.name.symm ▸ List.mem_cons_self⟩
  · refine ⟨calls, List.Subset.refl _, h, fun _ hr => ?_⟩
    cases hr
    obtain ⟨b, hb, hc⟩ := h.inherited (fun b hb => h.base_ready hs hb) hi
    exact hc.link hs (by unfold Scope.source; rw [howner, hb]; rfl)

/-- **A name is found or made,** and goes back to what it should. -/
theorem nameForWithin_names (start : Naming) (limit : Nat) (id : ScopeId) (slot : String)
    (e : Engine) : Names start id slot (nameForWithin limit id slot) e := by
  induction limit generalizing id e with
  | zero => exact fun calls h => ⟨calls, List.Subset.refl _, h, fun _ hr => by cases hr⟩
  | succ limit ih =>
    intro calls h
    rw [nameForWithin_succ]
    cases hs : e.scope? id with
    | none =>
      rw [stateful_bind_error (requireScope_none hs)]
      exact ⟨calls, List.Subset.refl _, h, fun _ hr => by cases hr⟩
    | some s =>
      rw [stateful_bind_ok (requireScope_some hs)]
      cases hname : s.nameOf? slot with
      | some name =>
        refine ⟨calls, List.Subset.refl _, h, fun _ hr => ?_⟩
        cases hr
        exact h.credited hs hname
      | none =>
        -- The name comes from the owner, from an extended scope, or from a call.
        have hfound : Names start id slot (foundName limit s slot) e := by
          cases howner : s.owner with
          | none => exact foundName_names limit hs howner
          | some o =>
            rw [foundName_some howner]
            refine (ih o e).link ?_ hs (by unfold Scope.source; rw [howner]; rfl)
            exact (nameForWithin_renamed limit o slot e).mono fun _ _ _ _ hR =>
              (hR.mono fun _ => trivial).resourced
        obtain ⟨calls₁, hsub, h₁, hc⟩ := hfound calls h
        simp only
        rcases hrun : foundName limit s slot e with ⟨err | name, e₁⟩ <;> rw [hrun] at h₁ hc
        · rw [stateful_bind_error hrun]
          exact ⟨calls₁, hsub, h₁, fun _ hr => by cases hr⟩
        · rw [stateful_bind_ok hrun]
          have hnamed := h₁.insertName (hc name rfl)
          refine ⟨calls₁, hsub, hnamed, fun _ hr => ?_⟩
          cases hr
          exact Credited.resourced (P := fun _ => True) (hc name rfl)
            (Rescoped.modifyScope fun s _ => (Scope.Renamed.names trivial s _).resourced)

/-- Filling a cell advances the engine. -/
theorem fillCell_advances (cell : Nat) (name slot : String) (e : Engine) :
    Advances start e (fillCell cell name slot e).2 := fun calls h => by
  have hnaming : (fillCell cell name slot e).2.naming = e.naming := by
    unfold fillCell
    cases e.cells.get? cell <;> rfl
  exact ⟨calls, List.Subset.refl _, h.spared (.fillCell e cell name slot) hnaming⟩

/-- **Naming a rule advances the engine.** -/
theorem assignName_advances (start : Naming) (id : ScopeId) (key : Nat) (e : Engine) :
    Advances start e (assignName id key e).2 := by
  refine assignName_steps (R := Advances start) (fun rule slot hr hslot hkind => ?_)
    fun cell name slot e₁ => ?_
  · cases hexplicit : rule.explicitName with
    | some name =>
      -- The rule spells the name.
      obtain ⟨s, hs, hkey⟩ := rule?_eq_some_iff.mp hr
      have hspells : s.Spells slot name :=
        ⟨rule, List.mem_of_getElem? hkey, hslot, hkind, hexplicit⟩
      refine .bind (.modify fun calls h => ?_) fun _ e₁ _ => .pure name e₁
      exact ⟨calls, List.Subset.refl _, h.insertName (.inl ⟨id, s, .here hs, hs, hspells⟩)⟩
    | none =>
      intro calls h
      obtain ⟨calls', hsub, h', -⟩ := nameForWithin_names start e.walkLimit id slot e calls h
      exact ⟨calls', hsub, h'⟩
  · cases cell with
    | some cell => exact fillCell_advances cell name slot e₁
    | none => exact .throw _ e₁

/-! ### Processing -/

/-- What processing scopes inside of `id` does to names: those of other scopes stay as they are. -/
structure Sourced (start : Naming) (id : ScopeId) (e e' : Engine) : Prop where
  rescoped : Rescoped (fun k => Scope.Resourced (e.Inside id k)) e e'
  advances : Advances start e e'

namespace Sourced

/-- Scopes are nested as before. -/
theorem inside_iff (h : Sourced start id e e') {root : ScopeId} :
    e'.Inside root k ↔ e.Inside root k :=
  h.rescoped.inside_iff fun _ _ _ hR => hR.owner

instance : IsPreorder Engine (Sourced start id) where
  refl e := ⟨.refl e, refl_of (Advances start) e⟩
  trans _ _ _ h h' :=
    { rescoped := h.rescoped.trans
        (h'.rescoped.mono fun _ _ _ _ hR => hR.mono h.inside_iff.mp)
      advances := trans_of (Advances start) h.advances h'.advances }

/-- A change that spares names and what names depend on. -/
theorem spared (hr : Rescoped (fun _ => Scope.Resourced False) e e')
    (hnaming : e'.naming = e.naming) : Sourced start id e e' where
  rescoped := hr.mono fun _ _ _ _ hR => hR.mono False.elim
  advances calls h := ⟨calls, List.Subset.refl _, h.spared hr hnaming⟩

/-- A change of a scope that spares names and what names depend on. -/
theorem modifyScope {f : Scope → Scope} {c : ScopeId}
    (hf : ∀ s, e.scope? c = some s → Scope.Resourced False s (f s)) :
    Sourced start id e (e.modifyScope c f) :=
  spared (.modifyScope hf) (Touched.modifyScope f).naming

end Sourced

/-- The scope is inside of `id`, which is not nested, and scopes know those nested in them and the
    keys of their rules. -/
structure Among (id c : ScopeId) (e : Engine) : Prop where
  inside : e.Inside id c
  root : ∃ s, e.scope? id = some s ∧ s.owner = none
  child_owner {k s c} : e.scope? k = some s → c ∈ s.children →
    ∃ t, e.scope? c = some t ∧ t.owner = some k
  listed {k s} : e.scope? k = some s → s.Listed

namespace Among

variable {c : ScopeId}

/-- It is still so when scopes are changed that keep their owners and what is nested in them. -/
theorem rescoped {R : ScopeId → Scope → Scope → Prop} (h : Among id c e) (hr : Rescoped R e e')
    (howner : ∀ k s s', R k s s' → s'.owner = s.owner)
    (hchildren : ∀ k s s', R k s s' → s'.children = s.children)
    (hlisted : ∀ k s s', R k s s' → s.Listed → s'.Listed) : Among id c e' where
  inside := (hr.inside_iff howner).mpr h.inside
  root := by
    obtain ⟨s, hs', ho⟩ := h.root
    obtain ⟨s', hs'', hR⟩ := hr.scope hs'
    exact ⟨s', hs'', (howner _ _ _ hR).trans ho⟩
  child_owner hk hc := by
    obtain ⟨s, hs', hR⟩ := hr.back hk
    obtain ⟨t, ht, ho⟩ := h.child_owner hs' (hchildren _ _ _ hR ▸ hc)
    obtain ⟨t', ht', hR'⟩ := hr.scope ht
    exact ⟨t', ht', (howner _ _ _ hR').trans ho⟩
  listed hk := by
    obtain ⟨s, hs', hR⟩ := hr.back hk
    exact hlisted _ _ _ hR (h.listed hs')

/-- What is inside stays so while only names change. -/
theorem resourced {P : ScopeId → Prop} (h : Among id c e)
    (hr : Rescoped (fun k => Scope.Resourced (P k)) e e') : Among id c e' :=
  h.rescoped hr (fun _ _ _ hR => hR.owner) (fun _ _ _ hR => hR.children) fun _ _ _ hR => hR.listed

/-- And while names are made. -/
theorem sourced (h : Among id c e) (hs : Sourced start id e e') : Among id c e' :=
  h.resourced hs.rescoped

/-- What the scope is nested in is inside of `id` as well. -/
theorem inside_of (h : Among id c e) (hk : e.Inside k c) : e.Inside id k := by
  rcases h.inside.linear hk with hin | hin
  · exact hin
  · rw [hin.eq_of_owner h.root]
    obtain ⟨s, hs, -⟩ := h.root
    exact .root hs

/-- What is nested in a scope lies inside of what that one lies in. -/
theorem child (h : Among id c e) {s : Scope} (hs : e.scope? c = some s) {c' : ScopeId}
    (hc : c' ∈ s.children) : Among id c' e := by
  obtain ⟨t, ht, ho⟩ := h.child_owner hs hc
  exact ⟨.nested ht ho h.inside, h.root, h.child_owner, h.listed⟩

end Among

/-- Naming a rule keeps what names go back to. -/
theorem assignName_sourced {c : ScopeId} (h : Among id c e) (key : Nat) :
    Sourced start id e (assignName c key e).2 where
  rescoped := (assignName_renamed c key e).mono fun _ _ _ _ hR => (hR.mono h.inside_of).resourced
  advances := assignName_advances start c key e

/-- So does merging one. -/
theorem mergeAt_sourced (c : ScopeId) (key : Nat) (e : Engine) :
    Sourced start id e (mergeAt c key e).2 :=
  .spared ((mergeAt_remerged c key e).mono fun _ _ _ _ hR => hR.resourced)
    (mergeAt_touched c key e).naming

/-- **Processing scopes keeps what names go back to,** and leaves the names
    of other scopes alone. -/
theorem processWithin_sourced (start : Naming) (limit : Nat) {c : ScopeId} (h : Among id c e) :
    Sourced start id e (processWithin limit c e).2 := by
  induction limit generalizing c e with
  | zero => exact refl_of (Sourced start id) e
  | succ limit ih =>
    obtain ⟨s, hs⟩ := h.inside.live
    rw [processWithin_succ, stateful_bind_ok (requireScope_some hs)]
    have hrules : Sourced start id e (processRules c s.order e).2 := by
      unfold processRules
      refine Steps.bind (R := Sourced start id) (forEach_steps s.order
        fun key _ e' h' => assignName_sourced (h.sourced h') key) fun _ e₁ _ => ?_
      refine .bind (forEach_steps s.order fun key _ e' _ => mergeAt_sourced c key e')
        fun _ e₂ _ => ?_
      exact .modifyScope fun t _ => .of_rules rfl rfl rfl rfl rfl rfl rfl fun h => h
    -- First its rules, then the scopes that are nested in it, which lie inside as well.
    refine Steps.bind (R := Sourced start id) hrules fun _ e₁ h₁ => ?_
    rw [h₁] at hrules
    have hchild : ∀ c' ∈ s.children, Among id c' e₁ := fun c' hc' => (h.child hs hc').sourced hrules
    refine .bind (forEach_steps s.children fun c' hc' e' h' => ih ((hchild c' hc').sourced h'))
      fun _ e₂ _ => ?_
    refine .bind (.modifyScope fun t _ => ?_) fun _ e₃ _ => .spared (.report _) rfl
    exact .of_rules rfl rfl rfl rfl rfl rfl rfl fun _ => by simp [Scope.Settled]

end Engine

end StyleBook
