import StyleBook.Proofs.Name.NameSources

namespace StyleBook

/-!
# Names while definitions declare

All names go back to rules that spell them, or to calls that made them, also while definitions
declare rules and get their scopes.

* `Scope.Redeclared` — a scope that is declared: its names and its nesting stay as they are;
* `Engine.Unnamed` — scopes that are not processed have no names yet;
* `Engine.Redeclares` — a step that declares scopes and may add one;
* `Engine.Tracks` — a step keeps this, and keeps what names go back to;
* `Engine.tracks_stepwise` — every step of building does.
-/

namespace Scope

/-- Rules are declared in the scope, or what it extends or uses; what it extends then is in `B`. A
    processed scope is left alone. -/
structure Redeclared (B : ScopeId → Prop) (s s' : Scope) : Prop where
  name : s'.name = s.name
  owner : s'.owner = s.owner
  state : s'.state = s.state
  names : s'.names = s.names
  base : s'.base = s.base ∨ ∃ b, s'.base = some b ∧ B b
  settled : s.Settled → s' = s

/-- Declaring does not decide whether a scope is processed. -/
theorem Redeclared.settled_iff {B : ScopeId → Prop} {s s' : Scope} (h : Redeclared B s s') :
    s'.Settled ↔ s.Settled := by
  unfold Settled
  rw [h.state]

/-- A change of rules and links of a scope that is not processed. -/
theorem Redeclared.of_unsettled {B : ScopeId → Prop} {s s' : Scope} (hn : ¬ s.Settled)
    (hname : s'.name = s.name) (howner : s'.owner = s.owner) (hstate : s'.state = s.state)
    (hnames : s'.names = s.names) (hbase : s'.base = s.base) : Redeclared B s s' :=
  ⟨hname, howner, hstate, hnames, .inl hbase, fun hs => absurd hs hn⟩

instance {B : ScopeId → Prop} : IsPreorder Scope (Redeclared B) where
  refl _ := ⟨rfl, rfl, rfl, rfl, .inl rfl, fun _ => rfl⟩
  trans s s' s'' h h' :=
    { name := h'.name.trans h.name
      owner := h'.owner.trans h.owner
      state := h'.state.trans h.state
      names := h'.names.trans h.names
      base := by
        rcases h'.base with hsame | hnew
        · rw [hsame]
          exact h.base
        · exact .inr hnew
      settled := fun hs => by
        have heq := h.settled hs
        subst heq
        exact h'.settled hs }

end Scope

/-- The scope has just been made: while it was, naming went from `n` to `n'`, and handed out its
    name unless it is nested. -/
structure Scope.Made (n n' : Naming) (s : Scope) : Prop where
  unsettled : ¬ s.Settled
  names : s.names = []
  base : s.base = none
  fresh : s.owner = none → s.name ∉ n.scopeNames ∧ s.name ∈ n'.scopeNames

namespace Engine

variable {e e' : Engine} {id k j : ScopeId} {slot name : String} {start : Naming}
  {calls calls' : List Generation} {roots : List ScopeId}

/-- Scopes that are not processed have no names yet. -/
def Unnamed (e : Engine) : Prop := ∀ {k s}, e.scope? k = some s → ¬ s.Settled → s.names = []

/-- Names of a processed scope are taken over from processed scopes, also where these stay as they
    are and others do not. -/
theorem LeadsTo.of_settled (h : e.LeadsTo k j) (hs : Sound roots e) (hc : Credits start calls e)
    (hkept : ∀ {k s}, e.scope? k = some s → s.Settled → e'.scope? k = some s) (hk : e.Settles k) :
    e'.LeadsTo k j ∧ e.Settles j := by
  induction h with
  | here live =>
    obtain ⟨t, ht, hsettled⟩ := hk
    exact ⟨.here (hkept ht hsettled), t, ht, hsettled⟩
  | @link k j i s live hlink _ ih =>
    obtain ⟨t, ht, hsettled⟩ := hk
    cases live.symm.trans ht
    -- The owner of a processed scope is processed, and so is its base.
    have hj : e.Settles j := by
      rcases ho : s.owner with _ | o
      · have hbase : s.base = some j := by
          unfold Scope.source at hlink
          rwa [ho, Option.none_or] at hlink
        obtain ⟨u, hu, hu', -⟩ := hc.base_ready live hbase
        exact ⟨u, hu, hu'⟩
      · have howner : o = j := by
          unfold Scope.source at hlink
          rw [ho, Option.some_or] at hlink
          exact Option.some.inj hlink
        exact howner ▸ hs.settles_owner live hsettled ho
    obtain ⟨hlead, hi⟩ := ih hj
    exact ⟨.link (hkept live hsettled) hlink hlead, hi⟩

/-- A step that leaves processed scopes alone and processes none. Scopes that are not nested have
    known names, and a new one has a new name. -/
theorem Credits.extended (h : Credits start calls e) (hs : Sound roots e)
    (hkept : ∀ {k s}, e.scope? k = some s → s.Settled → e'.scope? k = some s)
    (hback : ∀ {k s'}, e'.scope? k = some s' → s'.Settled → e.scope? k = some s')
    (hunnamed : e'.Unnamed)
    (hbase : ∀ {k s' b}, e'.scope? k = some s' → ¬ s'.Settled → s'.base = some b → e.Ready b)
    (hsub : calls ⊆ calls') (hhistory : Naming.History start calls' e'.naming)
    (hknown : ∀ {k s'}, e'.scope? k = some s' → s'.owner = none → s'.name ∈ e'.naming.scopeNames)
    (hroot : ∀ {k s'}, e'.scope? k = some s' → s'.owner = none →
      (∃ s, e.scope? k = some s ∧ s.owner = none ∧ s.name = s'.name) ∨
        k = e.nextScope ∧ s'.name ∉ e.naming.scopeNames) : Credits start calls' e' where
  history := hhistory
  credited {k s' slot name} hs' hname := by
    -- A scope that has names is processed, so it is one from before.
    have hsettled : s'.Settled := by
      by_contra hn
      unfold Scope.nameOf? at hname
      rw [hunnamed hs' hn] at hname
      cases hname
    have hs₀ := hback hs' hsettled
    refine Credited.mono ?_ hsub
    rcases h.credited hs₀ hname with ⟨j, t, hlead, ht, hrest⟩ | ⟨j, t, hlead, ht, hrest⟩
    · obtain ⟨hlead', u, hu, hsettled'⟩ := hlead.of_settled hs h hkept ⟨s', hs₀, hsettled⟩
      cases ht.symm.trans hu
      exact .inl ⟨j, t, hlead', hkept ht hsettled', hrest⟩
    · obtain ⟨hlead', u, hu, hsettled'⟩ := hlead.of_settled hs h hkept ⟨s', hs₀, hsettled⟩
      cases ht.symm.trans hu
      exact .inr ⟨j, t, hlead', hkept ht hsettled', hrest⟩
  base_ready {k s' b} hs' hb := by
    have hready : e.Ready b := by
      by_cases hsettled : s'.Settled
      · exact h.base_ready (hback hs' hsettled) hb
      · exact hbase hs' hsettled hb
    obtain ⟨t, ht, hsettled, ho⟩ := hready
    exact ⟨t, hkept ht hsettled, hsettled, ho⟩
  root_known := hknown
  root_inj hs' ho ht' ho' heq := by
    -- At most one of them is new, and then its name was not known.
    rcases hroot hs' ho with ⟨s, hs₀, hos, hn⟩ | ⟨rfl, hfresh⟩ <;>
      rcases hroot ht' ho' with ⟨t, ht₀, hot, hn'⟩ | ⟨rfl, hfresh'⟩
    · exact h.root_inj hs₀ hos ht₀ hot (hn.trans (heq.trans hn'.symm))
    · exact absurd (hn ▸ h.root_known hs₀ hos) (heq ▸ hfresh')
    · exact absurd (hn' ▸ h.root_known ht₀ hot) (heq ▸ hfresh)
    · rfl

/-! ### Steps -/

/-- Scopes are declared, and there may be a new one; processed scopes stay as they are. -/
structure Redeclares (e e' : Engine) : Prop where
  kept {k s} : e.scope? k = some s → s.Settled → e'.scope? k = some s
  back {k s'} : e'.scope? k = some s' →
    (∃ s, e.scope? k = some s ∧ s.Redeclared e.Ready s') ∨
      k = e.nextScope ∧ s'.Made e.naming e'.naming

namespace Redeclares

/-- No scope is processed. -/
theorem settled_back (h : Redeclares e e') {s' : Scope} (hs' : e'.scope? k = some s')
    (hsettled : s'.Settled) : e.scope? k = some s' := by
  rcases h.back hs' with ⟨s, hs₀, hR⟩ | ⟨-, hnew⟩
  · rwa [hR.settled (hR.settled_iff.mp hsettled)]
  · exact absurd hsettled hnew.unsettled

/-- No scope gets a name. -/
theorem unnamed (h : Redeclares e e') (hu : e.Unnamed) : e'.Unnamed := fun hs' hn => by
  rcases h.back hs' with ⟨s, hs₀, hR⟩ | ⟨-, hnew⟩
  · rw [hR.names]
    exact hu hs₀ fun hc => hn (hR.settled_iff.mpr hc)
  · exact hnew.names

/-- What scopes extend is processed. -/
theorem base_ready (h : Redeclares e e')
    (hready : ∀ {k s b}, e.scope? k = some s → s.base = some b → e.Ready b) {s' : Scope}
    {b : ScopeId} (hs' : e'.scope? k = some s') (hb : s'.base = some b) : e.Ready b := by
  rcases h.back hs' with ⟨s, hs₀, hR⟩ | ⟨-, hnew⟩
  · rcases hR.base with hsame | ⟨b', hb', hnew⟩
    · exact hready hs₀ (hsame ▸ hb)
    · cases hb.symm.trans hb'
      exact hnew
  · rw [hnew.base] at hb
    cases hb

/-- Rules are declared, or what a scope extends or uses. -/
theorem rescoped (hr : Rescoped (fun _ => Scope.Redeclared e.Ready) e e') : Redeclares e e' := by
  refine ⟨fun hs₀ hsettled => ?_, fun hs' => .inl (hr.back hs')⟩
  obtain ⟨s', hs', hR⟩ := hr.scope hs₀
  exact hR.settled hsettled ▸ hs'

end Redeclares

/-- A step keeps what names go back to, while scopes that are not processed have no names. -/
def Tracks (start : Naming) (e e' : Engine) : Prop :=
  e.Unnamed → e'.Unnamed ∧ Advances start e e'

namespace Tracks

/-- Nothing has happened. -/
theorem refl (e : Engine) : Tracks start e e := fun hu => ⟨hu, refl_of (Advances start) e⟩

/-- One change after the other. -/
theorem trans {e'' : Engine} (h : Tracks start e e') (h' : Tracks start e' e'') :
    Tracks start e e'' := fun hu => by
  obtain ⟨hu', ha⟩ := h hu
  obtain ⟨hu'', ha'⟩ := h' hu'
  exact ⟨hu'', trans_of (Advances start) ha ha'⟩

/-- Scopes are declared, and there may be a new one. -/
theorem step (hs : Sound roots e) (hr : Redeclares e e')
    (hhistory : ∀ calls, Naming.History start calls e.naming → Naming.History start calls e'.naming)
    (hscopes : e.naming.scopeNames ⊆ e'.naming.scopeNames) : Tracks start e e' := fun hu => by
  have hu' : e'.Unnamed := hr.unnamed hu
  refine ⟨hu', fun calls h => ⟨calls, List.Subset.refl _, ?_⟩⟩
  refine h.extended hs hr.kept hr.settled_back hu' (fun hs' _ hb =>
    hr.base_ready h.base_ready hs' hb)
    (List.Subset.refl _) (hhistory calls h.history) (fun hs' ho => ?_) fun hs' ho => ?_
  · rcases hr.back hs' with ⟨s, hs₀, hR⟩ | ⟨-, hnew⟩
    · exact hscopes (hR.name ▸ h.root_known hs₀ (hR.owner ▸ ho))
    · exact (hnew.fresh ho).2
  · rcases hr.back hs' with ⟨s, hs₀, hR⟩ | ⟨hk, hnew⟩
    · exact .inl ⟨s, hs₀, hR.owner ▸ ho, hR.name.symm⟩
    · exact .inr ⟨hk, (hnew.fresh ho).1⟩

/-- Rules are declared, or what a scope extends or uses. -/
theorem redeclared (hs : Sound roots e) (hr : Rescoped (fun _ => Scope.Redeclared e.Ready) e e')
    (hnaming : e'.naming = e.naming) : Tracks start e e' :=
  step hs (.rescoped hr) (fun _ h => hnaming ▸ h) (hnaming ▸ List.Subset.refl _)

/-- A definition has declared all its rules. -/
theorem endConstruction (hs : Sound roots e) : Tracks start e e.endConstruction :=
  redeclared hs (.of_scopes_eq rfl rfl rfl) rfl

end Tracks

variable {B : ScopeId → Prop}

/-- Declaring a rule under a slot. -/
theorem addRule_redeclared (hid : e.Unsettled id) (slot : String) (rule : Rule) :
    Rescoped (fun _ => Scope.Redeclared B) e (addRule id slot rule e).2 ∧
      (addRule id slot rule e).2.naming = e.naming := by
  unfold addRule
  cases hs : e.scope? id with
  | none =>
    rw [stateful_bind_error (requireScope_none hs)]
    exact ⟨.refl e, rfl⟩
  | some s =>
    rw [stateful_bind_ok (requireScope_some hs)]
    cases s.named.get? slot with
    | some key =>
      refine ⟨(Rescoped.modifyScope fun t ht => ?_).trans (.report _),
        (Touched.modifyScope _).naming⟩
      exact .of_unsettled (hid ht) rfl rfl rfl rfl rfl
    | none =>
      refine ⟨(rescoped_newCell e).trans (.modifyScope fun t ht => ?_),
        (Touched.modifyScope (e := e.newCell.2) _).naming⟩
      exact .of_unsettled (hid ht) rfl rfl rfl rfl rfl

/-- Declaring a rule without a slot. -/
theorem addUnnamedRule_redeclared (hid : e.Unsettled id) (rule : Rule) :
    Rescoped (fun _ => Scope.Redeclared B) e (addUnnamedRule id rule e).2 ∧
      (addUnnamedRule id rule e).2.naming = e.naming := by
  unfold addUnnamedRule
  cases hs : e.scope? id with
  | none =>
    rw [stateful_bind_error (requireScope_none hs)]
    exact ⟨.refl e, rfl⟩
  | some s =>
    rw [stateful_bind_ok (requireScope_some hs)]
    refine ⟨(rescoped_newCell e).trans (.modifyScope fun t ht => ?_),
      (Touched.modifyScope (e := e.newCell.2) _).naming⟩
    exact .of_unsettled (hid ht) rfl rfl rfl rfl rfl

/-- Using a scope. -/
theorem addReference_redeclared (hid : e.Unsettled id) (used : ScopeId) :
    Rescoped (fun _ => Scope.Redeclared B) e (e.addReference id used) ∧
      (e.addReference id used).naming = e.naming := by
  refine ⟨.modifyScope fun t ht => ?_, (Touched.modifyScope _).naming⟩
  by_cases hm : used ∈ t.references
  · rw [if_pos hm]
    exact refl_of _ t
  · rw [if_neg hm]
    exact .of_unsettled (hid ht) rfl rfl rfl rfl rfl

/-- Extending a scope. -/
theorem setBase_redeclared (hid : e.Unsettled id) {base : ScopeId} (hbase : B base) :
    Rescoped (fun _ => Scope.Redeclared B) e
      (e.modifyScope id fun s => { s with base := some base }) :=
  .modifyScope fun _ ht => ⟨rfl, rfl, rfl, rfl, .inr ⟨base, rfl, hbase⟩,
    fun hsettled => absurd hsettled (hid ht)⟩

/-! ### New scopes -/

/-- Nesting a scope hands out no name. -/
theorem addNested_naming (id : ScopeId) (e : Engine) : (addNested id e).2.naming = e.naming := by
  unfold addNested
  cases hs : e.scope? id with
  | none => rw [stateful_bind_error (requireScope_none hs)]
  | some s =>
    rw [stateful_bind_ok (requireScope_some hs)]
    exact (Touched.modifyScope (e := (addScope _ e).2) _).naming

/-- **One more scope, nested in one that is declared.** -/
theorem addNested_redeclares (hs : Linked e) (hid : e.Unsettled id) :
    Redeclares e (addNested id e).2 := by
  cases hlive : e.scope? id with
  | none =>
    unfold addNested
    rw [stateful_bind_error (requireScope_none hlive)]
    exact .rescoped (.refl e)
  | some s =>
    have hlook : ∀ k, (addNested id e).2.scope? k = _ := fun k => scope?_addNested hs hlive
    refine ⟨fun {k t} ht hsettled => ?_, fun {k t'} ht' => ?_⟩
    -- Processed scopes are neither the new one nor the one that is declared.
    · have hnew : k ≠ e.nextScope := fun heq => absurd (hs.lt_nextScope ht) (heq ▸ lt_irrefl _)
      have hne : k ≠ id := fun heq => hid (heq ▸ ht) hsettled
      rw [hlook, if_neg hnew, if_neg hne, ht]
    · rw [hlook] at ht'
      split at ht'
      · cases ht'
        exact .inr ⟨‹_›, fun h => h rfl, rfl, rfl, fun ho => by cases ho⟩
      · split at ht'
        · next hk =>
          cases ht'
          exact .inl ⟨s, hk ▸ hlive, .of_unsettled (hid hlive) rfl rfl rfl rfl rfl⟩
        · exact .inl ⟨t', ht', refl_of _ t'⟩

/-- A group keeps what names go back to. -/
theorem addNested_tracks (hs : Sound roots e) (hid : e.Unsettled id) :
    Tracks start e (addNested id e).2 :=
  have hnaming := addNested_naming id e
  .step hs (addNested_redeclares hs.linked hid) (fun _ h => hnaming ▸ h)
    (hnaming ▸ List.Subset.refl _)

/-- **One more scope for a definition.** -/
theorem opened_redeclares {μ : Type} (d : Definition μ) (hs : Linked e) :
    Redeclares e (opened d e) := by
  let n := e.naming.reserve d.scopeName d.multiplex
  have hlook : ∀ k, (opened d e).scope? k = if k = e.nextScope then
      some { name := n.1, definition := d.title, multiplex := d.multiplex } else e.scope? k :=
    fun k => Dict.get?_insert _ _ _ _
  have hnaming : (opened d e).naming = n.2 := rfl
  refine ⟨fun {k t} ht hsettled => ?_, fun {k t'} ht' => ?_⟩
  · have hnew : k ≠ e.nextScope := fun heq => absurd (hs.lt_nextScope ht) (heq ▸ lt_irrefl _)
    rw [hlook, if_neg hnew, ht]
  · rw [hlook] at ht'
    split at ht'
    · cases ht'
      refine .inr ⟨‹_›, fun h => h rfl, rfl, rfl, fun _ => ⟨Naming.reserve_fresh _ _ _, ?_⟩⟩
      rw [hnaming, Naming.reserve_scopeNames]
      exact List.mem_cons_self
    · exact .inl ⟨t', ht', refl_of _ t'⟩

/-- So does opening a scope for a definition. -/
theorem opened_tracks {μ : Type} (d : Definition μ) (hs : Sound roots e) :
    Tracks start e (opened d e) := by
  have hnaming : (opened d e).naming = (e.naming.reserve d.scopeName d.multiplex).2 := rfl
  refine .step hs (opened_redeclares d hs.linked)
    (fun calls h => hnaming ▸ h.reserve d.scopeName d.multiplex) ?_
  rw [hnaming, Naming.reserve_scopeNames]
  exact List.subset_cons_self _ _

/-! ### The scope of a definition -/

/-- Scopes of a definition that declares are among those that are not processed. -/
theorem Sound.among (hs : Sound (id :: roots) e) : Among id id e := by
  obtain ⟨s, hs₀, ho⟩ := hs.root_owner List.mem_cons_self
  exact ⟨.root hs₀, ⟨s, hs₀, ho⟩, hs.linked.child_owner, hs.linked.listed⟩

/-- **The scope of a definition is processed.** -/
theorem processed_tracks (hs : Sound (id :: roots) e) (hrun : processScope id e = (.ok (), e')) :
    Tracks start e e' := fun hu => by
  have hproc := hs.pending.processScope hs
  have hsrc : Sourced start id e (processScope id e).2 :=
    processWithin_sourced start e.walkLimit hs.among
  rw [hrun] at hproc hsrc
  refine ⟨fun {k s'} hs' hn => ?_, hsrc.advances⟩
  obtain ⟨s, hs₀, hR⟩ := hsrc.rescoped.back hs'
  have hnot : ¬ e.Inside id k := fun hin => hn (hproc.settled rfl hin hs')
  rw [hR.names hnot]
  exact hu hs₀ fun hc => hn (hR.settled hc)

/-- Scopes that were processed before are not discarded. -/
theorem Abandoned.kept_settled {e₂ : Engine} {key : Nat} {r : Except Error Unit} {s : Scope}
    (ha : Abandoned id key e₂ e') (hs : Sound (id :: roots) e)
    (hproc : Processes (e.Inside id) e r e₂) (hk : e.scope? k = some s) (hsettled : s.Settled) :
    e'.scope? k = some s := by
  obtain ⟨s₂, hs₂, hp⟩ := hproc.progressed.scope hk
  rw [hp.settled hsettled] at hs₂
  refine ha.kept (fun hin => ?_) hs₂
  exact hs.unsettled List.mem_cons_self (hproc.inside_iff.mp hin) hk hsettled

/-- **The scope of a definition is discarded,** after some of it has been processed or nothing. -/
theorem abandoned_tracks {e₂ : Engine} {key : Nat} {r : Except Error Unit}
    (hs : Sound (id :: roots) e) (hproc : Processes (e.Inside id) e r e₂)
    (hsrc : Sourced start id e e₂) (ha : Abandoned id key e₂ e') (hnaming : e'.naming = e₂.naming) :
    Tracks start e e' := fun hu => by
  -- What is left was there before, with the names it had.
  have hback : ∀ {k s'}, e'.scope? k = some s' → ¬ e.Inside id k ∧ e₂.scope? k = some s' ∧
      ∃ s, e.scope? k = some s ∧ Scope.Resourced (e.Inside id k) s s' ∧
        (s'.Settled → s.Settled) ∧ (s.Settled → s' = s) := by
    intro k s' hs'
    obtain ⟨hn, hs₂⟩ := ha.back hs'
    have hnot : ¬ e.Inside id k := fun hin => hn (hproc.inside_iff.mpr hin)
    obtain ⟨s, hs₀, hR⟩ := hsrc.rescoped.back hs₂
    obtain ⟨t, ht, hp⟩ := hproc.progressed.back hs₂
    cases hs₀.symm.trans ht
    exact ⟨hnot, hs₂, s, hs₀, hR, (hp.relinked hnot).settled.mp, hp.settled⟩
  have hu' : e'.Unnamed := fun hs' hn => by
    obtain ⟨hnot, -, s, hs₀, hR, -, hsame⟩ := hback hs'
    rw [hR.names hnot]
    exact hu hs₀ fun hc => hn (hsame hc ▸ hc)
  refine ⟨hu', fun calls h => ?_⟩
  obtain ⟨calls', hsub, h'⟩ := hsrc.advances calls h
  refine ⟨calls', hsub, h.extended hs (ha.kept_settled hs hproc) (fun hs' hsettled => ?_) hu'
    (fun hs' _ hb => ?_) hsub (hnaming ▸ h'.history) (fun hs' ho => ?_) fun hs' ho => .inl ?_⟩
  · obtain ⟨-, -, s, hs₀, -, hsettled', hsame⟩ := hback hs'
    rwa [hsame (hsettled' hsettled)]
  · obtain ⟨-, -, s, hs₀, hR, -⟩ := hback hs'
    exact h.base_ready hs₀ (hR.base ▸ hb)
  · obtain ⟨-, hs₂, -⟩ := hback hs'
    exact hnaming ▸ h'.root_known hs₂ ho
  · obtain ⟨-, -, s, hs₀, hR, -⟩ := hback hs'
    exact ⟨s, hs₀, hR.owner ▸ ho, hR.name.symm⟩

/-- The scope of a definition cannot be processed. -/
theorem unprocessed_tracks {e₂ : Engine} {err : Error} (hs : Sound (id :: roots) e) (key : Nat)
    (hrun : processScope id e = (.error err, e₂)) : Tracks start e (e₂.abandon id key) := by
  have hproc := hs.pending.processScope hs
  have hsrc : Sourced start id e (processScope id e).2 :=
    processWithin_sourced start e.walkLimit hs.among
  rw [hrun] at hproc hsrc
  exact abandoned_tracks hs hproc hsrc (abandon_abandoned hproc.linked id key)
    (abandon_naming id key e₂)

/-- The scope of a definition that failed while it declared is discarded. -/
theorem failed_tracks (hs : Sound (id :: roots) e) (key : Nat) (event : Event) :
    Tracks start e ((e.abandon id key).report event) := by
  -- Nothing has been processed.
  have hproc : Processes (e.Inside id) e (.error .unknownScope) e :=
    ⟨hs.linked, .refl e, fun hok => by cases hok⟩
  refine (abandoned_tracks hs hproc (refl_of (Sourced start id) e)
    (abandon_abandoned hs.linked id key) (abandon_naming id key e)).trans fun hu =>
    ⟨hu, fun calls h => ⟨calls, List.Subset.refl _, h.spared (.report event) rfl⟩⟩

/-- **Every step of building keeps what names go back to.** -/
theorem tracks_stepwise (start : Naming) :
    Stepwise (fun _ => Tracks start) (fun _ _ => Tracks start) where
  idle := .refl _
  refl := .refl _
  trans := .trans
  report event := fun hu => ⟨hu, fun calls h =>
    -- Declaring gives no names. A definition that fails withdraws scopes, and the names that were
    -- made stay credited.
    ⟨calls, List.Subset.refl _, h.spared (.report event) rfl⟩⟩
  addRule hs hb slot rule :=
    have h := addRule_redeclared (hs.unsettled List.mem_cons_self hb) slot rule
    .redeclared hs h.1 h.2
  addUnnamedRule hs hb rule :=
    have h := addUnnamedRule_redeclared (hs.unsettled List.mem_cons_self hb) rule
    .redeclared hs h.1 h.2
  setBase hs hb _ hready :=
    .redeclared hs (setBase_redeclared (hs.unsettled List.mem_cons_self hb) hready)
      (Touched.modifyScope _).naming
  addReference hs hb _ :=
    have h := addReference_redeclared (hs.unsettled List.mem_cons_self hb) _
    .redeclared hs h.1 h.2
  process _ _ h := h
  declare h := h
  group hs hb h := (addNested_tracks hs (hs.unsettled List.mem_cons_self hb)).trans h
  processed d hs hs₁ _ h hrun :=
    ((opened_tracks d hs).trans h).trans ((Tracks.endConstruction hs₁).trans
      (processed_tracks hs₁.endConstruction hrun))
  unprocessed d hs hs₁ _ h hrun :=
    ((opened_tracks d hs).trans h).trans ((Tracks.endConstruction hs₁).trans
      (unprocessed_tracks hs₁.endConstruction d.key hrun))
  failed d event hs hs₁ _ h :=
    ((opened_tracks d hs).trans h).trans ((Tracks.endConstruction hs₁).trans
      (failed_tracks hs₁.endConstruction d.key event))

end Engine

end StyleBook
