import StyleBook.Proofs.Engine.Constructing
import StyleBook.Proofs.Rule.Inheritance

namespace StyleBook

/-!
# Parents while definitions declare

A definition declares rules whose parents are rules of the definition, in its scope or in a group of
it, or rules of scopes that are processed. What is then kept with rules is right at every moment.

* `Engine.Local` — where the parents of a rule may be;
* `Engine.Inherits` — what is kept with rules is right, nothing is kept in scopes that are not
  processed, and all parents are where they may be;
* `Engine.processWithin_fills` — processing keeps what is right with rules;
* `Engine.Builds.inherits` — so does all that happens while definitions declare.
-/

namespace Engine

variable {e e' e₀ e₁ e₂ : Engine} {id k : ScopeId} {roots : List ScopeId}

/-- The scope is there, and it is processed. -/
def Settles (e : Engine) (k : ScopeId) : Prop := ∃ s, e.scope? k = some s ∧ s.Settled

/-- **All parents are local** to the scope: each of them is in a processed scope, or in one of the
    same definition. -/
def Local (e : Engine) (k : ScopeId) (body : StyleBody) : Prop :=
  ∀ p ∈ body.parents, e.Settles p.scope ∨ ∃ root, e.Inside root k ∧ e.Inside root p.scope

/-- The rules of a scope itself may be parents in it. -/
theorem Local.of_own {body : StyleBody} (hk : ∃ s, e.scope? k = some s)
    (h : ∀ p ∈ body.parents, p.scope = k) : e.Local k body := by
  obtain ⟨s, hs⟩ := hk
  refine fun p hp => .inr ⟨k, .root hs, ?_⟩
  rw [h p hp]
  exact .root hs

/-- What rules inherit is right as far as it is kept with them. -/
structure Inherits (e : Engine) : Prop where
  truthful : e.Truthful
  /-- Nothing is kept with rules before their scope is processed. -/
  unmerged {k s rule} : e.scope? k = some s → ¬ s.Settled → rule ∈ s.rules → rule.merged = none
  /-- Parents are where they may be. -/
  parents {r body} : e.body? r = some body → e.Local r.1 body

/-! ### Processing -/

/-- The scopes in `A` are left neither by parents, nor by nesting, in either direction. -/
structure Encloses (A : ScopeId → Prop) (e : Engine) : Prop where
  parent {p r : Place} : e.Parent p r → A r.1 → A p.1
  child {k s c} : e.scope? k = some s → A k → c ∈ s.children → A c
  owner {k s o} : e.scope? k = some s → A k → s.owner = some o → A o

/-- Moreover, what is nested in what is as it was. -/
structure Fills (A : ScopeId → Prop) (e e' : Engine) : Prop extends Merges A e e' where
  nested {k s'} : e'.scope? k = some s' →
    ∃ s, e.scope? k = some s ∧ s'.children = s.children ∧ s'.owner = s.owner

/-- Rules are the same if they are in each scope. -/
theorem Rescoped.rule?_eq {R : ScopeId → Scope → Scope → Prop} (h : Rescoped R e e')
    (hR : ∀ k s s', R k s s' → s'.rules = s.rules) (id : ScopeId) (key : Nat) :
    e'.rule? id key = e.rule? id key := by
  unfold Engine.rule? Scope.rule?
  cases hs : e.scope? id with
  | some s =>
    obtain ⟨s', hs', hRs⟩ := h.scope hs
    rw [hs', Option.bind_some, Option.bind_some, hR _ _ _ hRs]
  | none =>
    have hs' : e'.scope? id = none := by
      rw [scope?_eq_none_iff] at hs ⊢
      rwa [h.keys]
    rw [hs', Option.bind_none]

namespace Fills

variable {A : ScopeId → Prop}

theorem refl (ht : e.Truthful) : Fills A e e := ⟨.refl ht, fun hs => ⟨_, hs, rfl, rfl⟩⟩

/-- A change of scopes that leaves rules and nesting alone. -/
theorem rescoped {R : ScopeId → Scope → Scope → Prop} (h : Fills A e₀ e) (hr : Rescoped R e e')
    (hR : ∀ k s s', R k s s' → s'.rules = s.rules ∧ s'.children = s.children ∧ s'.owner = s.owner)
    (hA : ∀ k s s', R k s s' → ¬ A k → s' = s) : Fills A e₀ e' := by
  have hrules := hr.rule?_eq fun k s s' hs => (hR k s s' hs).1
  refine ⟨h.toMerges.trans ⟨fun {k} hk => ?_, fun r => ?_, h.truthful.of_rules hrules⟩,
    fun hs' => ?_⟩
  · cases hs : e.scope? k with
    | some s =>
      obtain ⟨s', hs', hRs⟩ := hr.scope hs
      rw [hs', hA k s s' hRs hk]
    | none =>
      rw [scope?_eq_none_iff] at hs ⊢
      rwa [hr.keys]
  · unfold body?
    rw [hrules]
  · obtain ⟨s, hs, hRs⟩ := hr.back hs'
    obtain ⟨s₀, hs₀, hc, ho⟩ := h.nested hs
    obtain ⟨-, hc', ho'⟩ := hR _ _ _ hRs
    exact ⟨s₀, hs₀, hc'.trans hc, ho'.trans ho⟩

/-- A change of one scope in `A`, but not of its rules and its nesting. -/
theorem modifyScope (h : Fills A e₀ e) (hA : A id) {f : Scope → Scope}
    (hf : ∀ s, (f s).rules = s.rules ∧ (f s).children = s.children ∧ (f s).owner = s.owner) :
    Fills A e₀ (e.modifyScope id f) := by
  have hr : Rescoped (fun k s s' => s' = s ∨ k = id ∧ s' = f s) e (e.modifyScope id f) := by
    refine ⟨keys_modifyScope f, fun {k s} hs => ?_, singletons_modifyScope f,
      nextScope_modifyScope f⟩
    by_cases hk : k = id
    · subst hk
      exact ⟨_, scope?_modifyScope_self f hs, .inr ⟨rfl, rfl⟩⟩
    · exact ⟨s, (scope?_modifyScope_of_ne f hk).trans hs, .inl rfl⟩
  refine h.rescoped hr (fun k s s' hR => ?_) fun k s s' hR hk => ?_
  · rcases hR with rfl | ⟨-, rfl⟩
    · exact ⟨rfl, rfl, rfl⟩
    · exact hf s
  · exact hR.resolve_right fun ⟨heq, _⟩ => hk (heq ▸ hA)

/-- What a scope in `A` is inside of is in `A`. -/
theorem of_inside (h : Fills A e₀ e) (hE : Encloses A e₀) (hin : e.Inside k id) (hA : A id) :
    A k := by
  induction hin with
  | root _ => exact hA
  | nested hs ho _ ih =>
    obtain ⟨s₀, hs₀, -, ho₀⟩ := h.nested hs
    exact ih (hE.owner hs₀ hA (ho₀.symm.trans ho))

/-- Naming a rule. -/
theorem assignName (h : Fills A e₀ e) (hE : Encloses A e₀) (hA : A id) (key : Nat) :
    Fills A e₀ (Engine.assignName id key e).2 := by
  refine h.rescoped (assignName_renamed id key e) (fun k s s' hR => ?_) fun k s s' hR hk => ?_
  · have heq := hR.eq_names
    exact ⟨by rw [heq], by rw [heq], by rw [heq]⟩
  · exact hR.eq_of_not fun hin => hk (h.of_inside hE hin hA)

/-- Merging a rule. -/
theorem mergeAt (h : Fills A e₀ e) (hE : Encloses A e₀) (hA : A id) (key : Nat) :
    Fills A e₀ (Engine.mergeAt id key e).2 := by
  refine ⟨h.toMerges.trans (mergeAt_merges h.truthful hA ?_ key), fun hs' => ?_⟩
  · rw [parent_congr h.body?]
    exact hE.parent
  · obtain ⟨s, hs, hR⟩ := (mergeAt_remerged id key e).back hs'
    obtain ⟨s₀, hs₀, hc, ho⟩ := h.nested hs
    have heq := hR.eq_rules
    exact ⟨s₀, hs₀, (by rw [heq]; exact hc), (by rw [heq]; exact ho)⟩

/-- One step after the other. -/
theorem forEach {α : Type} {step : α → EngineM Unit} (list : List α)
    (hstep : ∀ a ∈ list, ∀ e, Fills A e₀ e → Fills A e₀ (step a e).2) (h : Fills A e₀ e) :
    Fills A e₀ (Engine.forEach step list e).2 := by
  induction list generalizing e with
  | nil => exact h
  | cons a rest ih =>
    rw [forEach_cons]
    have ha := hstep a (by simp) e h
    rcases hrun : step a e with ⟨err | ⟨⟩, e₁⟩ <;> rw [hrun] at ha
    · rw [stateful_bind_error hrun]
      exact ha
    · rw [stateful_bind_ok hrun]
      exact ih (fun b hb => hstep b (List.mem_cons_of_mem a hb)) ha

/-- The steps for the rules of a scope. -/
theorem processRules (h : Fills A e₀ e) (hE : Encloses A e₀) (hA : A id) (keys : List Nat) :
    Fills A e₀ (Engine.processRules id keys e).2 := by
  unfold Engine.processRules
  have hnames := h.forEach keys fun key _ _ h => h.assignName hE hA key
  rcases h₁ : Engine.forEach (Engine.assignName id) keys e with ⟨err | ⟨⟩, e₁⟩ <;>
    rw [h₁] at hnames
  · rw [stateful_bind_error h₁]
    exact hnames
  rw [stateful_bind_ok h₁]
  have hmerged := hnames.forEach keys fun key _ _ h => h.mergeAt hE hA key
  rcases h₂ : Engine.forEach (Engine.mergeAt id) keys e₁ with ⟨err | ⟨⟩, e₂⟩ <;>
    rw [h₂] at hmerged
  · rw [stateful_bind_error h₂]
    exact hmerged
  rw [stateful_bind_ok h₂]
  exact hmerged.modifyScope hA fun _ => ⟨rfl, rfl, rfl⟩

/-- **Processing a scope keeps what is right with rules,** and leaves alone all scopes but those
    that parents and nesting lead to. -/
theorem processWithin (limit : Nat) (h : Fills A e₀ e) (hE : Encloses A e₀) (hA : A id) :
    Fills A e₀ (Engine.processWithin limit id e).2 := by
  -- On the limit: the rules of the scope first, then the scopes that are nested in it.
  induction limit generalizing id e with
  | zero => exact h
  | succ limit ih =>
    rw [processWithin_succ]
    cases hs : e.scope? id with
    | none =>
      rw [stateful_bind_error (requireScope_none hs)]
      exact h
    | some s =>
      rw [stateful_bind_ok (requireScope_some hs)]
      have hrules := h.processRules hE hA s.order
      rcases h₁ : Engine.processRules id s.order e with ⟨err | ⟨⟩, e₁⟩ <;> rw [h₁] at hrules
      · rw [stateful_bind_error h₁]
        exact hrules
      rw [stateful_bind_ok h₁]
      have hchildren := hrules.forEach s.children fun c hc e' h' => by
        obtain ⟨s₀, hs₀, heq, -⟩ := h.nested hs
        exact ih h' (hE.child hs₀ hA (heq ▸ hc))
      rcases h₂ : Engine.forEach (Engine.processWithin limit) s.children e₁ with ⟨err | ⟨⟩, e₂⟩ <;>
        rw [h₂] at hchildren
      · rw [stateful_bind_error h₂]
        exact hchildren
      rw [stateful_bind_ok h₂]
      have hstate := hchildren.modifyScope (f := fun s => { s with state := .processed }) hA
        fun _ => ⟨rfl, rfl, rfl⟩
      exact ⟨hstate.toMerges.trans (.report hstate.truthful _), hstate.nested⟩

end Fills

/-! ### Between the steps of definitions -/

/-- A rule is one of the rules of its scope. -/
theorem body?_eq_some {r : Place} {body : StyleBody} (h : e.body? r = some body) :
    ∃ s rule, e.scope? r.1 = some s ∧ rule ∈ s.rules ∧ rule.content.body? = some body := by
  obtain ⟨rule, hrule, hbody⟩ := body?_eq_some_iff.mp h
  obtain ⟨s, hs, hkey⟩ := rule?_eq_some_iff.mp hrule
  exact ⟨s, rule, hs, List.mem_of_getElem? hkey, hbody⟩

/-- What is local stays local while scopes stay where they are. -/
theorem Local.mono {body : StyleBody} (h : e.Local k body)
    (hsettled : ∀ j, e.Settles j → e'.Settles j)
    (hinside : ∀ root j, e.Inside root k → e.Inside root j → e'.Inside root k ∧ e'.Inside root j) :
    e'.Local k body := by
  intro p hp
  rcases h p hp with hs | ⟨root, hk, hin⟩
  · exact .inl (hsettled _ hs)
  · exact .inr ⟨root, hinside root p.scope hk hin⟩

theorem Local.extends {body : StyleBody} (h : e.Local k body) (hx : Extends e e') :
    e'.Local k body :=
  h.mono (fun _ ⟨s, hs, hsettled⟩ => ⟨s, hx.settled hs hsettled, hsettled⟩)
    fun _ _ hk hj => ⟨hx.inside hk, hx.inside hj⟩

/-- A scope that is not nested is inside of no other one. -/
theorem Inside.eq_of_owner {root : ScopeId} (h : e.Inside root id)
    (hid : ∃ s, e.scope? id = some s ∧ s.owner = none) : root = id := by
  obtain ⟨s, hs, ho⟩ := hid
  by_contra hne
  obtain ⟨o, howner, -⟩ := h.owner_inside hs (Ne.symm hne)
  rw [ho] at howner
  cases howner

/-- Two scopes in one that are inside of something that is not nested are inside of it together. -/
theorem Inside.of_common {root j : ScopeId} (hk : e.Inside root k) (hj : e.Inside root j)
    (hid : ∃ s, e.scope? id = some s ∧ s.owner = none) (hin : e.Inside id k) : e.Inside id j := by
  rcases hk.linear hin with h | h
  · exact h.eq_of_owner hid ▸ hj
  · exact h.trans hj

namespace Sound

/-- The owner of a processed scope is processed. -/
theorem settles_owner (h : Sound roots e) {s : Scope} {o : ScopeId} (hs : e.scope? k = some s)
    (hsettled : s.Settled) (ho : s.owner = some o) : e.Settles o := by
  obtain ⟨-, t, ht, -, -⟩ := h.linked.owner_child hs ho
  refine ⟨t, ht, ?_⟩
  by_contra hn
  obtain ⟨root, hroot, hin⟩ := (h.unsettled_iff ht).mp hn
  exact (h.unsettled_iff hs).mpr ⟨root, hroot, .nested hs ho hin⟩ hsettled

/-- **The parents of rules of processed scopes are in processed scopes.** -/
theorem settles_parent (h : Sound roots e) (hi : Inherits e) {p r : Place} (hp : e.Parent p r)
    (hr : e.Settles r.1) : e.Settles p.1 := by
  obtain ⟨body, hbody, hmem⟩ := hp
  obtain ⟨ref, href, rfl⟩ := List.mem_map.mp hmem
  rcases hi.parents hbody ref href with hs | ⟨root, hin, hin'⟩
  · exact hs
  obtain ⟨t, ht⟩ := hin'.live
  refine ⟨t, ht, ?_⟩
  by_contra hn
  -- Otherwise the parent is in a definition that declares, and so is the rule.
  obtain ⟨root', hroot', hin''⟩ := (h.unsettled_iff ht).mp hn
  obtain ⟨s, hs, hsettled⟩ := hr
  have hr' := hin'.of_common hin (h.root_owner hroot') hin''
  exact (h.unsettled_iff hs).mpr ⟨root', hroot', hr'⟩ hsettled

/-- The scopes inside of one that declares and the processed scopes enclose their parents. -/
theorem encloses (h : Sound roots e) (hi : Inherits e) (hid : id ∈ roots) :
    Encloses (fun k => e.Inside id k ∨ e.Settles k) e where
  -- A parent is in a settled scope, or inside of the same root as the rule.
  parent {p r} hp hr := by
    rcases hr with hin | hs
    · obtain ⟨body, hbody, hmem⟩ := hp
      obtain ⟨ref, href, rfl⟩ := List.mem_map.mp hmem
      rcases hi.parents hbody ref href with hs | ⟨root, hin', hin''⟩
      · exact .inr hs
      · exact .inl (hin'.of_common hin'' (h.root_owner hid) hin)
    · exact .inr (h.settles_parent hi hp hs)
  child {k s c} hs hk hc := by
    obtain ⟨t, ht, ho⟩ := h.linked.child_owner hs hc
    rcases hk with hin | ⟨s', hs', hsettled⟩
    · exact .inl (.nested ht ho hin)
    · obtain ⟨-, u, hu, -, himp⟩ := h.linked.owner_child ht ho
      cases hs'.symm.trans hu
      exact .inr ⟨t, ht, himp hsettled⟩
  -- An owner is inside of the root, unless the scope is the root itself, which has none.
  owner {k s o} hs hk ho := by
    rcases hk with hin | ⟨s', hs', hsettled⟩
    · by_cases hne : k = id
      · obtain ⟨t, ht, hnone⟩ := h.root_owner hid
        subst hne
        cases hs.symm.trans ht
        cases hnone.symm.trans ho
      · obtain ⟨o', ho', hin'⟩ := hin.owner_inside hs hne
        cases ho.symm.trans ho'
        exact .inl hin'
    · cases hs.symm.trans hs'
      exact .inr (h.settles_owner hs hsettled ho)

end Sound

/-- **Effective stylesets of processed scopes stay as they are** while these scopes do. -/
theorem Effective.of_settled (hs : Sound roots e) (hi : Inherits e)
    (hkept : ∀ {k s}, e.scope? k = some s → s.Settled → e'.scope? k = some s) {r : Place}
    {v : Styleset} (hv : e'.Effective r v) (hr : e.Settles r.1) : e.Effective r v := by
  have hsame : ∀ {r : Place}, e.Settles r.1 → e'.body? r = e.body? r := by
    rintro r ⟨s, hs, hsettled⟩
    unfold body? Engine.rule?
    rw [hs, hkept hs hsettled]
  induction hv with
  | nothing hnone => exact .nothing ((hsame hr).symm.trans hnone)
  | inherited hsome _ ih =>
    have hsome' := (hsame hr).symm.trans hsome
    exact .inherited hsome' fun p hp => ih p hp
      (hs.settles_parent hi (parent_of_mem hsome' hp) hr)

namespace Inherits

/-- A step that leaves processed scopes alone and processes none. -/
theorem step (hi : Inherits e) (hs : Sound roots e)
    (hkept : ∀ {k s}, e.scope? k = some s → s.Settled → e'.scope? k = some s)
    (hback : ∀ {k s}, e'.scope? k = some s → s.Settled → e.scope? k = some s)
    (hunmerged : ∀ {k s rule}, e'.scope? k = some s → ¬ s.Settled → rule ∈ s.rules →
      rule.merged = none)
    (hparents : ∀ {r body}, e'.body? r = some body → e'.Local r.1 body) : Inherits e' where
  truthful := by
    refine ⟨fun {id key rule m} hr hm => ?_⟩
    obtain ⟨s, hs', hkey⟩ := rule?_eq_some_iff.mp hr
    have hsettled : s.Settled := by
      by_contra hn
      cases hm.symm.trans (hunmerged hs' hn (List.mem_of_getElem? hkey))
    have hold := hback hs' hsettled
    obtain ⟨hbody, heff⟩ := hi.truthful.kept (rule?_eq_some_iff.mpr ⟨s, hold, hkey⟩) hm
    exact ⟨hbody, fun v hv => heff v (hv.of_settled hs hi hkept ⟨s, hold, hsettled⟩)⟩
  unmerged := hunmerged
  parents := hparents

/-- A change that leaves rules, nesting and states alone. -/
theorem rescoped {R : ScopeId → Scope → Scope → Prop} (hi : Inherits e) (hr : Rescoped R e e')
    (hR : ∀ k s s', e.scope? k = some s → R k s s' →
      s'.rules = s.rules ∧ s'.owner = s.owner ∧ (s'.Settled ↔ s.Settled)) : Inherits e' := by
  have hsame := hr.mono hR
  have hrules := hsame.rule?_eq fun _ _ _ h => h.1
  refine ⟨hi.truthful.of_rules hrules, fun hs' hn hmem => ?_, fun {r body} hbody => ?_⟩
  · obtain ⟨s, hs, h, -, hiff⟩ := hsame.back hs'
    exact hi.unmerged hs (fun hc => hn (hiff.mpr hc)) (h ▸ hmem)
  · have hbody' : e.body? r = some body := by
      rw [← hbody]
      unfold body?
      rw [hrules]
    refine (hi.parents hbody').mono (fun j ⟨s, hs, hsettled⟩ => ?_) fun root j hk hj => ?_
    · obtain ⟨s', hs', -, -, hiff⟩ := hsame.scope hs
      exact ⟨s', hs', hiff.mpr hsettled⟩
    · exact ⟨(hsame.inside_iff fun _ _ _ h => h.2.1).mpr hk,
        (hsame.inside_iff fun _ _ _ h => h.2.1).mpr hj⟩

/-- A change of what is no scope. -/
theorem aside (hi : Inherits e) (hscopes : e'.scopes = e.scopes)
    (hsingletons : e'.singletons = e.singletons) (hnext : e'.nextScope = e.nextScope) :
    Inherits e' := by
  refine hi.rescoped (R := fun _ s s' => s' = s) ⟨by rw [hscopes], fun h => ⟨_, ?_, rfl⟩,
    hsingletons, hnext⟩ fun _ _ _ _ h => ?_
  · unfold scope? at h ⊢
    rwa [hscopes]
  · rw [h]
    exact ⟨rfl, rfl, .rfl⟩

/-- A step that leaves alone what definitions have to leave alone. Its new rules are not merged, and
    their parents are where they may be. -/
theorem extended (hi : Inherits e) (hs : Sound roots e) (hx : Extends e e')
    (hback : ∀ {k s'}, e'.scope? k = some s' → s'.Settled → e.scope? k = some s')
    (hrules : ∀ {k s' rule}, e'.scope? k = some s' → ¬ s'.Settled → rule ∈ s'.rules →
      (∃ s, e.scope? k = some s ∧ ¬ s.Settled ∧ rule ∈ s.rules) ∨
        rule.merged = none ∧ ∀ body, rule.content.body? = some body → e'.Local k body) :
    Inherits e' := by
  refine hi.step hs (fun hs => hx.settled hs) hback (fun hs' hn hmem => ?_) fun {r body} hbody => ?_
  · rcases hrules hs' hn hmem with ⟨s, hs, hn, hold⟩ | ⟨hnone, -⟩
    · exact hi.unmerged hs hn hold
    · exact hnone
  -- A rule of the new state is an old one of the same scope, or one whose parents are where they
  -- may be.
  · obtain ⟨s', rule, hs', hmem, hb⟩ := body?_eq_some hbody
    have hlocal : ∀ {s}, e.scope? r.1 = some s → rule ∈ s.rules → e'.Local r.1 body := by
      intro s hs hmem
      obtain ⟨key, hkey⟩ := List.mem_iff_getElem?.mp hmem
      have hrule : e.body? (r.1, key) = some body :=
        body?_eq_some_iff.mpr ⟨rule, rule?_eq_some_iff.mpr ⟨s, hs, hkey⟩, hb⟩
      exact (hi.parents hrule).extends hx
    by_cases hsettled : s'.Settled
    · exact hlocal (hback hs' hsettled) hmem
    · rcases hrules hs' hsettled hmem with ⟨s, hs, -, hold⟩ | ⟨-, hnew⟩
      · exact hlocal hs hold
      · exact hnew body hb

/-- Declaring rules. -/
theorem declared {C : RuleContent → Prop} (hi : Inherits e) (hs : Sound roots e)
    (hid : e.Unsettled id)
    (hallowed : ∀ content body, C content → content.body? = some body → e.Local id body)
    (hr : Rescoped (fun k => Scope.Declared (k = id) C) e e') : Inherits e' := by
  have hx : Extends e e' := (hr.retouched hid).extends
  refine hi.extended hs hx (fun {k s'} hs' hsettled => ?_) fun hs' hn hmem => ?_
  · obtain ⟨s, hs, hR⟩ := hr.back hs'
    -- A settled scope is not the one that is declared in.
    have hk : k ≠ id := by
      rintro rfl
      refine hid hs ?_
      unfold Scope.Settled at hsettled ⊢
      rwa [← hR.state]
    rwa [hR.eq_of_not hk]
  · obtain ⟨s, hs, hR⟩ := hr.back hs'
    obtain ⟨key, hkey⟩ := List.mem_iff_getElem?.mp hmem
    rcases hR.rule hkey with hold | ⟨rfl, hC, hnone⟩
    · refine .inl ⟨s, hs, ?_, List.mem_of_getElem? hold⟩
      unfold Scope.Settled at hn ⊢
      rwa [← hR.state]
    · exact .inr ⟨hnone, fun body hb => (hallowed _ body hC hb).extends hx⟩

/-- Nesting a scope. -/
theorem nested (hi : Inherits e) (hs : Sound roots e) (hid : e.Unsettled id)
    (g : Grown (some id) e e') : Inherits e' := by
  refine hi.extended hs (g.extends fun o ho => ?_) (fun hs' hsettled => ?_) fun hs' hn hmem => ?_
  · cases ho
    exact hid
  · rcases g.back hs' with ⟨-, hfresh⟩ | ⟨s, hs, ⟨rfl, -⟩ | ⟨rfl, ho⟩⟩
    · exact absurd hsettled hfresh.not_settled
    · exact hs
    · cases ho
      exact absurd hsettled (hid (s := s) hs)
  · rcases g.back hs' with ⟨-, hfresh⟩ | ⟨s, hs, ⟨rfl, -⟩ | ⟨rfl, -⟩⟩
    · rw [hfresh.rules] at hmem
      cases hmem
    · exact .inl ⟨_, hs, hn, hmem⟩
    · exact .inl ⟨s, hs, hn, hmem⟩

/-- Opening a scope. -/
theorem opened {key : Nat} (hi : Inherits e) (hs : Sound roots e) (ho : Opened roots key e e') :
    Inherits e' := by
  refine hi.extended hs ho.leaves (fun hs' hsettled => ?_) fun hs' hn hmem => ?_
  · rcases ho.back hs' with ⟨-, hfresh⟩ | hs
    · exact absurd hsettled hfresh.not_settled
    · exact hs
  · rcases ho.back hs' with ⟨-, hfresh⟩ | hs
    · rw [hfresh.rules] at hmem
      cases hmem
    · exact .inl ⟨_, hs, hn, hmem⟩

/-- **Processing the scope of a definition.** -/
theorem processed (hi : Inherits e) (hs : Sound (id :: roots) e) {e' : Engine}
    (hrun : processScope id e = (.ok (), e')) : Inherits e' := by
  obtain ⟨s₀, hs₀, ho₀⟩ := hs.root_owner List.mem_cons_self
  have hproc := hs.pending.processScope hs
  have hfills : Fills (fun k => e.Inside id k ∨ e.Settles k) e (processScope id e).2 :=
    (Fills.refl hi.truthful).processWithin e.walkLimit (hs.encloses hi List.mem_cons_self)
      (.inl (.root hs₀))
  rw [hrun] at hproc hfills
  refine ⟨hfills.truthful, fun {k s' rule} hs' hn hmem => ?_, fun {r body} hbody => ?_⟩
  · -- What is not processed afterwards is none of the scopes in which rules are merged.
    have hnot : ¬ (e.Inside id k ∨ e.Settles k) := by
      rintro (hin | ⟨s, hs, hsettled⟩)
      · exact hn (hproc.settled rfl hin hs')
      · obtain ⟨t, ht, hp⟩ := hproc.progressed.scope hs
        cases hs'.symm.trans ht
        exact hn (hp.settled hsettled ▸ hsettled)
    exact hi.unmerged ((hfills.scope? hnot).symm.trans hs') hn hmem
  · refine (hi.parents ((hfills.body? r).symm.trans hbody)).mono (fun j ⟨s, hs, hsettled⟩ => ?_)
      fun root j hk hj => ⟨hproc.inside_iff.mpr hk, hproc.inside_iff.mpr hj⟩
    obtain ⟨s', hs', hp⟩ := hproc.progressed.scope hs
    exact ⟨s', hs', hp.settled hsettled ▸ hsettled⟩

/-- **Discarding the scope of a definition,** after some of it has been processed or nothing. -/
theorem abandoned {key : Nat} {r : Except Error Unit} (hi : Inherits e)
    (hs : Sound (id :: roots) e) (hproc : Processes (e.Inside id) e r e₂)
    (hfills : Fills (fun k => e.Inside id k ∨ e.Settles k) e e₂)
    (ha : Abandoned id key e₂ e') : Inherits e' := by
  -- Settled scopes are not inside of the root, which is still to be processed, so they stay.
  have hsettled_out : ∀ {k s}, e.scope? k = some s → s.Settled → ¬ e.Inside id k :=
    fun hs' hsettled hin => hs.unsettled List.mem_cons_self hin hs' hsettled
  have hkept : ∀ {k s}, e.scope? k = some s → s.Settled → e'.scope? k = some s := by
    intro k s hs' hsettled
    obtain ⟨s₂, hs₂, hp⟩ := hproc.progressed.scope hs'
    rw [hp.settled hsettled] at hs₂
    exact ha.kept (fun hin => hsettled_out hs' hsettled (hproc.inside_iff.mp hin)) hs₂
  have hback : ∀ {k s'}, e'.scope? k = some s' → ¬ e.Inside id k ∧ e.scope? k = some s' := by
    intro k s' hs'
    obtain ⟨hn, hs₂⟩ := ha.back hs'
    have hnot : ¬ e.Inside id k := fun hin => hn (hproc.inside_iff.mpr hin)
    refine ⟨hnot, ?_⟩
    obtain ⟨s, hs, hp⟩ := hproc.progressed.back hs₂
    by_cases hsettled : s.Settled
    · rwa [hp.settled hsettled]
    · refine (hfills.scope? ?_).symm.trans hs₂
      rintro (hin | ⟨t, ht, ht'⟩)
      · exact hnot hin
      · cases hs.symm.trans ht
        exact hsettled ht'
  refine hi.step hs hkept (fun hs' _ => (hback hs').2)
    (fun hs' hn hmem => hi.unmerged (hback hs').2 hn hmem) fun {r body} hbody => ?_
  -- What is left mentions neither the root nor anything inside of it.
  obtain ⟨s', rule, hs', hmem, hb⟩ := body?_eq_some hbody
  obtain ⟨hnot, hs₁⟩ := hback hs'
  obtain ⟨i, hkey⟩ := List.mem_iff_getElem?.mp hmem
  have hrule : e.body? (r.1, i) = some body :=
    body?_eq_some_iff.mpr ⟨rule, rule?_eq_some_iff.mpr ⟨s', hs₁, hkey⟩, hb⟩
  refine (hi.parents hrule).mono (fun j ⟨s, hs, hsettled⟩ => ⟨s, hkept hs hsettled, hsettled⟩)
    fun root j hk hj => ?_
  have hinside : ∀ {j}, ¬ e.Inside id j → e.Inside root j → e'.Inside root j := fun hj hin =>
    (ha.inside_iff fun hin' => hj (hproc.inside_iff.mp hin')).mpr (hproc.inside_iff.mpr hin)
  refine ⟨hinside hnot hk, hinside (fun hin => hnot ?_) hj⟩
  exact hj.of_common hk (hs.root_owner List.mem_cons_self) hin

end Inherits

/-- **What is kept with rules stays right while definitions declare,** if the parents of the rules
    they declare are where they may be. -/
theorem Builds.inherits (h : Builds Local roots e e') (hs : Sound roots e) (hi : Inherits e) :
    Inherits e' := by
  induction h with
  | refl => exact hi
  | trans first _ ih ih' => exact ih' (first.sound hs).1 (ih hs hi)
  | aside scopes singletons nextScope => exact hi.aside scopes singletons nextScope
  | declare inside allowed change =>
    exact hi.declared hs (hs.unsettled List.mem_cons_self inside) allowed change
  | nest inside change => exact hi.nested hs (hs.unsettled List.mem_cons_self inside) change
  | refer inside ready change =>
    exact hi.rescoped change fun _ _ _ _ h => ⟨h.rules, h.owner, h.settled_iff⟩
  | processed d inner run ih =>
    have ho := opened_spec d hs
    exact (ih ho.sound (hi.opened hs ho)).processed (inner.sound ho.sound).1 run
  | @unprocessed roots μ e e₁ e₂ err d inner run ih =>
    have ho := opened_spec d hs
    have hi₁ := ih ho.sound (hi.opened hs ho)
    obtain ⟨hs₁, hx₁⟩ := inner.sound ho.sound
    obtain ⟨s, hs', -⟩ := hs₁.root_owner List.mem_cons_self
    have hproc := (ho.pending hs₁ hx₁).1.processScope hs₁
    have hfills := (Fills.refl hi₁.truthful).processWithin e₁.walkLimit
      (hs₁.encloses hi₁ List.mem_cons_self) (.inl (.root hs'))
    change Fills _ e₁ (processScope e.nextScope e₁).2 at hfills
    rw [run] at hproc hfills
    exact hi₁.abandoned hs₁ hproc hfills (abandon_abandoned hproc.linked _ _)
  | @failed roots μ e e₁ d inner ih =>
    have ho := opened_spec d hs
    have hi₁ := ih ho.sound (hi.opened hs ho)
    have hs₁ := (inner.sound ho.sound).1
    -- Nothing has been processed.
    have hproc : Processes (e₁.Inside e.nextScope) e₁ (.error .unknownScope) e₁ :=
      ⟨hs₁.linked, .refl e₁, fun hok => by cases hok⟩
    exact hi₁.abandoned hs₁ hproc (.refl hi₁.truthful) (abandon_abandoned hs₁.linked _ _)

end Engine

end StyleBook
