import StyleBook.Proofs.Engine.Naming

namespace StyleBook

/-!
# What declaring changes

What the steps of a script do to the scopes of an engine, and that they keep the links sound.

* `Scope.Declared P C` — a scope in which rules were declared, with contents in `C`;
* `Engine.addRule_declared`, `Engine.addUnnamedRule_declared` — declaring a rule;
* `Engine.Grown owner` — an engine with one more scope; `Engine.Sound.grown_nested` and
  `Engine.Sound.grown_root` say that it is sound, when the scope is nested and when it is not;
* `Engine.Sound.referenced` — a scope that uses another one is sound.
-/

/-- Nothing of the scope is changed but its rules, its names and what it extends, and these only
    under `P`. A new rule has a content in `C` and is not merged. -/
structure Scope.Declared (P : Prop) (C : RuleContent → Prop) (s s' : Scope) : Prop where
  owner : s'.owner = s.owner
  children : s'.children = s.children
  references : s'.references = s.references
  state : s'.state = s.state
  users : s'.users = s.users
  listed : s.Listed → s'.Listed
  rule {key : Nat} {r : Rule} : s'.rules[key]? = some r →
    s.rules[key]? = some r ∨ P ∧ C r.content ∧ r.merged = none
  eq_of_not : ¬ P → s' = s

namespace Scope.Declared

variable {P : Prop} {C : RuleContent → Prop} {s s' : Scope}

instance : IsPreorder Scope (Declared P C) where
  refl _ := ⟨rfl, rfl, rfl, rfl, rfl, id, .inl, fun _ => rfl⟩
  trans s s' s'' h h' :=
    { owner := h'.owner.trans h.owner
      children := h'.children.trans h.children
      references := h'.references.trans h.references
      state := h'.state.trans h.state
      users := h'.users.trans h.users
      listed := h'.listed ∘ h.listed
      rule := fun hr => by
        rcases h'.rule hr with hr' | hnew
        · exact h.rule hr'
        · exact .inr hnew
      eq_of_not := fun hP => (h'.eq_of_not hP).trans (h.eq_of_not hP) }

/-- Declaring retouches a scope if it is not processed. -/
theorem retouched (h : Declared P C s s') (hP : P → ¬ s.Settled) : Retouched s s' :=
  ⟨h.owner, h.children, h.references, h.state, h.users, h.listed,
    fun hs => h.eq_of_not fun hp => hP hp hs⟩

end Scope.Declared

/-- Nothing of the scope is changed but its references, and these only under `P`. A new reference
    is `used`. -/
structure Scope.Referenced (P : Prop) (used : ScopeId) (s s' : Scope) : Prop where
  eq_references : s' = { s with references := s'.references }
  mem {r : ScopeId} : r ∈ s'.references → r ∈ s.references ∨ P ∧ r = used
  nodup : s.references.Nodup → s'.references.Nodup
  eq_of_not : ¬ P → s' = s

namespace Scope.Referenced

variable {P : Prop} {used : ScopeId} {s s' : Scope}

instance : IsPreorder Scope (Referenced P used) where
  refl _ := ⟨rfl, .inl, id, fun _ => rfl⟩
  trans s s' s'' h h' :=
    { eq_references := by rw [h'.eq_references, h.eq_references]
      mem := fun hr => by
        rcases h'.mem hr with hr' | hnew
        · exact h.mem hr'
        · exact .inr hnew
      nodup := h'.nodup ∘ h.nodup
      eq_of_not := fun hP => (h'.eq_of_not hP).trans (h.eq_of_not hP) }

theorem owner (h : Referenced P used s s') : s'.owner = s.owner := by rw [h.eq_references]

theorem children (h : Referenced P used s s') : s'.children = s.children := by
  rw [h.eq_references]

theorem rules (h : Referenced P used s s') : s'.rules = s.rules := by rw [h.eq_references]

theorem order (h : Referenced P used s s') : s'.order = s.order := by rw [h.eq_references]

theorem state (h : Referenced P used s s') : s'.state = s.state := by rw [h.eq_references]

theorem users (h : Referenced P used s s') : s'.users = s.users := by rw [h.eq_references]

/-- References do not decide whether a scope is processed. -/
theorem settled_iff (h : Referenced P used s s') : s'.Settled ↔ s.Settled := by
  unfold Settled
  rw [h.state]

end Scope.Referenced

namespace Engine

variable {e e' : Engine} {id k : ScopeId} {roots : List ScopeId} {C : RuleContent → Prop}

/-! ### Declaring rules -/

/-- Declaring in a scope that is not processed retouches it. -/
theorem Rescoped.retouched (h : Rescoped (fun k => Scope.Declared (k = id) C) e e')
    (hid : e.Unsettled id) : Rescoped (fun _ => Scope.Retouched) e e' :=
  h.mono fun k s _ hs hR => hR.retouched fun hk => by
    subst hk
    exact hid hs

/-- A new name's place changes no scope. -/
theorem rescoped_newCell {R : ScopeId → Scope → Scope → Prop} [∀ k, IsPreorder Scope (R k)]
    (e : Engine) : Rescoped R e e.newCell.2 := .of_scopes_eq rfl rfl rfl

/-- **Declaring a rule under a slot.** -/
theorem addRule_declared (id : ScopeId) (slot : String) (rule : Rule) (e : Engine) :
    Rescoped (fun k => Scope.Declared (k = id) (· = rule.content)) e
      (addRule id slot rule e).2 := by
  unfold addRule
  cases hs : e.scope? id with
  | none =>
    rw [stateful_bind_error (requireScope_none hs)]
    exact .refl e
  | some s =>
    rw [stateful_bind_ok (requireScope_some hs)]
    cases hslot : s.named.get? slot with
    | some key =>
      -- The rule takes the place of the one that was declared before.
      refine (Rescoped.modifyScope fun t ht => ?_).trans (.report _)
      refine ⟨rfl, rfl, rfl, rfl, rfl, fun hl => hl.congr rfl List.length_set,
        fun {key' r} hr => ?_, fun h => absurd rfl h⟩
      change (t.rules.set key _)[key']? = some r at hr
      rw [List.getElem?_set] at hr
      split at hr
      · split at hr
        · cases hr
          exact .inr ⟨rfl, rfl, rfl⟩
        · cases hr
      · exact .inl hr
    | none =>
      refine (rescoped_newCell e).trans (.modifyScope fun t ht => ?_)
      obtain rfl : s = t := Option.some.inj (hs.symm.trans ht)
      refine ⟨rfl, rfl, rfl, rfl, rfl, fun hl => hl.append rfl rfl, fun {key' r} hr => ?_,
        fun h => absurd rfl h⟩
      change (s.rules ++ [_])[key']? = some r at hr
      rw [List.getElem?_append] at hr
      split at hr
      · exact .inl hr
      · have hmem := List.mem_of_getElem? hr
        rw [List.mem_singleton] at hmem
        subst hmem
        exact .inr ⟨rfl, rfl, rfl⟩

/-- The handle of a rule that was declared. -/
theorem addRule_ok {slot : String} {rule : Rule} {r : RuleRef}
    (h : addRule id slot rule e = (.ok r, e')) : r.scope = id ∧ ∃ s, e'.scope? id = some s := by
  have hdeclared := addRule_declared id slot rule e
  rw [h] at hdeclared
  unfold addRule at h
  cases hs : e.scope? id with
  | none =>
    rw [stateful_bind_error (requireScope_none hs)] at h
    cases h
  | some s =>
    obtain ⟨s', hs', -⟩ := hdeclared.scope hs
    -- The handle is made in the same way for a new rule and for one that is declared again.
    refine ⟨?_, s', hs'⟩
    rw [stateful_bind_ok (requireScope_some hs)] at h
    cases hslot : s.named.get? slot with
    | none =>
      simp only [hslot] at h
      cases h
      rfl
    | some key =>
      simp only [hslot] at h
      cases h
      rfl

/-- **Declaring a rule without a slot.** -/
theorem addUnnamedRule_declared (id : ScopeId) (rule : Rule) (e : Engine) :
    Rescoped (fun k => Scope.Declared (k = id) (· = rule.content)) e
      (addUnnamedRule id rule e).2 := by
  unfold addUnnamedRule
  cases hs : e.scope? id with
  | none =>
    rw [stateful_bind_error (requireScope_none hs)]
    exact .refl e
  | some s =>
    rw [stateful_bind_ok (requireScope_some hs)]
    refine (rescoped_newCell e).trans (.modifyScope fun t ht => ?_)
    obtain rfl : s = t := Option.some.inj (hs.symm.trans ht)
    refine ⟨rfl, rfl, rfl, rfl, rfl, fun hl => hl.append rfl rfl, fun {key' r} hr => ?_,
      fun h => absurd rfl h⟩
    change (s.rules ++ [_])[key']? = some r at hr
    rw [List.getElem?_append] at hr
    -- The rule was there, or it is the new one at the end of the list.
    split at hr
    · exact .inl hr
    · have hmem := List.mem_of_getElem? hr
      rw [List.mem_singleton] at hmem
      subst hmem
      exact .inr ⟨rfl, rfl, rfl⟩

/-- Extending a scope declares no rule. -/
theorem setBase_declared (id base : ScopeId) (e : Engine) :
    Rescoped (fun k => Scope.Declared (k = id) C) e
      (e.modifyScope id fun s => { s with base := some base }) :=
  .modifyScope fun _ _ => ⟨rfl, rfl, rfl, rfl, rfl, fun hl => hl, .inl, fun h => absurd rfl h⟩

/-! ### One more scope -/

/-- A scope at its start. -/
structure Fresh (owner : Option ScopeId) (s : Scope) : Prop where
  state : s.state = .unprocessed
  rules : s.rules = []
  order : s.order = []
  owner : s.owner = owner
  children : s.children = []
  references : s.references = []
  users : s.users = 0

/-- A scope that is fresh is not processed. -/
theorem Fresh.not_settled {owner : Option ScopeId} {s : Scope} (h : Fresh owner s) :
    ¬ s.Settled := fun hs => hs h.state

/-- A scope without rules has no keys in its order. -/
theorem Fresh.listed {owner : Option ScopeId} {s : Scope} (h : Fresh owner s) : s.Listed := by
  unfold Scope.Listed Scope.keys
  rw [h.order, h.rules]
  rfl

/-- The second engine has one more scope than the first one, nested in `owner` if there is one. -/
structure Grown (owner : Option ScopeId) (e e' : Engine) : Prop where
  keys : e'.scopes.keys = e.scopes.keys ++ [e.nextScope]
  nextScope : e'.nextScope = e.nextScope + 1
  singletons : e'.singletons = e.singletons
  born : ∃ s, e'.scope? e.nextScope = some s ∧ Fresh owner s
  kept {k s} : e.scope? k = some s → owner ≠ some k → e'.scope? k = some s
  nesting {k s} : e.scope? k = some s → owner = some k →
    e'.scope? k = some { s with children := s.children ++ [e.nextScope] }

namespace Grown

variable {owner : Option ScopeId}

/-- A scope of the grown engine is the new one, or it was there, and it is changed at most in
    what is nested in it. -/
theorem back (g : Grown owner e e') {s' : Scope} (hs' : e'.scope? k = some s') :
    (k = e.nextScope ∧ Fresh owner s') ∨ ∃ s, e.scope? k = some s ∧
      (s' = s ∧ owner ≠ some k ∨
        s' = { s with children := s.children ++ [e.nextScope] } ∧ owner = some k) := by
  have hk : k ∈ e'.scopes.keys := mem_keys_of_scope? hs'
  rw [g.keys, List.mem_append, List.mem_singleton] at hk
  -- The scope is the one that was added, its owner, which lists one more child, or any other one.
  by_cases hnew : k = e.nextScope
  · subst hnew
    obtain ⟨s, hs, hfresh⟩ := g.born
    rw [hs'] at hs
    cases hs
    exact .inl ⟨rfl, hfresh⟩
  · obtain ⟨s, hs⟩ := mem_keys_iff.mp (hk.resolve_right hnew)
    refine .inr ⟨s, hs, ?_⟩
    by_cases ho : owner = some k
    · rw [g.nesting hs ho] at hs'
      cases hs'
      exact .inr ⟨rfl, ho⟩
    · rw [g.kept hs ho] at hs'
      cases hs'
      exact .inl ⟨rfl, ho⟩

/-- An old scope keeps its owner, its references, its state and its users. -/
theorem scope (g : Grown owner e e') {s : Scope} (hs : e.scope? k = some s) :
    ∃ s', e'.scope? k = some s' ∧ s'.owner = s.owner ∧ s'.references = s.references ∧
      s'.state = s.state ∧ s'.users = s.users ∧ (∀ c ∈ s.children, c ∈ s'.children) := by
  by_cases ho : owner = some k
  · exact ⟨_, g.nesting hs ho, rfl, rfl, rfl, rfl, fun c hc => List.mem_append_left _ hc⟩
  · exact ⟨s, g.kept hs ho, rfl, rfl, rfl, rfl, fun c hc => hc⟩

end Grown

/-- A scope that is not nested. -/
theorem grown_addScope {s : Scope} {o : Option ScopeId} (h : Linked e) (hfresh : Fresh o s)
    (ho : o = none) : Grown o e (addScope s e).2 := by
  have hnot : e.nextScope ∉ e.scopes.keys := fun hmem => by
    obtain ⟨t, ht⟩ := mem_keys_iff.mp hmem
    exact absurd (h.lt_nextScope ht) (lt_irrefl _)
  refine ⟨(Dict.keys_insert _ _ _).trans (if_neg hnot), rfl, rfl, ⟨s, ?_, hfresh⟩, ?_, ?_⟩
  · rw [scope?_addScope, if_pos rfl]
  · intro k t ht _
    have hne : k ≠ e.nextScope := fun hk => hnot (hk ▸ mem_keys_of_scope? ht)
    rw [scope?_addScope, if_neg hne, ht]
  · intro k t _ hk
    rw [ho] at hk
    cases hk

/-- A scope nested in another one. -/
theorem grown_nested {s t : Scope} (h : Linked e) (hs : e.scope? id = some s)
    (hfresh : Fresh (some id) t) :
    Grown (some id) e ((addScope t e).2.modifyScope id fun s =>
      { s with children := s.children ++ [e.nextScope] }) := by
  -- The number of the new scope is above all others, so its place was free.
  have hnot : e.nextScope ∉ e.scopes.keys := fun hmem => by
    obtain ⟨t, ht⟩ := mem_keys_iff.mp hmem
    exact absurd (h.lt_nextScope ht) (lt_irrefl _)
  have hne : id ≠ e.nextScope := fun heq => hnot (heq ▸ mem_keys_of_scope? hs)
  have hs' : (addScope t e).2.scope? id = some s := by rw [scope?_addScope, if_neg hne, hs]
  refine ⟨?_, ?_, ?_, ⟨t, ?_, hfresh⟩, ?_, ?_⟩
  · rw [keys_modifyScope]
    exact (Dict.keys_insert _ _ _).trans (if_neg hnot)
  · rw [nextScope_modifyScope]
    rfl
  · rw [singletons_modifyScope]
    rfl
  · rw [scope?_modifyScope_of_ne _ (Ne.symm hne), scope?_addScope, if_pos rfl]
  · intro k u hu hk
    have hki : k ≠ id := fun heq => hk (by rw [heq])
    have hkn : k ≠ e.nextScope := fun heq => hnot (heq ▸ mem_keys_of_scope? hu)
    rw [scope?_modifyScope_of_ne _ hki, scope?_addScope, if_neg hkn, hu]
  · intro k u hu hk
    cases hk
    rw [hs] at hu
    cases hu
    exact scope?_modifyScope_self _ hs'

/-- A nested scope has the next id. -/
theorem addNested_ok {child : ScopeId} (h : addNested id e = (.ok child, e')) :
    child = e.nextScope := by
  unfold addNested at h
  cases hs : e.scope? id with
  | none =>
    rw [stateful_bind_error (requireScope_none hs)] at h
    cases h
  | some s =>
    rw [stateful_bind_ok (requireScope_some hs)] at h
    cases h
    rfl

/-- The scopes after one was nested in another one. -/
theorem scope?_addNested {s : Scope} (h : Linked e) (hs : e.scope? id = some s) :
    (addNested id e).2.scope? k =
      if k = e.nextScope then
        some { name := s.name, definition := s.definition, multiplex := false, owner := some id }
      else if k = id then some { s with children := s.children ++ [e.nextScope] }
      else e.scope? k := by
  have hne : id ≠ e.nextScope := fun heq => absurd (h.lt_nextScope hs) (heq ▸ lt_irrefl _)
  unfold addNested
  rw [stateful_bind_ok (requireScope_some hs)]
  show (Engine.modifyScope id _ (addScope _ e).2).scope? k = _
  rw [scope?_modifyScope, scope?_addScope, scope?_addScope]
  by_cases hk : k = id
  · subst hk
    rw [if_pos rfl, if_neg hne, if_neg hne, if_pos rfl, hs]
    rfl
  · rw [if_neg hk, if_neg hk]

namespace Linked

variable {owner : Option ScopeId}

/-- One more scope keeps the links sound, if the scope it is nested in is not processed. -/
theorem grown (h : Linked e) (g : Grown owner e e')
    (howner : ∀ o, owner = some o → ∃ s, e.scope? o = some s ∧ ¬ s.Settled) : Linked e' := by
  have hnew : ∀ {k s}, e.scope? k = some s → k ≠ e.nextScope := fun hs heq =>
    absurd (h.lt_nextScope hs) (heq ▸ lt_irrefl _)
  have hnot : e.nextScope ∉ e.scopes.keys := fun hmem => by
    obtain ⟨t, ht⟩ := mem_keys_iff.mp hmem
    exact hnew ht rfl
  -- What does not concern nested scopes is the same for each old scope.
  have hold : ∀ {k s'}, e'.scope? k = some s' → Fresh owner s' ∨ ∃ s, e.scope? k = some s ∧
      s'.owner = s.owner ∧ s'.references = s.references ∧ s'.rules = s.rules ∧
      s'.state = s.state ∧ s'.users = s.users := by
    intro k s' hs'
    rcases g.back hs' with ⟨-, hf⟩ | ⟨s, hs, ⟨rfl, -⟩ | ⟨rfl, -⟩⟩
    · exact .inl hf
    · exact .inr ⟨_, hs, rfl, rfl, rfl, rfl, rfl⟩
    · exact .inr ⟨_, hs, rfl, rfl, rfl, rfl, rfl⟩
  constructor
  case keys_nodup =>
    rw [g.keys]
    refine List.nodup_append.mpr ⟨h.keys_nodup, List.nodup_singleton _, fun a ha b hb heq => ?_⟩
    rw [List.mem_singleton] at hb
    exact hnot (hb ▸ heq ▸ ha)
  case lt_nextScope =>
    intro k s' hs'
    rw [g.nextScope]
    rcases g.back hs' with ⟨rfl, -⟩ | ⟨s, hs, -⟩
    · exact Nat.lt_succ_self _
    · exact Nat.lt_succ_of_lt (h.lt_nextScope hs)
  case references_nodup =>
    intro k s' hs'
    rcases hold hs' with hf | ⟨s, hs, -, hr, -⟩
    · rw [hf.references]
      exact List.nodup_nil
    · rw [hr]
      exact h.references_nodup hs
  case reference_ready =>
    intro k s' r hs' hm
    rcases hold hs' with hf | ⟨s, hs, -, hr, -⟩
    · rw [hf.references] at hm
      simp at hm
    · obtain ⟨t, ht, hsettled, ho⟩ := h.reference_ready hs (hr ▸ hm)
      obtain ⟨t', ht', ho', -, hstate, -⟩ := g.scope ht
      exact ⟨t', ht', by unfold Scope.Settled; rwa [hstate], ho'.trans ho⟩
  case ranked =>
    obtain ⟨rank, hrank⟩ := h.ranked
    refine ⟨rank, fun hs' hm => ?_⟩
    rcases hold hs' with hf | ⟨s, hs, -, hr, -⟩
    · rw [hf.references] at hm
      simp at hm
    · exact hrank hs (hr ▸ hm)
  case children_nodup =>
    intro k s' hs'
    rcases g.back hs' with ⟨-, hf⟩ | ⟨s, hs, ⟨rfl, -⟩ | ⟨rfl, -⟩⟩
    · rw [hf.children]
      exact List.nodup_nil
    · exact h.children_nodup hs
    · refine List.nodup_append.mpr
        ⟨h.children_nodup hs, List.nodup_singleton _, fun a ha b hb heq => ?_⟩
      rw [List.mem_singleton] at hb
      obtain ⟨t, ht, -⟩ := h.child_owner hs (heq ▸ ha)
      exact hnew ht hb
  case child_owner =>
    intro k s' c hs' hc
    have hkeep : ∀ {s}, e.scope? k = some s → c ∈ s.children →
        ∃ t, e'.scope? c = some t ∧ t.owner = some k := by
      intro s hs hc
      obtain ⟨t, ht, ho⟩ := h.child_owner hs hc
      obtain ⟨t', ht', ho', -⟩ := g.scope ht
      exact ⟨t', ht', ho'.trans ho⟩
    rcases g.back hs' with ⟨-, hf⟩ | ⟨s, hs, ⟨rfl, -⟩ | ⟨rfl, ho⟩⟩
    · rw [hf.children] at hc
      simp at hc
    · exact hkeep hs hc
    · rcases List.mem_append.mp hc with hc | hc
      · exact hkeep hs hc
      · rw [List.mem_singleton] at hc
        obtain ⟨t, ht, hf⟩ := g.born
        exact ⟨t, hc ▸ ht, hf.owner.trans ho⟩
  case owner_child =>
    intro k t' o ht' ho
    rcases g.back ht' with ⟨rfl, hf⟩ | ⟨t, ht, hcases⟩
    · obtain ⟨s, hs, hn⟩ := howner o (hf.owner.symm.trans ho)
      refine ⟨h.lt_nextScope hs, _, g.nesting hs (hf.owner.symm.trans ho),
        List.mem_append_right _ (List.mem_singleton.mpr rfl), fun hc => absurd hc hn⟩
    · have heq : t'.owner = t.owner ∧ t'.state = t.state := by
        rcases hcases with ⟨rfl, -⟩ | ⟨rfl, -⟩ <;> exact ⟨rfl, rfl⟩
      obtain ⟨hlt, s, hs, hm, himp⟩ := h.owner_child ht (heq.1.symm.trans ho)
      obtain ⟨s', hs', -, -, hstate, -, hchildren⟩ := g.scope hs
      refine ⟨hlt, s', hs', hchildren k hm, fun hc => ?_⟩
      unfold Scope.Settled at hc himp ⊢
      rw [hstate] at hc
      rw [heq.2]
      exact himp hc
  case singleton_live =>
    intro d k hd
    obtain ⟨s, hs, ho⟩ := h.singleton_live (g.singletons ▸ hd)
    obtain ⟨s', hs', ho', -⟩ := g.scope hs
    exact ⟨s', hs', ho'.trans ho⟩
  case singleton_inj =>
    exact fun hd hd' => h.singleton_inj (g.singletons ▸ hd) (g.singletons ▸ hd')
  case merged =>
    intro k s' hs' hsettled
    rcases hold hs' with hf | ⟨s, hs, -, -, hr, hstate, -⟩
    · exact absurd hsettled hf.not_settled
    · unfold Scope.Merged
      rw [hr]
      exact h.merged hs (by unfold Scope.Settled at hsettled ⊢; rwa [hstate] at hsettled)
  case inserted_iff =>
    intro k s' hs'
    rcases hold hs' with hf | ⟨s, hs, -, -, -, hstate, husers⟩
    · rw [hf.state, hf.users]
      simp
    · rw [hstate, husers]
      exact h.inserted_iff hs
  case listed =>
    intro k s' hs'
    rcases g.back hs' with ⟨-, hf⟩ | ⟨s, hs, ⟨rfl, -⟩ | ⟨rfl, -⟩⟩
    · exact hf.listed
    · exact h.listed hs
    · exact (h.listed hs).congr rfl rfl

end Linked

/-- Adding a scope leaves alone what a definition has to leave alone, if its owner is not processed.
    -/
theorem Grown.extends {owner : Option ScopeId} (g : Grown owner e e')
    (howner : ∀ o, owner = some o → e.Unsettled o) : Extends e e' where
  nextScope_le := by rw [g.nextScope]; exact Nat.le_succ _
  settled hs hsettled := g.kept hs fun ho => howner _ ho hs hsettled
  unsettled hs hn := by
    obtain ⟨s', hs', ho, -, hstate, husers, -⟩ := g.scope hs
    exact ⟨s', hs', by unfold Scope.Settled at hn ⊢; rwa [hstate], ho, husers⟩
  born hs' hnone := by
    rcases g.back hs' with ⟨rfl, hf⟩ | ⟨s, hs, -⟩
    · exact ⟨le_rfl, hf.users⟩
    · rw [hnone] at hs
      cases hs
  singletons hd := .inl (g.singletons ▸ hd)

/-- Old scopes are inside of what they were inside of. -/
theorem Grown.inside_iff {owner : Option ScopeId} (g : Grown owner e e') (h : Linked e)
    {root : ScopeId} (hk : k ∈ e.scopes.keys) : e'.Inside root k ↔ e.Inside root k := by
  constructor
  · intro hin
    induction hin with
    | root _ =>
      obtain ⟨s, hs⟩ := mem_keys_iff.mp hk
      exact .root hs
    | nested hs' ho _ ih =>
      obtain ⟨s, hs⟩ := mem_keys_iff.mp hk
      obtain ⟨t, ht, ho', -⟩ := g.scope hs
      rw [hs'] at ht
      cases ht
      obtain ⟨-, u, hu, -⟩ := h.owner_child hs (ho'.symm.trans ho)
      exact .nested hs (ho'.symm.trans ho) (ih (mem_keys_of_scope? hu))
  · exact fun hin => hin.of_owner fun hs => (g.scope hs).imp fun _ h' => ⟨h'.1, h'.2.1⟩

namespace Sound

/-- **One more scope nested in one that is declared.** -/
theorem grown_nested (h : Sound roots e) (g : Grown (some id) e e') {root : ScopeId}
    (hroot : root ∈ roots) (hid : e.Inside root id) : Sound roots e' := by
  obtain ⟨s, hs⟩ := hid.live
  have hn : ¬ s.Settled := (h.unsettled_iff hs).mpr ⟨root, hroot, hid⟩
  have hlinked : Linked e' := h.linked.grown g fun o ho => by cases ho; exact ⟨s, hs, hn⟩
  refine ⟨hlinked, fun {k t'} ht' => ?_, h.roots_nodup, fun hr => ?_⟩
  · rcases g.back ht' with ⟨rfl, hf⟩ | ⟨t, ht, hcases⟩
    · refine iff_of_true hf.not_settled ⟨root, hroot, .nested ht' hf.owner ?_⟩
      exact (g.inside_iff h.linked (mem_keys_of_scope? hs)).mpr hid
    · have hstate : t'.state = t.state := by
        rcases hcases with ⟨rfl, -⟩ | ⟨rfl, -⟩ <;> rfl
      have hiff : (¬ t'.Settled) ↔ ¬ t.Settled := by unfold Scope.Settled; rw [hstate]
      rw [hiff, h.unsettled_iff ht]
      exact exists_congr fun r => and_congr_right fun _ =>
        (g.inside_iff h.linked (mem_keys_of_scope? ht)).symm
  · obtain ⟨t, ht, ho⟩ := h.root_owner hr
    obtain ⟨t', ht', ho', -⟩ := g.scope ht
    exact ⟨t', ht', ho'.trans ho⟩

/-- **One more scope for a definition.** -/
theorem grown_root (h : Sound roots e) (g : Grown none e e') :
    Sound (e.nextScope :: roots) e' := by
  have hlinked : Linked e' := h.linked.grown g fun o ho => by cases ho
  have hnew : ∀ {k s}, e.scope? k = some s → k ≠ e.nextScope := fun hs heq =>
    absurd (h.linked.lt_nextScope hs) (heq ▸ lt_irrefl _)
  obtain ⟨s, hs, hfresh⟩ := g.born
  refine ⟨hlinked, fun {k t'} ht' => ?_, List.nodup_cons.mpr ⟨fun hm => ?_, h.roots_nodup⟩,
    fun hr => ?_⟩
  -- A scope is unprocessed exactly inside of a root: the new one is a root, the others lie as
  -- before.
  · rcases g.back ht' with ⟨rfl, hf⟩ | ⟨t, ht, hcases⟩
    · exact iff_of_true hf.not_settled ⟨_, List.mem_cons_self, .root ht'⟩
    · have hstate : t'.state = t.state := by
        rcases hcases with ⟨rfl, -⟩ | ⟨rfl, -⟩ <;> rfl
      have hiff : (¬ t'.Settled) ↔ ¬ t.Settled := by unfold Scope.Settled; rw [hstate]
      have hnot : ¬ e'.Inside e.nextScope k := fun hin => by
        obtain ⟨u, hu⟩ := ((g.inside_iff h.linked (mem_keys_of_scope? ht)).mp hin).root_live
        exact hnew hu rfl
      rw [hiff, h.unsettled_iff ht, List.exists_mem_cons_iff, or_iff_right hnot]
      exact exists_congr fun r => and_congr_right fun _ =>
        (g.inside_iff h.linked (mem_keys_of_scope? ht)).symm
  · obtain ⟨t, ht, -⟩ := h.root_owner hm
    exact hnew ht rfl
  · rcases List.mem_cons.mp hr with rfl | hr
    · exact ⟨s, hs, hfresh.owner⟩
    · obtain ⟨t, ht, ho⟩ := h.root_owner hr
      obtain ⟨t', ht', ho', -⟩ := g.scope ht
      exact ⟨t', ht', ho'.trans ho⟩

end Sound

/-! ### One more reference -/

/-- A scope uses another one. -/
theorem addReference_referenced (id used : ScopeId) (e : Engine) :
    Rescoped (fun k => Scope.Referenced (k = id) used) e (e.addReference id used) := by
  refine .modifyScope fun s _ => ?_
  by_cases hm : used ∈ s.references
  · rw [if_pos hm]
    exact refl_of _ s
  · rw [if_neg hm]
    refine ⟨rfl, fun hr => ?_, fun hn => ?_, fun h => absurd rfl h⟩
    · exact (List.mem_append.mp hr).imp_right fun hr => ⟨rfl, List.mem_singleton.mp hr⟩
    · refine List.nodup_append.mpr ⟨hn, List.nodup_singleton _, fun a ha b hb heq => ?_⟩
      rw [List.mem_singleton] at hb
      exact hm (hb ▸ heq ▸ ha)

/-- References from a scope that is not processed to a processed one keep the links sound. -/
theorem Linked.referenced {used : ScopeId} (h : Linked e)
    (hr : Rescoped (fun k => Scope.Referenced (k = id) used) e e') (hid : e.Unsettled id)
    (hused : ∃ t, e.scope? used = some t ∧ t.Settled ∧ t.owner = none) : Linked e' where
  keys_nodup := hr.keys ▸ h.keys_nodup
  lt_nextScope hs' := by
    obtain ⟨s, hs, -⟩ := hr.back hs'
    exact hr.nextScope ▸ h.lt_nextScope hs
  references_nodup hs' := by
    obtain ⟨s, hs, hR⟩ := hr.back hs'
    exact hR.nodup (h.references_nodup hs)
  reference_ready {k s' r} hs' hm := by
    obtain ⟨s, hs, hR⟩ := hr.back hs'
    have hready : ∃ t, e.scope? r = some t ∧ t.Settled ∧ t.owner = none := by
      rcases hR.mem hm with hm | ⟨-, rfl⟩
      · exact h.reference_ready hs hm
      · exact hused
    obtain ⟨t, ht, hsettled, ho⟩ := hready
    obtain ⟨t', ht', hR'⟩ := hr.scope ht
    exact ⟨t', ht', hR'.settled_iff.mpr hsettled, hR'.owner.trans ho⟩
  ranked := by
    obtain ⟨rank, hrank⟩ := h.ranked
    obtain ⟨t, ht, hsettled, -⟩ := hused
    -- No scope references one that is not processed, so that one can be ranked higher.
    refine ⟨fun k => if k = id then max (rank id) (rank used + 1) else rank k, ?_⟩
    intro k s' r hs' hm
    beta_reduce
    obtain ⟨s, hs, hR⟩ := hr.back hs'
    rcases hR.mem hm with hm | ⟨rfl, rfl⟩
    · have hne : r ≠ id := fun heq => by
        obtain ⟨u, hu, hu', -⟩ := h.reference_ready hs hm
        exact hid (heq ▸ hu) hu'
      have hlt := hrank hs hm
      by_cases hk : k = id
      · subst hk
        rw [if_neg hne, if_pos rfl]
        exact lt_of_lt_of_le hlt (le_max_left _ _)
      · rwa [if_neg hne, if_neg hk]
    · have hne : r ≠ k := fun heq => hid (heq ▸ ht) hsettled
      rw [if_neg hne, if_pos rfl]
      exact lt_of_lt_of_le (Nat.lt_succ_self _) (le_max_right _ _)
  children_nodup hs' := by
    obtain ⟨s, hs, hR⟩ := hr.back hs'
    exact hR.children ▸ h.children_nodup hs
  child_owner hs' hm := by
    obtain ⟨s, hs, hR⟩ := hr.back hs'
    obtain ⟨t, ht, ho⟩ := h.child_owner hs (hR.children ▸ hm)
    obtain ⟨t', ht', hR'⟩ := hr.scope ht
    exact ⟨t', ht', hR'.owner.trans ho⟩
  owner_child ht' ho := by
    obtain ⟨t, ht, hR⟩ := hr.back ht'
    obtain ⟨hlt, s, hs, hm, himp⟩ := h.owner_child ht (hR.owner ▸ ho)
    obtain ⟨s', hs', hR'⟩ := hr.scope hs
    exact ⟨hlt, s', hs', hR'.children ▸ hm, fun hc =>
      hR.settled_iff.mpr (himp (hR'.settled_iff.mp hc))⟩
  singleton_live hd := by
    obtain ⟨s, hs, ho⟩ := h.singleton_live (hr.singletons ▸ hd)
    obtain ⟨s', hs', hR⟩ := hr.scope hs
    exact ⟨s', hs', hR.owner.trans ho⟩
  singleton_inj hd hd' := h.singleton_inj (hr.singletons ▸ hd) (hr.singletons ▸ hd')
  merged hs' hsettled := by
    obtain ⟨s, hs, hR⟩ := hr.back hs'
    unfold Scope.Merged
    rw [hR.rules]
    exact h.merged hs (hR.settled_iff.mp hsettled)
  inserted_iff hs' := by
    obtain ⟨s, hs, hR⟩ := hr.back hs'
    rw [hR.state, hR.users]
    exact h.inserted_iff hs
  listed hs' := by
    obtain ⟨s, hs, hR⟩ := hr.back hs'
    exact (h.listed hs).congr hR.order (congrArg List.length hR.rules)

namespace Sound

/-- What is inside of a root is not processed. -/
theorem unsettled (h : Sound roots e) {root : ScopeId} (hroot : root ∈ roots)
    (hk : e.Inside root k) : e.Unsettled k :=
  fun hs => (h.unsettled_iff hs).mpr ⟨root, hroot, hk⟩

/-- **One more reference.** -/
theorem referenced {used root : ScopeId} (h : Sound roots e) (hroot : root ∈ roots)
    (hid : e.Inside root id) (hr : Rescoped (fun k => Scope.Referenced (k = id) used) e e')
    (hused : ∃ t, e.scope? used = some t ∧ t.Settled ∧ t.owner = none) : Sound roots e' where
  linked := h.linked.referenced hr (h.unsettled hroot hid) hused
  unsettled_iff hs' := by
    obtain ⟨s, hs, hR⟩ := hr.back hs'
    rw [hR.settled_iff, h.unsettled_iff hs]
    exact exists_congr fun root => and_congr_right fun _ =>
      (hr.inside_iff fun _ _ _ hR => hR.owner).symm
  roots_nodup := h.roots_nodup
  root_owner hroot := by
    obtain ⟨s, hs, howner⟩ := h.root_owner hroot
    obtain ⟨s', hs', hR⟩ := hr.scope hs
    exact ⟨s', hs', hR.owner.trans howner⟩

end Sound

/-- A reference from a scope that is not processed changes only that scope. -/
theorem Rescoped.extends_of_referenced {used : ScopeId}
    (hr : Rescoped (fun k => Scope.Referenced (k = id) used) e e') (hid : e.Unsettled id) :
    Extends e e' where
  nextScope_le := hr.nextScope.ge
  settled {k s} hs hsettled := by
    obtain ⟨s', hs', hR⟩ := hr.scope hs
    have hk : k ≠ id := fun heq => hid (heq ▸ hs) hsettled
    exact hR.eq_of_not hk ▸ hs'
  unsettled hs hn := by
    obtain ⟨s', hs', hR⟩ := hr.scope hs
    exact ⟨s', hs', fun hc => hn (hR.settled_iff.mp hc), hR.owner, hR.users⟩
  born hs' hnone := by
    obtain ⟨s, hs, -⟩ := hr.back hs'
    rw [hnone] at hs
    cases hs
  singletons hd := .inl (hr.singletons ▸ hd)

end Engine

end StyleBook
