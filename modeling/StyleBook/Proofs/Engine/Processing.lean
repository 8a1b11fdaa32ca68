import StyleBook.Proofs.Engine.Merging
import StyleBook.Proofs.Engine.Naming

namespace StyleBook

/-!
# What processing changes

Processing a scope leaves processed scopes alone, keeps all links, and keeps each rule but for
what it inherits.

* `Scope.Progressed P` — how processing changes a scope, whose state may change under `P`;
* `Engine.processWithin_steps` — processing moves an engine along a relation, if all its steps do;
* `Engine.processWithin_spec` — processing keeps links sound and changes the state only of
  scopes inside of the one that is processed; if it succeeds, all of these are processed.
-/

/-- The scope is changed by processing; its state is changed under `P` only. -/
structure Scope.Progressed (P : Prop) (s s' : Scope) : Prop where
  owner : s'.owner = s.owner
  children : s'.children = s.children
  references : s'.references = s.references
  users : s'.users = s.users
  settled : s.Settled → s' = s
  state : s'.state = s.state ∨ P ∧ s'.state = .processed
  order : s'.order = s.order
  length_eq : s'.rules.length = s.rules.length
  rule {key : Nat} {r : Rule} :
    s.rules[key]? = some r → ∃ r', s'.rules[key]? = some r' ∧ r.Remerged r'

namespace Scope.Progressed

variable {P Q : Prop} {s s' : Scope}

instance : IsPreorder Scope (Progressed P) where
  refl _ := ⟨rfl, rfl, rfl, rfl, fun _ => rfl, .inl rfl, rfl, rfl, fun h => ⟨_, h, .inl rfl⟩⟩
  trans s s' s'' h h' :=
    { owner := h'.owner.trans h.owner
      children := h'.children.trans h.children
      references := h'.references.trans h.references
      users := h'.users.trans h.users
      settled := fun hs => by
        have heq := h.settled hs
        subst heq
        exact h'.settled hs
      state := by
        rcases h'.state with heq' | hP
        · exact heq' ▸ h.state
        · exact .inr hP
      order := h'.order.trans h.order
      length_eq := h'.length_eq.trans h.length_eq
      rule := fun hr => by
        obtain ⟨r', hr', hR⟩ := h.rule hr
        obtain ⟨r'', hr'', hR'⟩ := h'.rule hr'
        exact ⟨r'', hr'', hR.trans hR'⟩ }

theorem mono (h : Progressed P s s') (hPQ : P → Q) : Progressed Q s s' :=
  { h with state := h.state.imp_right fun hP => ⟨hPQ hP.1, hP.2⟩ }

/-- Rules that were merged stay merged. -/
theorem merged (h : Progressed P s s') (hm : s.Merged) : s'.Merged := by
  intro r' hr' hbody
  obtain ⟨key, hkey⟩ := List.mem_iff_getElem?.mp hr'
  have hlt : key < s.rules.length := h.length_eq ▸ (List.getElem?_eq_some_iff.mp hkey).1
  obtain ⟨r'', hr'', hR⟩ := h.rule (List.getElem?_eq_getElem hlt)
  rw [hkey] at hr''
  cases hr''
  have hmem := hm _ (List.getElem_mem hlt) (hR.content ▸ hbody)
  rwa [hR.of_merged hmem]

/-- A scope whose state may not change keeps its links. -/
theorem relinked (h : Progressed P s s') (hP : ¬ P) : Relinked s s' := by
  have hstate : s'.state = s.state := h.state.resolve_right fun hc => hP hc.1
  exact
    { owner := h.owner
      children := h.children
      references := h.references
      settled := by unfold Settled; rw [hstate]
      merged := fun _ => h.merged
      inserted := fun hi => by rwa [hstate, h.users]
      listed := fun hl => hl.congr h.order h.length_eq }

end Scope.Progressed

/-- Renaming a scope that is not processed. -/
theorem Scope.Renamed.progressed {P Q : Prop} {s s' : Scope} (h : Renamed P s s')
    (hP : P → ¬ s.Settled) : Progressed Q s s' := by
  have heq := h.eq_names
  exact
    { owner := by rw [heq]
      children := by rw [heq]
      references := by rw [heq]
      users := by rw [heq]
      settled := fun hs => h.eq_of_not fun hp => hP hp hs
      state := .inl (by rw [heq])
      order := by rw [heq]
      length_eq := by rw [heq]
      rule := fun hr => ⟨_, by rw [heq]; exact hr, .inl rfl⟩ }

/-- Filling in what the rules of a scope inherit that is not processed. -/
theorem Scope.Remerged.progressed {Q : Prop} {s s' : Scope} (h : Remerged s s')
    (hm : s.Settled → s.Merged) : Progressed Q s s' := by
  have hr := h.retouched hm
  exact ⟨hr.owner, hr.children, hr.references, hr.users, hr.settled, .inl hr.state, h.order,
    h.length_eq, h.rule⟩

namespace Engine

variable {e e' : Engine} {id k : ScopeId} {key : Nat}

/-! ### The steps for one rule -/

/-- Naming in a scope that is not processed. -/
theorem assignName_progressed (h : Linked e) (hid : e.Unsettled id) (key : Nat) :
    Rescoped (fun _ => Scope.Progressed False) e (assignName id key e).2 := by
  refine (assignName_renamed id key e).mono fun k s s' hs hR => hR.progressed fun hi hsettled => ?_
  obtain ⟨t, ht⟩ := hi.live
  exact hid ht (h.settled_of_inside hi hs hsettled ht)

/-- Merging a rule, if it has a styleset, fills in what rules inherit. -/
theorem mergeAt_remerged (id : ScopeId) (key : Nat) (e : Engine) :
    Rescoped (fun _ => Scope.Remerged) e (mergeAt id key e).2 := by
  refine mergeAt_cases (.refl e) fun rule body hr hbody => ?_
  have hsome : rule.content.body?.isSome := by rw [hbody]; rfl
  have hR := mergeWithin_remerged e.allRules id key e
  cases hm : rule.merged with
  | none => exact hR.setMerged hr hm hsome _
  | some m =>
    -- A rule that is merged already is kept as it is.
    rw [mergeWithin_known hr hm]
    obtain ⟨s, hs, hrs⟩ := rule?_eq_some_iff.mp hr
    unfold Engine.setMerged
    simp only [hr]
    refine .modifyScope fun t ht => ?_
    rw [hs] at ht
    cases ht
    have hsame : s.setRule key { rule with merged := some m } = s := by
      unfold Scope.setRule
      have hlt := (List.getElem?_eq_some_iff.mp hrs).1
      have hget := (List.getElem?_eq_some_iff.mp hrs).2
      have hrule : ({ rule with merged := some m } : Rule) = rule := by rw [← hm]
      rw [hrule, ← hget, List.set_getElem_self]
    rw [hsame]
    exact refl_of Scope.Remerged s

/-- After its step a rule with a styleset is merged. -/
theorem mergeAt_filled {rule : Rule} (hr : e.rule? id key = some rule)
    (hbody : rule.content.body?.isSome) :
    ∃ r, (mergeAt id key e).2.rule? id key = some r ∧ r.merged.isSome := by
  obtain ⟨body, hb⟩ := Option.isSome_iff_exists.mp hbody
  obtain ⟨r, hr', hm⟩ := mergeWithin_filled hr hbody (mem_allRules hr)
  unfold mergeAt
  simp only [stateful_bind, stateful_get, hr, Option.bind_some, hb]
  exact ⟨_, rule?_setMerged_self hr' _, rfl⟩

/-! ### All rules of a scope -/

/-- A step for the first item comes before those for the others. -/
theorem forEach_cons {α : Type} (step : α → EngineM Unit) (a : α) (rest : List α) :
    forEach step (a :: rest) = (step a >>= fun _ => forEach step rest) := rfl

/-- Steps for each element of a list move the engine along a relation, if each one does that follows
    such steps. -/
theorem forEach_steps {α : Type} {R : Engine → Engine → Prop} [IsPreorder Engine R]
    {step : α → EngineM Unit} (list : List α)
    (hstep : ∀ a ∈ list, ∀ e', R e e' → R e' (step a e').2) : Steps R (forEach step list) e := by
  induction list generalizing e with
  | nil => exact refl_of R e
  | cons a rest ih =>
    rw [forEach_cons]
    have ha := hstep a List.mem_cons_self e (refl_of R e)
    refine .bind ha fun _ e₁ h₁ => ?_
    rw [h₁] at ha
    exact ih fun a hmem e' h' =>
      hstep a (List.mem_cons_of_mem _ hmem) e' (trans_of R ha h')

/-- Steps that keep links, done for each element of a list. -/
theorem forEach_progressed {α : Type} (step : α → EngineM Unit)
    (hstep : ∀ a e, Linked e → e.Unsettled id →
      Rescoped (fun _ => Scope.Progressed False) e (step a e).2)
    (list : List α) (h : Linked e) (hid : e.Unsettled id) :
    Rescoped (fun _ => Scope.Progressed False) e (forEach step list e).2 := by
  induction list generalizing e with
  | nil => exact .refl e
  | cons a rest ih =>
    rw [forEach_cons]
    have hR := hstep a e h hid
    refine Steps.bind hR fun _ e₁ h₁ => ?_
    have he₁ : (step a e).2 = e₁ := by rw [h₁]
    rw [he₁] at hR
    have hl : Rescoped (fun _ => Scope.Relinked) e e₁ :=
      hR.mono fun _ _ _ _ hp => hp.relinked not_false
    refine ih (h.relinked hl) fun hs' hsettled => ?_
    obtain ⟨s, hs, hp⟩ := hl.back hs'
    exact hid hs (hp.settled.mp hsettled)

/-- The step for one rule succeeds. -/
theorem mergeAt_ok (id : ScopeId) (key : Nat) (e : Engine) : (mergeAt id key e).1 = .ok () := by
  unfold mergeAt
  simp only [stateful_bind, stateful_get]
  cases (e.rule? id key).bind (·.content.body?) <;> rfl

section Rules

variable {α : Type} (place : α → ScopeId × Nat)

/-- Merging one rule after the other fills in what rules inherit. -/
theorem forEach_mergeAt_remerged (list : List α) (e : Engine) :
    Rescoped (fun _ => Scope.Remerged) e
      (forEach (fun a => mergeAt (place a).1 (place a).2) list e).2 := by
  induction list generalizing e with
  | nil => exact .refl e
  | cons a rest ih =>
    rw [forEach_cons]
    exact Steps.bind (mergeAt_remerged (place a).1 (place a).2 e) fun _ e₁ _ => ih e₁

/-- Merging the first rule comes before merging the others. -/
theorem forEach_mergeAt_cons (a : α) (rest : List α) (e : Engine) :
    forEach (fun a => mergeAt (place a).1 (place a).2) (a :: rest) e =
      forEach (fun a => mergeAt (place a).1 (place a).2) rest
        (mergeAt (place a).1 (place a).2 e).2 := by
  have hok := mergeAt_ok (place a).1 (place a).2 e
  rw [forEach_cons, stateful_bind]
  rcases hrun : mergeAt (place a).1 (place a).2 e with ⟨r, e₁⟩
  rw [hrun] at hok
  cases hok
  rfl

/-- Merging never fails. -/
theorem forEach_mergeAt_ok (list : List α) (e : Engine) :
    (forEach (fun a => mergeAt (place a).1 (place a).2) list e).1 = .ok () := by
  induction list generalizing e with
  | nil => rfl
  | cons a rest ih => rw [forEach_mergeAt_cons, ih]

/-- After their steps, in whatever order, rules with stylesets are merged. -/
theorem forEach_mergeAt_filled (list : List α) (e : Engine) {a : α} (ha : a ∈ list) {rule : Rule}
    (hr : e.rule? (place a).1 (place a).2 = some rule) (hbody : rule.content.body?.isSome) :
    ∃ r, (forEach (fun a => mergeAt (place a).1 (place a).2) list e).2.rule? (place a).1
      (place a).2 = some r ∧ r.merged.isSome := by
  induction list generalizing e rule with
  | nil => cases ha
  | cons b rest ih =>
    rw [forEach_mergeAt_cons]
    rcases List.mem_cons.mp ha with rfl | hmem
    · obtain ⟨r, hr', hm⟩ := mergeAt_filled hr hbody
      obtain ⟨r', hr'', hR⟩ := (forEach_mergeAt_remerged place rest _).rule?_some hr'
      exact ⟨r', hr'', by rwa [hR.of_merged hm]⟩
    · obtain ⟨r, hr', hR⟩ := (mergeAt_remerged (place b).1 (place b).2 e).rule?_some hr
      exact ih _ hmem hr' (hR.content ▸ hbody)

end Rules

/-- After the steps for all rules of a scope the scope is merged. -/
theorem forEach_mergeAt_merged {s : Scope} (hs : e.scope? id = some s) (hl : s.Listed) :
    ∃ s', (forEach (mergeAt id) s.order e).2.scope? id = some s' ∧ s'.Merged := by
  obtain ⟨s', hs', hR⟩ := (forEach_mergeAt_remerged (fun key => (id, key)) s.order e).scope hs
  refine ⟨s', hs', fun r hr hbody => ?_⟩
  obtain ⟨key, hkey⟩ := List.mem_iff_getElem?.mp hr
  have hlt : key < s.rules.length := hR.length_eq ▸ (List.getElem?_eq_some_iff.mp hkey).1
  have hold : s.rules[key]? = some s.rules[key] := List.getElem?_eq_getElem hlt
  obtain ⟨r', hr', hcontent⟩ := hR.rule hold
  cases hkey.symm.trans hr'
  -- The rule is among those that are merged.
  obtain ⟨r'', hr'', hm⟩ := forEach_mergeAt_filled (fun key => (id, key)) s.order e
    (hl.mem_order.mpr hlt) (rule?_eq_some_iff.mpr ⟨s, hs, hold⟩) (hcontent.content ▸ hbody)
  obtain ⟨t, ht, hkey'⟩ := rule?_eq_some_iff.mp hr''
  cases hs'.symm.trans ht
  cases hkey.symm.trans hkey'
  exact hm

/-! ### A scope with the scopes nested in it -/

/-- The links stay sound when a scope counts as processed whose rules are merged and whose nested
    scopes are processed. -/
theorem Linked.settle (h : Linked e) {s : Scope} (hs : e.scope? id = some s) (hid : ¬ s.Settled)
    (hm : s.Merged)
    (hchildren : ∀ c ∈ s.children, ∀ {t}, e.scope? c = some t → t.Settled) :
    Linked (e.modifyScope id fun s => { s with state := .processed }) := by
  have hself := scope?_modifyScope_self (fun s => { s with state := .processed }) hs
  refine h.rescoped ⟨keys_modifyScope _, fun {k t} ht => ?_, singletons_modifyScope _,
    nextScope_modifyScope _⟩ ?_ ?_ ?_
  · by_cases hk : k = id
    · subst hk
      rw [hs] at ht
      cases ht
      exact ⟨_, hself, rfl, rfl, rfl, fun _ => by simp [Scope.Settled], fun hl => hl⟩
    · exact ⟨t, (scope?_modifyScope_of_ne _ hk).trans ht, rfl, rfl, rfl, fun h => h, fun hl => hl⟩
  · intro k t o s' ht howner hs' hsettled
    -- The owner is the scope itself, or it was processed before.
    by_cases hk : k = id
    · subst hk
      rw [hself] at ht
      cases ht
      simp [Scope.Settled]
    · rw [scope?_modifyScope_of_ne _ hk] at ht
      obtain ⟨-, s₀, hs₀, hmem, himp⟩ := h.owner_child ht howner
      by_cases ho : o = id
      · subst ho
        rw [hs] at hs₀
        cases hs₀
        exact hchildren k hmem ht
      · rw [scope?_modifyScope_of_ne _ ho, hs₀] at hs'
        cases hs'
        exact himp hsettled
  · intro k t ht hsettled
    by_cases hk : k = id
    · subst hk
      rw [hself] at ht
      cases ht
      exact hm
    · exact h.merged ((scope?_modifyScope_of_ne _ hk).symm.trans ht) hsettled
  · intro k t ht
    by_cases hk : k = id
    · subst hk
      rw [hself] at ht
      cases ht
      have hstate : s.state = .unprocessed := not_not.mp hid
      have := h.inserted_iff hs
      rw [hstate] at this
      simpa using this
    · exact h.inserted_iff ((scope?_modifyScope_of_ne _ hk).symm.trans ht)

/-- What processing the scopes in `Among` has done when it ends with `r`. -/
structure Processes (Among : ScopeId → Prop) (e : Engine) (r : Except Error Unit)
    (e' : Engine) : Prop where
  linked : Linked e'
  progressed : Rescoped (fun k => Scope.Progressed (Among k)) e e'
  settled : r = .ok () → ∀ {k s}, Among k → e'.scope? k = some s → s.Settled

/-- The steps for the rules of a scope with the given keys. -/
def processRules (id : ScopeId) (keys : List Nat) : EngineM Unit := do
  forEach (assignName id) keys
  forEach (mergeAt id) keys
  modify (·.modifyScope id fun s => { s with byKind := s.buckets })

/-- Processing a scope is processing its rules and then the scopes that are nested in it. -/
theorem processWithin_succ (limit : Nat) (id : ScopeId) :
    processWithin (limit + 1) id = (do
      let s ← requireScope id
      processRules id s.order
      forEach (processWithin limit) s.children
      modify (·.modifyScope id fun s => { s with state := .processed })
      modify (·.report (.scopeProcessed s.name s.order.length s.owner.isSome))) := by
  rw [processWithin]
  unfold processRules
  simp only [bind_assoc]

/-- **Processing moves an engine along a relation, if all its steps do.** -/
theorem processWithin_steps {R : Engine → Engine → Prop} [IsPreorder Engine R]
    (hname : ∀ id key e, R e (assignName id key e).2)
    (hmerge : ∀ id key e, R e (mergeAt id key e).2)
    (hsort : ∀ (id : ScopeId) e, R e (e.modifyScope id fun s => { s with byKind := s.buckets }))
    (hsettle : ∀ (id : ScopeId) e, R e (e.modifyScope id fun s => { s with state := .processed }))
    (hreport : ∀ event e, R e (e.report event)) (limit : Nat) (id : ScopeId) (e : Engine) :
    R e (processWithin limit id e).2 := by
  induction limit generalizing id e with
  | zero => exact refl_of R e
  | succ limit ih =>
    rw [processWithin_succ]
    -- The rules come first, then what is nested, and then the scope counts as processed.
    cases hs : e.scope? id with
    | none =>
      rw [stateful_bind_error (requireScope_none hs)]
      exact refl_of R e
    | some s =>
      rw [stateful_bind_ok (requireScope_some hs)]
      have hrules : Steps R (processRules id s.order) e := by
        unfold processRules
        refine .bind (forEach_steps s.order fun key _ e' _ => hname id key e') fun _ e₁ _ => ?_
        exact .bind (forEach_steps s.order fun key _ e' _ => hmerge id key e') fun _ e₂ _ =>
          .modify (hsort id e₂)
      refine Steps.bind hrules fun _ e₁ _ => ?_
      refine .bind (forEach_steps s.children fun c _ e' _ => ih c e') fun _ e₂ _ => ?_
      exact .bind (.modify (hsettle id e₂)) fun _ e₃ _ => .modify (hreport _ e₃)

/-- The steps for all rules of a scope that is not processed merge it. -/
theorem processRules_spec {s : Scope} (h : Linked e) (hs : e.scope? id = some s)
    (hid : ¬ s.Settled) :
    Rescoped (fun _ => Scope.Progressed False) e (processRules id s.order e).2 ∧
      ((processRules id s.order e).1 = .ok () →
        ∃ s', (processRules id s.order e).2.scope? id = some s' ∧ s'.Merged) := by
  have hun : e.Unsettled id := fun hs' => by
    rw [hs] at hs'
    cases hs'
    exact hid
  have hnames := forEach_progressed (assignName id)
    (fun key e h hid => assignName_progressed h hid key) s.order h hun
  unfold processRules
  rcases hA : forEach (assignName id) s.order e with ⟨err | ⟨⟩, eA⟩ <;> rw [hA] at hnames
  · rw [stateful_bind_error hA]
    exact ⟨hnames, fun hok => by cases hok⟩
  rw [stateful_bind_ok hA]
  have hlA : Linked eA := h.relinked (hnames.mono fun _ _ _ _ hp => hp.relinked not_false)
  obtain ⟨sA, hsA, hpA⟩ := hnames.scope hs
  rw [← hpA.order]
  have hmerge : Rescoped (fun _ => Scope.Progressed False) eA
    (forEach (mergeAt id) sA.order eA).2 :=
    (forEach_mergeAt_remerged (fun key => (id, key)) sA.order eA).mono fun _ _ _ ht hR =>
      hR.progressed (hlA.merged ht)
  have hok := forEach_mergeAt_ok (fun key => (id, key)) sA.order eA
  obtain ⟨sB, hsB, hmerged⟩ := forEach_mergeAt_merged hsA (hlA.listed hsA)
  rcases hB : forEach (mergeAt id) sA.order eA with ⟨r, eB⟩
  rw [hB] at hmerge hok hsB
  cases hok
  rw [stateful_bind_ok hB]
  have hprogressed := hnames.trans hmerge
  refine ⟨hprogressed.trans (.modifyScope fun t ht => ?_), fun _ =>
    ⟨_, scope?_modifyScope_self _ hsB, hmerged⟩⟩
  -- The buckets of the scope may be filled because it is not processed.
  obtain ⟨s', hs', hp⟩ := hprogressed.back ht
  cases hs.symm.trans hs'
  refine ⟨rfl, rfl, rfl, rfl, fun hc => ?_, .inl rfl, rfl, rfl, fun hr => ⟨_, hr, .inl rfl⟩⟩
  exact absurd ((hp.relinked not_false).settled.mp hc) hid

/-- Processing keeps what is inside of what. -/
theorem Processes.inside_iff {Among : ScopeId → Prop} {r : Except Error Unit}
    (h : Processes Among e r e') {root : ScopeId} : e'.Inside root k ↔ e.Inside root k :=
  h.progressed.inside_iff fun _ _ _ hp => hp.owner

/-- Scopes that are not among the processed ones are left as unprocessed as they were. -/
theorem Processes.unsettled {Among : ScopeId → Prop} {r : Except Error Unit}
    (h : Processes Among e r e') (hk : ¬ Among k) (hun : e.Unsettled k) : e'.Unsettled k := by
  intro s' hs' hsettled
  obtain ⟨s, hs, hp⟩ := h.progressed.back hs'
  exact hun hs ((hp.relinked hk).settled.mp hsettled)

/-- Scopes processed one after the other that have none in common. -/
theorem forEach_processes {limit : Nat}
    (ih : ∀ id e, Linked e → (∀ k, e.Inside id k → e.Unsettled k) →
      Processes (e.Inside id) e (processWithin limit id e).1 (processWithin limit id e).2)
    (list : List ScopeId) (hnodup : list.Nodup) (h : Linked e)
    (hdisjoint : ∀ c ∈ list, ∀ c' ∈ list, c ≠ c' → ∀ k, e.Inside c k → ¬ e.Inside c' k)
    (hun : ∀ c ∈ list, ∀ k, e.Inside c k → e.Unsettled k) :
    Processes (fun k => ∃ c ∈ list, e.Inside c k) e
      (forEach (processWithin limit) list e).1 (forEach (processWithin limit) list e).2 := by
  induction list generalizing e with
  | nil => exact ⟨h, .refl e, fun _ _ _ hk => by simp at hk⟩
  | cons c rest ihl =>
    rw [List.nodup_cons] at hnodup
    have hc := ih c e h (hun c (by simp))
    rw [forEach_cons]
    rcases hrun : processWithin limit c e with ⟨err | ⟨⟩, e₁⟩
    · rw [hrun] at hc
      rw [stateful_bind_error hrun]
      refine ⟨hc.linked, hc.progressed.mono fun k _ _ _ hp => hp.mono fun hk => ⟨c, by simp, hk⟩,
        fun hok => by cases hok⟩
    · rw [hrun] at hc
      rw [stateful_bind_ok hrun]
      have hinside : ∀ {root k : ScopeId}, e₁.Inside root k ↔ e.Inside root k := hc.inside_iff
      -- The others have nothing in common with the first one, so they are as they were.
      have hrest := ihl hnodup.2 hc.linked
        (fun a ha b hb hab k hin => by
          rw [hinside] at hin ⊢
          exact hdisjoint a (List.mem_cons_of_mem c ha) b (List.mem_cons_of_mem c hb) hab k hin)
        (fun a ha k hin => by
          rw [hinside] at hin
          have hca : a ≠ c := fun heq => hnodup.1 (heq ▸ ha)
          have hkc := hdisjoint a (List.mem_cons_of_mem c ha) c (by simp) hca k hin
          intro s' hs'
          exact hc.unsettled hkc (hun a (List.mem_cons_of_mem c ha) k hin) hs')
      simp only [hinside] at hrest
      refine ⟨hrest.linked, ?_, fun hok k s' hk hs' => ?_⟩
      · refine (hc.progressed.mono fun k _ _ _ hp => hp.mono fun hk => ⟨c, by simp, hk⟩).trans
          (hrest.progressed.mono fun k _ _ _ hp => hp.mono ?_)
        exact fun ⟨a, ha, hin⟩ => ⟨a, List.mem_cons_of_mem c ha, hin⟩
      · obtain ⟨a, ha, hin⟩ := hk
        rcases List.mem_cons.mp ha with rfl | ha
        · -- Processed before the rest, and left alone by it.
          obtain ⟨s, hs, hp⟩ := hrest.progressed.back hs'
          have hsettled := hc.settled rfl hin hs
          rwa [hp.settled hsettled]
        · exact hrest.settled hok ⟨a, ha, hin⟩ hs'

/-- What comes before processing, and processes nothing, may be counted in. -/
theorem Processes.of_progressed {e₁ : Engine} {r : Except Error Unit}
    (hrules : Rescoped (fun _ => Scope.Progressed False) e e₁)
    (h : Processes (e₁.Inside id) e₁ r e') : Processes (e.Inside id) e r e' := by
  have hinside : ∀ {k : ScopeId}, e₁.Inside id k ↔ e.Inside id k :=
    hrules.inside_iff fun _ _ _ hp => hp.owner
  refine ⟨h.linked, ?_, fun hok _ _ hk hs' => h.settled hok (hinside.mpr hk) hs'⟩
  refine Rescoped.trans (hrules.mono fun _ _ _ _ hp => hp.mono False.elim) ?_
  exact h.progressed.mono fun _ _ _ _ hp => hp.mono hinside.mp

section Nested

variable {s : Scope} {r : Except Error Unit}

/-- What is processed in the scopes nested in a scope is inside of it. -/
theorem Processes.progressed_inside (h : Processes (fun k => ∃ c ∈ s.children, e.Inside c k) e r e')
    (hl : Linked e) (hs : e.scope? id = some s) :
    Rescoped (fun k => Scope.Progressed (e.Inside id k)) e e' := by
  refine h.progressed.mono fun k _ _ _ hp => hp.mono fun ⟨c, hc, hin⟩ => ?_
  obtain ⟨t, ht, howner⟩ := hl.child_owner hs hc
  exact .trans (.nested ht howner (.root hs)) hin

/-- A scope whose rules are merged counts as processed when the scopes nested in it are. -/
theorem Processes.settle (h : Processes (fun k => ∃ c ∈ s.children, e.Inside c k) e (.ok ()) e')
    (hl : Linked e) (hs : e.scope? id = some s) (hid : ¬ s.Settled) (hm : s.Merged)
    (event : Event) :
    Processes (e.Inside id) e (.ok ())
      ((e'.modifyScope id fun s => { s with state := .processed }).report event) := by
  obtain ⟨s', hs', hp⟩ := h.progressed.scope hs
  have hnot : ¬ ∃ c ∈ s.children, e.Inside c id := fun ⟨c, hc, hin⟩ =>
    -- The scope is not inside of one that is nested in it, so those leave it unprocessed.
    hl.not_inside_child hs hc hin
  have hid' : ¬ s'.Settled := by rwa [(hp.relinked hnot).settled]
  have hsettle := h.linked.settle hs' hid' (hp.merged hm) fun c hc {t} ht => by
    rw [hp.children] at hc
    obtain ⟨t₁, ht₁, -⟩ := h.progressed.back ht
    exact h.settled rfl ⟨c, hc, .root ht₁⟩ ht
  refine ⟨hsettle.relinked (.report _), ((h.progressed_inside hl hs).trans
    (.modifyScope fun t ht => ?_)).trans (.report _), fun _ {k t} hin ht => ?_⟩
  -- Of the scope itself only the state is new, and all its rules are merged by now.
  · rw [hs'] at ht
    cases ht
    exact ⟨rfl, rfl, rfl, rfl, fun hc => absurd hc hid', .inr ⟨.root hs, rfl⟩, rfl, rfl,
      fun hr => ⟨_, hr, .inl rfl⟩⟩
  · rw [scope?_report, scope?_modifyScope] at ht
    by_cases hk : k = id
    -- It is processed now, and what else is inside of it lies inside of a nested scope.
    · rw [if_pos hk, hs', Option.map_some] at ht
      cases ht
      simp [Scope.Settled]
    · rw [if_neg hk] at ht
      obtain ⟨c, hc, hin'⟩ := hl.inside_child hs hin hk
      exact h.settled rfl ⟨c, hc, hin'⟩ ht

end Nested

/-- **Processing a scope** changes the state only of scopes inside of it; if it succeeds, all of
    these are processed. -/
theorem processWithin_spec (limit : Nat) (id : ScopeId) (e : Engine) (h : Linked e)
    (hun : ∀ k, e.Inside id k → e.Unsettled k) :
    Processes (e.Inside id) e (processWithin limit id e).1 (processWithin limit id e).2 := by
  induction limit generalizing id e with
  | zero => exact ⟨h, .refl e, fun hok => by cases hok⟩
  | succ limit ih =>
    rw [processWithin_succ]
    cases hs : e.scope? id with
    | none =>
      rw [stateful_bind_error (requireScope_none hs)]
      exact ⟨h, .refl e, fun hok => by cases hok⟩
    | some s =>
      rw [stateful_bind_ok (requireScope_some hs)]
      have hid : ¬ s.Settled := hun id (.root hs) hs
      obtain ⟨hrules, hmerged⟩ := processRules_spec h hs hid
      have hlinked : Linked (processRules id s.order e).2 :=
        h.relinked (hrules.mono fun _ _ _ _ hp => hp.relinked not_false)
      rcases h₁ : processRules id s.order e with ⟨err | ⟨⟩, e₁⟩ <;>
        rw [h₁] at hrules hlinked hmerged
      · rw [stateful_bind_error h₁]
        exact ⟨hlinked, hrules.mono fun _ _ _ _ hp => hp.mono False.elim, fun hok => by cases hok⟩
      rw [stateful_bind_ok h₁]
      -- From here on the rules are merged, and what is nested is as it was.
      refine .of_progressed hrules ?_
      obtain ⟨s₁, hs₁, hm₁⟩ := hmerged rfl
      obtain ⟨s₁', hs₁', hp₁⟩ := hrules.scope hs
      cases hs₁.symm.trans hs₁'
      have hun₁ : ∀ k, e₁.Inside id k → e₁.Unsettled k := fun k hin s' hs' hsettled => by
        obtain ⟨s, hs, hp⟩ := hrules.back hs'
        have hin' := (hrules.inside_iff fun _ _ _ hp => hp.owner).mp hin
        exact hun k hin' hs ((hp.relinked not_false).settled.mp hsettled)
      have hchildren := forEach_processes ih s₁.children (hlinked.children_nodup hs₁) hlinked
        (fun c hc c' hc' hne k hin => hlinked.children_disjoint hs₁ hc hc' hne hin)
        (fun c hc k hin => by
          obtain ⟨t, ht, howner⟩ := hlinked.child_owner hs₁ hc
          exact hun₁ k (.trans (.nested ht howner (.root hs₁)) hin))
      rw [← hp₁.children]
      rcases h₂ : forEach (processWithin limit) s₁.children e₁ with ⟨err | ⟨⟩, e₂⟩ <;>
        rw [h₂] at hchildren
      · rw [stateful_bind_error h₂]
        exact ⟨hchildren.linked, hchildren.progressed_inside hlinked hs₁, fun hok => by cases hok⟩
      · rw [stateful_bind_ok h₂]
        have hid₁ : ¬ s₁.Settled := hun₁ id (.root hs₁) hs₁
        exact hchildren.settle hlinked hs₁ hid₁ hm₁ _

end Engine

end StyleBook
