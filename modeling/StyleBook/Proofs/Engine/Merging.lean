import StyleBook.Proofs.Engine.Links

namespace StyleBook

/-!
# What merging changes

Merging a rule keeps merged stylesets with rules and changes nothing else.

* `Engine.mergeWithin_fresh`, … — one equation for each way in which a rule is merged;
* `Engine.mergeWithin_steps` — merging moves an engine along any relation that its steps go along;
* `Engine.mergeWithin_remerged` — merging fills in what rules inherit and overwrites nothing;
* `Engine.mergeAt_merged` — after its step, a rule with a styleset is merged.
-/

/-! ### Rules and scopes -/

/-- The rule is the same, or what it inherits was filled in. -/
def Rule.Remerged (r r' : Rule) : Prop :=
  r' = r ∨ r.merged = none ∧ r.content.body?.isSome ∧ ∃ m, r' = { r with merged := some m }

namespace Rule.Remerged

variable {r r' r'' : Rule}

theorem content (h : Remerged r r') : r'.content = r.content := by
  rcases h with rfl | ⟨-, -, m, rfl⟩ <;> rfl

/-- A rule with a merged styleset is left as it is. -/
theorem of_merged (h : Remerged r r') (hm : r.merged.isSome) : r' = r := by
  rcases h with rfl | ⟨hnone, -, -⟩
  · rfl
  · rw [hnone] at hm
    cases hm

theorem trans (h : Remerged r r') (h' : Remerged r' r'') : Remerged r r'' := by
  rcases h with rfl | ⟨hnone, hbody, m, rfl⟩
  · exact h'
  · rw [h'.of_merged rfl]
    exact .inr ⟨hnone, hbody, m, rfl⟩

/-- Filling in what a rule inherits, in whatever way other steps have filled it in before. -/
theorem fill (h : Remerged r r') (hnone : r.merged = none) (hbody : r.content.body?.isSome)
    (m : Styleset) : Remerged r { r' with merged := some m } := by
  rcases h with rfl | ⟨-, -, m', rfl⟩
  · exact .inr ⟨hnone, hbody, m, rfl⟩
  · exact .inr ⟨hnone, hbody, m, rfl⟩

end Rule.Remerged

/-- Nothing of the scope is changed but what its rules inherit. -/
structure Scope.Remerged (s s' : Scope) : Prop where
  eq_rules : s' = { s with rules := s'.rules }
  length_eq : s'.rules.length = s.rules.length
  rule {key : Nat} {r : Rule} : s.rules[key]? = some r → ∃ r',
    s'.rules[key]? = some r' ∧ r.Remerged r'

namespace Scope.Remerged

variable {s s' : Scope}

instance : IsPreorder Scope Remerged where
  refl _ := ⟨rfl, rfl, fun h => ⟨_, h, .inl rfl⟩⟩
  trans s s' s'' h h' :=
    { eq_rules := by rw [h'.eq_rules, h.eq_rules]
      length_eq := h'.length_eq.trans h.length_eq
      rule := fun hr => by
        obtain ⟨r', hr', hR⟩ := h.rule hr
        obtain ⟨r'', hr'', hR'⟩ := h'.rule hr'
        exact ⟨r'', hr'', hR.trans hR'⟩ }

/-- A rule of the changed scope was a rule before. -/
theorem back (h : Remerged s s') {key : Nat} {r' : Rule} (hr' : s'.rules[key]? = some r') :
    ∃ r, s.rules[key]? = some r ∧ r.Remerged r' := by
  have hlt : key < s.rules.length := by
    rw [← h.length_eq]
    exact (List.getElem?_eq_some_iff.mp hr').1
  obtain ⟨r'', hr'', hR⟩ := h.rule (List.getElem?_eq_getElem hlt)
  rw [hr'] at hr''
  cases hr''
  exact ⟨_, List.getElem?_eq_getElem hlt, hR⟩

/-- A merged scope is not changed. -/
theorem eq_of_merged (h : Remerged s s') (hm : s.Merged) : s' = s := by
  have hrules : s'.rules = s.rules := by
    apply List.ext_getElem?
    intro key
    cases hr : s.rules[key]? with
    | none =>
      rw [List.getElem?_eq_none_iff] at hr ⊢
      rw [h.length_eq]
      exact hr
    | some r =>
      obtain ⟨r', hr', hR⟩ := h.rule hr
      rw [hr']
      rcases hR with rfl | ⟨hnone, hbody, -⟩
      · rfl
      · have := hm r (List.mem_of_getElem? hr) hbody
        rw [hnone] at this
        cases this
  rw [h.eq_rules, hrules]

theorem order (h : Remerged s s') : s'.order = s.order := by rw [h.eq_rules]

/-- Merging retouches a scope, if it merged all its rules when it was processed. -/
theorem retouched (h : Remerged s s') (hm : s.Settled → s.Merged) : Retouched s s' := by
  have heq := h.eq_rules
  exact
    { owner := by rw [heq]
      children := by rw [heq]
      references := by rw [heq]
      state := by rw [heq]
      users := by rw [heq]
      listed := fun hl => hl.congr h.order h.length_eq
      settled := fun hs => h.eq_of_merged (hm hs) }

end Scope.Remerged

namespace Engine

variable {e e' : Engine} {id : ScopeId} {key : Nat} {idle : List (ScopeId × Nat)} {rule : Rule}

/-! ### Looking rules up -/

/-- A rule is looked up in its scope, by its key. -/
theorem rule?_eq_some_iff :
    e.rule? id key = some rule ↔ ∃ s, e.scope? id = some s ∧ s.rules[key]? = some rule :=
  Option.bind_eq_some_iff

theorem mem_allRules (h : e.rule? id key = some rule) : (id, key) ∈ e.allRules := by
  obtain ⟨s, hs, hr⟩ := rule?_eq_some_iff.mp h
  refine List.mem_flatMap.mpr ⟨(id, s), Dict.mem_of_get? hs, List.mem_map.mpr ⟨key, ?_, rfl⟩⟩
  exact List.mem_range.mpr (List.getElem?_eq_some_iff.mp hr).1

/-- Remerging keeps each rule but for what it inherits. -/
theorem Rescoped.rule?_some (h : Rescoped (fun _ => Scope.Remerged) e e')
    (hr : e.rule? id key = some rule) : ∃ r', e'.rule? id key = some r' ∧ rule.Remerged r' := by
  obtain ⟨s, hs, hr⟩ := rule?_eq_some_iff.mp hr
  obtain ⟨s', hs', hR⟩ := h.scope hs
  obtain ⟨r', hr', hR'⟩ := hR.rule hr
  exact ⟨r', rule?_eq_some_iff.mpr ⟨s', hs', hr'⟩, hR'⟩

/-- Keeping a merged styleset with a rule that had none before. -/
theorem Rescoped.setMerged (h : Rescoped (fun _ => Scope.Remerged) e e')
    (hr : e.rule? id key = some rule) (hnone : rule.merged = none)
    (hbody : rule.content.body?.isSome) (m : Styleset) :
    Rescoped (fun _ => Scope.Remerged) e (e'.setMerged id key m) := by
  obtain ⟨s, hs, hrs⟩ := rule?_eq_some_iff.mp hr
  obtain ⟨r', hr', hR⟩ := h.rule?_some hr
  unfold Engine.setMerged
  simp only [hr']
  have hkeys : (e'.modifyScope id (·.setRule key { r' with merged := some m })).scopes.keys =
      e.scopes.keys := (keys_modifyScope _).trans h.keys
  refine ⟨hkeys, fun {k t} ht => ?_, (singletons_modifyScope _).trans h.singletons,
    (nextScope_modifyScope _).trans h.nextScope⟩
  obtain ⟨t', ht', hRt⟩ := h.scope ht
  by_cases hk : k = id
  · subst hk
    rw [hs] at ht
    cases ht
    refine ⟨_, scope?_modifyScope_self _ ht', ?_, ?_, fun {key' r} hrk => ?_⟩
    · rw [hRt.eq_rules]
      rfl
    · exact (List.length_set).trans hRt.length_eq
    -- In the scope itself the rule at the key is another one, and all others are the same.
    · show ∃ r'', (t'.rules.set key _)[key']? = some r'' ∧ _
      rw [List.getElem?_set]
      by_cases hkey : key = key'
      · subst hkey
        rw [hrs] at hrk
        cases hrk
        have hlt : key < t'.rules.length := by
          rw [hRt.length_eq]
          exact (List.getElem?_eq_some_iff.mp hrs).1
        exact ⟨_, by rw [if_pos rfl, if_pos hlt], hR.fill hnone hbody m⟩
      · rw [if_neg hkey]
        exact hRt.rule hrk
  · exact ⟨t', (scope?_modifyScope_of_ne _ hk).trans ht', hRt⟩

/-- What rules are when a merged styleset was kept with one of them. -/
theorem rule?_setMerged (hr : e.rule? id key = some rule) (m : Styleset) (id' : ScopeId)
    (key' : Nat) : (e.setMerged id key m).rule? id' key' =
      if id' = id ∧ key' = key then some { rule with merged := some m } else e.rule? id' key' := by
  obtain ⟨s, hs, hrs⟩ := rule?_eq_some_iff.mp hr
  have hset : e.setMerged id key m =
      e.modifyScope id (·.setRule key { rule with merged := some m }) := by
    unfold Engine.setMerged
    rw [hr]
  by_cases hid : id' = id
  · subst hid
    unfold Engine.rule?
    rw [hset, scope?_modifyScope_self _ hs, hs, Option.bind_some, Option.bind_some]
    -- Keys are positions in the list of rules, so only this one gets the new rule.
    show (s.rules.set key _)[key']? = if id' = id' ∧ key' = key then _ else s.rules[key']?
    by_cases hkey : key' = key
    · subst hkey
      rw [if_pos ⟨rfl, rfl⟩, List.getElem?_set_self (List.getElem?_eq_some_iff.mp hrs).1]
    · rw [if_neg fun h => hkey h.2, List.getElem?_set_ne (Ne.symm hkey)]
  · rw [if_neg fun h => hid h.1]
    unfold Engine.rule?
    rw [hset, scope?_modifyScope_of_ne _ hid]

/-- What the rule is afterwards that a merged styleset is kept with. -/
theorem rule?_setMerged_self (hr : e.rule? id key = some rule) (m : Styleset) :
    (e.setMerged id key m).rule? id key = some { rule with merged := some m } := by
  rw [rule?_setMerged hr, if_pos ⟨rfl, rfl⟩]

/-! ### One rule -/

/-- What parents hand down, one over the other, when only the rules in `idle` are not being
    merged. -/
def mergeParents (idle : List (ScopeId × Nat)) (parents : List RuleRef) (start : Styleset) :
    StateM Engine Styleset :=
  parents.foldlM (fun merged parent => do
    return merged.merge (← mergeWithin idle parent.scope parent.key)) start

/-- A first parent is merged before the others. -/
theorem mergeParents_cons (parent : RuleRef) (parents : List RuleRef) (start : Styleset) :
    mergeParents idle (parent :: parents) start e =
      mergeParents idle parents (start.merge (mergeWithin idle parent.scope parent.key e).1)
        (mergeWithin idle parent.scope parent.key e).2 := rfl

/-- A rule that is not there is merged to nothing, which is reported. -/
theorem mergeWithin_missing (h : e.rule? id key = none) :
    mergeWithin idle id key e = (.empty, e.report .danglingParent) := by
  rw [mergeWithin]
  simp only [bind, StateT.bind, get, getThe, MonadStateOf.get, StateT.get, pure, h]
  rfl

/-- What was merged before is taken. -/
theorem mergeWithin_known (h : e.rule? id key = some rule) {m : Styleset}
    (hm : rule.merged = some m) : mergeWithin idle id key e = (m, e) := by
  rw [mergeWithin]
  simp only [bind, StateT.bind, get, getThe, MonadStateOf.get, StateT.get, pure, h, hm]
  rfl

/-- A rule without a body is merged to nothing. -/
theorem mergeWithin_bodiless (h : e.rule? id key = some rule) (hm : rule.merged = none)
    (hbody : rule.content.body? = none) : mergeWithin idle id key e = (.empty, e) := by
  rw [mergeWithin]
  simp only [bind, StateT.bind, get, getThe, MonadStateOf.get, StateT.get, pure, h, hm, hbody]
  rfl

/-- **A rule that is being merged gives its own styleset** to those that come back to it, which is
    reported. -/
theorem mergeWithin_cyclic (h : e.rule? id key = some rule) (hm : rule.merged = none)
    {body : StyleBody} (hbody : rule.content.body? = some body) (hidle : (id, key) ∉ idle) :
    mergeWithin idle id key e =
      (body.styleset, e.report (.cyclicParent (rule.slot.getD ""))) := by
  rw [mergeWithin]
  simp only [bind, StateT.bind, get, getThe, MonadStateOf.get, StateT.get, pure, h, hm, hbody,
    dif_neg hidle]
  rfl

/-- **A rule is merged** from its parents, while it counts as being merged, and its own styleset. -/
theorem mergeWithin_fresh (h : e.rule? id key = some rule) (hm : rule.merged = none)
    {body : StyleBody} (hbody : rule.content.body? = some body) (hidle : (id, key) ∈ idle) :
    mergeWithin idle id key e =
      let inherited := mergeParents (idle.erase (id, key)) body.parents .empty e
      (inherited.1.merge body.styleset,
        inherited.2.setMerged id key (inherited.1.merge body.styleset)) := by
  rw [mergeWithin]
  simp only [bind, StateT.bind, get, getThe, MonadStateOf.get, StateT.get, pure, h, hm, hbody,
    dif_pos hidle]
  rfl

/-- Merging parents moves an engine along a relation, if merging each of them does. -/
theorem mergeParents_steps {R : Engine → Engine → Prop} [IsPreorder Engine R]
    (hmerge : ∀ id key e, R e (mergeWithin idle id key e).2) (parents : List RuleRef)
    (start : Styleset) (e : Engine) : R e (mergeParents idle parents start e).2 := by
  induction parents generalizing start e with
  | nil => exact refl_of R e
  | cons parent rest ih =>
    rw [mergeParents_cons]
    exact trans_of R (hmerge _ _ e) (ih _ _)

/-- **Merging moves an engine along a relation,** if reports do, and so does keeping a merged
    styleset with a rule that had none before. -/
theorem mergeWithin_steps {R : Engine → Engine → Prop} [IsPreorder Engine R]
    (hreport : ∀ event e, R e (e.report event))
    (hset : ∀ {e e' : Engine} {id : ScopeId} {key : Nat} {rule : Rule} (m : Styleset), R e e' →
      e.rule? id key = some rule → rule.merged = none → rule.content.body?.isSome →
        R e (e'.setMerged id key m))
    (idle : List (ScopeId × Nat)) (id : ScopeId) (key : Nat) (e : Engine) :
    R e (mergeWithin idle id key e).2 := by
  -- Each step to the parents takes a rule from `idle`; the engine changes on the way.
  induction hn : idle.length using Nat.strong_induction_on generalizing idle id key e with
  | _ n ih =>
    cases h : e.rule? id key with
    | none =>
      rw [mergeWithin_missing h]
      exact hreport _ e
    | some rule =>
      cases hm : rule.merged with
      | some m =>
        rw [mergeWithin_known h hm]
        exact refl_of R e
      | none =>
        cases hbody : rule.content.body? with
        | none =>
          rw [mergeWithin_bodiless h hm hbody]
          exact refl_of R e
        | some body =>
          by_cases hidle : (id, key) ∈ idle
          · rw [mergeWithin_fresh h hm hbody hidle]
            have hlt : (idle.erase (id, key)).length < n := by
              have := List.length_pos_of_mem hidle
              rw [List.length_erase_of_mem hidle]
              omega
            have hparents : R e (mergeParents (idle.erase (id, key)) body.parents .empty e).2 :=
              mergeParents_steps (fun id key e => ih _ hlt _ id key e rfl) body.parents .empty e
            exact hset _ hparents h hm (by rw [hbody]; rfl)
          · rw [mergeWithin_cyclic h hm hbody hidle]
            exact hreport _ e

/-- The step for a rule leaves the engine as it is, or keeps with the rule what is merged for it. -/
theorem mergeAt_cases {P : Engine → Prop} (hsame : P e)
    (hkept : ∀ rule body, e.rule? id key = some rule → rule.content.body? = some body →
      P ((mergeWithin e.allRules id key e).2.setMerged id key
        (mergeWithin e.allRules id key e).1)) : P (mergeAt id key e).2 := by
  unfold mergeAt
  simp only [stateful_bind, stateful_get]
  cases hr : e.rule? id key with
  | none => exact hsame
  | some rule =>
    cases hbody : rule.content.body? with
    | none =>
      simp only [Option.bind_some, hbody]
      exact hsame
    | some body =>
      simp only [Option.bind_some, hbody]
      exact hkept rule body hr hbody

/-- **Merging fills in what rules inherit, and overwrites nothing.** -/
theorem mergeWithin_remerged (idle : List (ScopeId × Nat)) (id : ScopeId) (key : Nat)
    (e : Engine) : Rescoped (fun _ => Scope.Remerged) e (mergeWithin idle id key e).2 :=
  mergeWithin_steps (fun event _ => .report event)
    (fun m h hr hnone hbody => h.setMerged hr hnone hbody m) idle id key e

/-- So does merging parents. -/
theorem mergeParents_remerged (idle : List (ScopeId × Nat)) (parents : List RuleRef)
    (start : Styleset) (e : Engine) :
    Rescoped (fun _ => Scope.Remerged) e (mergeParents idle parents start e).2 :=
  mergeParents_steps (mergeWithin_remerged idle) parents start e

/-- A rule that is not being merged is merged afterwards, if it has a styleset. -/
theorem mergeWithin_filled (h : e.rule? id key = some rule) (hbody : rule.content.body?.isSome)
    (hidle : (id, key) ∈ idle) :
    ∃ r, (mergeWithin idle id key e).2.rule? id key = some r ∧
      r.merged = some (mergeWithin idle id key e).1 := by
  cases hm : rule.merged with
  | some m =>
    rw [mergeWithin_known h hm]
    exact ⟨rule, h, hm⟩
  | none =>
    obtain ⟨body, hbody⟩ := Option.isSome_iff_exists.mp hbody
    rw [mergeWithin_fresh h hm hbody hidle]
    -- The engine behind the parents has the rule too; there the styleset is kept.
    obtain ⟨r, hr, -⟩ := (mergeParents_remerged _ body.parents .empty e).rule?_some h
    exact ⟨_, rule?_setMerged_self hr _, rfl⟩

end Engine

end StyleBook
