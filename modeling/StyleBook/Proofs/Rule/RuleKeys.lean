import StyleBook.Proofs.Name.SlotNames
import StyleBook.Proofs.Text.StableTexts

namespace StyleBook

/-!
# Keys of rules and places of names

A scope lists the key of each rule once: with its slot, or among the rules without one, in the order
in which the rules came in. An engine hands out a place for a name once.

* `Scope.Indexed` — a scope lists the keys of its rules; `Scope.Reindexed` —
  what leaves the lists alone
* `Engine.Indexed` — so it is in all scopes, and each rule has a place of its own
* `Engine.indexed_stepwise`, `Engine.indexed_callwise` — building and calls keep it so
-/

namespace Scope

/-- **Each rule is listed once,** with a slot or without one. Both lists are in
    order of declaration. -/
structure Indexed (s : Scope) : Prop where
  slots_nodup : s.named.keys.Nodup
  named : s.named.values.Sublist s.order
  unnamed : s.unnamed.Sublist s.order
  perm : (s.named.values ++ s.unnamed).Perm s.order

/-- The scope is changed, but not the keys of its rules and their places of names. -/
structure Reindexed (s s' : Scope) : Prop where
  order : s'.order = s.order
  named : s'.named = s.named
  unnamed : s'.unnamed = s.unnamed
  cells : s'.rules.map (·.cell) = s.rules.map (·.cell)

instance : IsPreorder Scope Reindexed where
  refl _ := ⟨rfl, rfl, rfl, rfl⟩
  trans _ _ _ h h' :=
    ⟨h'.order.trans h.order, h'.named.trans h.named, h'.unnamed.trans h.unnamed,
      h'.cells.trans h.cells⟩

variable {s s' : Scope} {slot : String} {rule : Rule} {key : Nat}

namespace Reindexed

/-- A change that is not about rules. -/
theorem of_rules (hrules : s'.rules = s.rules) (horder : s'.order = s.order)
    (hnamed : s'.named = s.named) (hunnamed : s'.unnamed = s.unnamed) : Reindexed s s' :=
  ⟨horder, hnamed, hunnamed, by rw [hrules]⟩

/-- A rule was there before, with the place that it has. -/
theorem back (h : Reindexed s s') {r' : Rule} (hr' : s'.rules[key]? = some r') :
    ∃ r, s.rules[key]? = some r ∧ r'.cell = r.cell := by
  have hcell : (s.rules.map (·.cell))[key]? = some r'.cell := by
    rw [← h.cells, List.getElem?_map, hr']
    rfl
  rw [List.getElem?_map] at hcell
  obtain ⟨r, hr, heq⟩ := Option.map_eq_some_iff.mp hcell
  exact ⟨r, hr, heq.symm⟩

/-- Another rule takes over the place of a name. -/
theorem setRule (hcell : rule.cell = (s.rule? key).bind (·.cell)) :
    Reindexed s (s.setRule key rule) := by
  refine ⟨rfl, rfl, rfl, ?_⟩
  show (s.rules.set key rule).map (·.cell) = s.rules.map (·.cell)
  apply List.ext_getElem?
  intro i
  rw [List.getElem?_map, List.getElem?_map, List.getElem?_set]
  split
  · next heq =>
    subst heq
    split
    · next hlt =>
      rw [Option.map_some, hcell]
      unfold rule?
      rw [List.getElem?_eq_getElem hlt]
      rfl
    · next hge =>
      rw [List.getElem?_eq_none (Nat.not_lt.mp hge)]
  · rfl

end Reindexed

theorem Renamed.reindexed {P : Prop} (h : Renamed P s s') : Reindexed s s' := by
  refine .of_rules h.rules ?_ ?_ ?_ <;> rw [h.eq_names]

/-- What merging leaves alone in each rule, it leaves alone in the scope. -/
theorem Remerged.map_rules {α : Type} {f : Rule → α} (h : Remerged s s')
    (hf : ∀ {r r'}, r.Remerged r' → f r' = f r) : s'.rules.map f = s.rules.map f := by
  apply List.ext_getElem?
  intro i
  rw [List.getElem?_map, List.getElem?_map]
  cases hr : s.rules[i]? with
  | none =>
    rw [List.getElem?_eq_none_iff, ← h.length_eq, ← List.getElem?_eq_none_iff] at hr
    rw [hr]
  | some r =>
    obtain ⟨r', hr', hmerged⟩ := h.rule hr
    rw [hr', Option.map_some, Option.map_some, hf hmerged]

theorem Remerged.reindexed (h : Remerged s s') : Reindexed s s' where
  order := h.order
  named := by rw [h.eq_rules]
  unnamed := by rw [h.eq_rules]
  cells := h.map_rules fun hmerged => by rcases hmerged with rfl | ⟨-, -, m, rfl⟩ <;> rfl

namespace Indexed

theorem reindexed (h : s.Indexed) (hr : Reindexed s s') : s'.Indexed := by
  have horder := hr.order
  constructor
  · exact hr.named ▸ h.slots_nodup
  · rw [hr.named, horder]
    exact h.named
  · rw [hr.unnamed, horder]
    exact h.unnamed
  · rw [hr.named, hr.unnamed, horder]
    exact h.perm

/-- A scope without rules. -/
theorem of_empty (horder : s.order = []) (hnamed : s.named = []) (hunnamed : s.unnamed = []) :
    s.Indexed := by
  constructor
  · rw [hnamed]
    exact List.nodup_nil
  · rw [hnamed]
    exact List.nil_sublist _
  · rw [hunnamed]
    exact List.nil_sublist _
  · rw [hnamed, hunnamed, horder]
    exact .refl _

/-- One more rule under a slot that had none. -/
theorem withNamed (h : s.Indexed) (hnew : s.named.get? slot = none) (rule : Rule) :
    (s.withNamed slot rule).Indexed := by
  have horder : (s.withNamed slot rule).order = s.order ++ [s.rules.length] := rfl
  have hfresh : slot ∉ s.named.keys := Dict.get?_eq_none_iff.mp hnew
  have hvalues : (s.named.insert slot s.rules.length).values =
      s.named.values ++ [s.rules.length] := by
    rw [Dict.insert_of_notMem hfresh]
    exact List.map_append
  constructor
  · exact Dict.nodup_keys_insert h.slots_nodup _ _
  · rw [horder]
    show (s.named.insert slot s.rules.length).values.Sublist _
    rw [hvalues]
    exact h.named.append (.refl _)
  · rw [horder]
    exact h.unnamed.trans (List.sublist_append_left _ _)
  · rw [horder]
    show ((s.named.insert slot s.rules.length).values ++ s.unnamed).Perm _
    rw [hvalues]
    -- The new key stands between the other keys of slots and those without.
    have hswap : (s.named.values ++ [s.rules.length] ++ s.unnamed).Perm
        (s.named.values ++ s.unnamed ++ [s.rules.length]) := by
      rw [List.append_assoc, List.append_assoc]
      exact List.perm_append_comm.append_left _
    exact hswap.trans (h.perm.append_right _)

/-- One more rule without a slot. -/
theorem withUnnamed (h : s.Indexed) (rule : Rule) : (s.withUnnamed rule).Indexed := by
  have horder : (s.withUnnamed rule).order = s.order ++ [s.rules.length] := rfl
  constructor
  · exact h.slots_nodup
  · rw [horder]
    exact h.named.trans (List.sublist_append_left _ _)
  · rw [horder]
    exact h.unnamed.append (.refl _)
  · rw [horder]
    show (s.named.values ++ (s.unnamed ++ [s.rules.length])).Perm _
    rw [← List.append_assoc]
    exact h.perm.append_right _

end Indexed

end Scope

namespace Engine

variable {e e' : Engine} {id k : ScopeId} {slot : String}

/-- **Each scope lists its rules, and each rule has a place of its own** for its name. -/
structure Indexed (e : Engine) : Prop where
  scope {k : ScopeId} {s : Scope} : e.scope? k = some s → s.Indexed
  placed {k : ScopeId} {key : Nat} {r : Rule} : e.rule? k key = some r →
    ∃ cell, r.cell = some cell ∧ cell < e.nextCell
  own {k k' : ScopeId} {key key' : Nat} {r r' : Rule} : e.rule? k key = some r →
    e.rule? k' key' = some r' → r'.cell = r.cell → k' = k ∧ key' = key

namespace Indexed

/-- All rules were there before, with the places that they have. -/
theorem of_back (h : Indexed e) (hscope : ∀ {k s'}, e'.scope? k = some s' → s'.Indexed)
    (hback : ∀ {k key r'}, e'.rule? k key = some r' →
      ∃ r, e.rule? k key = some r ∧ r'.cell = r.cell) (hnext : e.nextCell ≤ e'.nextCell) :
    Indexed e' where
  scope := hscope
  placed hr' := by
    obtain ⟨r, hr, hcell⟩ := hback hr'
    obtain ⟨cell, hc, hlt⟩ := h.placed hr
    exact ⟨cell, hcell.trans hc, hlt.trans_le hnext⟩
  own hr₁ hr₂ heq := by
    obtain ⟨r, hr, hcell⟩ := hback hr₁
    obtain ⟨r', hr', hcell'⟩ := hback hr₂
    exact h.own hr hr' (hcell'.symm.trans (heq.trans hcell))

theorem rescoped (h : Indexed e) (hr : Rescoped (fun _ => Scope.Reindexed) e e')
    (hnext : e.nextCell ≤ e'.nextCell) : Indexed e' := by
  refine h.of_back (fun hs' => ?_) (fun hr' => ?_) hnext
  · obtain ⟨s, hs, hR⟩ := hr.back hs'
    exact (h.scope hs).reindexed hR
  · obtain ⟨s', hs', hkey⟩ := rule?_eq_some_iff.mp hr'
    obtain ⟨s, hs, hR⟩ := hr.back hs'
    obtain ⟨r, hr, hcell⟩ := hR.back hkey
    exact ⟨r, rule?_eq_some_iff.mpr ⟨s, hs, hr⟩, hcell⟩

/-- A scope gets one more rule, with the next place. -/
theorem append {f : Scope → Scope} {s : Scope} {rule : Rule} (h : Indexed e)
    (hs : e.scope? id = some s) (hcell : rule.cell = some e.nextCell)
    (hrules : (f s).rules = s.rules ++ [rule]) (hf : (f s).Indexed) :
    Indexed (Engine.modifyScope id f { e with nextCell := e.nextCell + 1 }) := by
  have hnext : (Engine.modifyScope id f { e with nextCell := e.nextCell + 1 }).nextCell =
      e.nextCell + 1 := by rw [Touched.modifyScope (e := { e with nextCell := e.nextCell + 1 }) f]
  have hscope : ∀ k, (Engine.modifyScope id f { e with nextCell := e.nextCell + 1 }).scope? k =
      if k = id then some (f s) else e.scope? k := by
    intro k
    rw [scope?_modifyScope]
    split
    · exact congrArg (Option.map f) hs
    · rfl
  -- A rule was there before, or it is the new one.
  have hback : ∀ {k key r'},
      (Engine.modifyScope id f { e with nextCell := e.nextCell + 1 }).rule? k key = some r' →
        e.rule? k key = some r' ∨ (k = id ∧ key = s.rules.length) ∧ r' = rule := by
    intro k key r' hr'
    obtain ⟨s', hs', hkey⟩ := rule?_eq_some_iff.mp hr'
    rw [hscope] at hs'
    split at hs'
    · next hk =>
      subst hk
      cases hs'
      rw [hrules, List.getElem?_append] at hkey
      split at hkey
      · exact .inl (rule?_eq_some_iff.mpr ⟨s, hs, hkey⟩)
      · next hge =>
        obtain ⟨hlt, hlast⟩ := List.getElem?_eq_some_iff.mp hkey
        rw [List.length_singleton] at hlt
        refine .inr ⟨⟨rfl, by omega⟩, ?_⟩
        rw [List.getElem_singleton] at hlast
        exact hlast.symm
    · exact .inl (rule?_eq_some_iff.mpr ⟨s', hs', hkey⟩)
  -- The next place is that of no rule that was there.
  have hfresh : ∀ {k key r}, e.rule? k key = some r → r.cell ≠ rule.cell := by
    intro k key r hr heq
    obtain ⟨cell, hc, hlt⟩ := h.placed hr
    have hsame : some cell = some e.nextCell := hc.symm.trans (heq.trans hcell)
    cases hsame
    exact lt_irrefl _ hlt
  refine ⟨fun {k s'} hs' => ?_, fun hr' => ?_, fun hr₁ hr₂ heq => ?_⟩
  · rw [hscope] at hs'
    split at hs'
    · cases hs'
      exact hf
    · exact h.scope hs'
  · rw [hnext]
    rcases hback hr' with hold | ⟨-, rfl⟩
    · obtain ⟨cell, hc, hlt⟩ := h.placed hold
      exact ⟨cell, hc, Nat.lt_succ_of_lt hlt⟩
    · exact ⟨e.nextCell, hcell, Nat.lt_succ_self _⟩
  · rcases hback hr₁ with hold | ⟨⟨rfl, rfl⟩, rfl⟩ <;> rcases hback
      hr₂ with hold' | ⟨⟨rfl, rfl⟩, rfl⟩
    · exact h.own hold hold' heq
    · exact absurd heq.symm (hfresh hold)
    · exact absurd heq (hfresh hold')
    · exact ⟨rfl, rfl⟩

theorem addRule (h : Indexed e) (id : ScopeId) (slot : String) (rule : Rule) :
    Indexed (addRule id slot rule e).2 := by
  cases hs : e.scope? id with
  | none =>
    unfold Engine.addRule
    rw [stateful_bind_error (requireScope_none hs)]
    exact h
  | some s =>
    cases hslot : s.named.get? slot with
    | none =>
      rw [addRule_new hs hslot]
      exact h.append hs rfl rfl ((h.scope hs).withNamed hslot _)
    | some key =>
      rw [addRule_known hs hslot]
      refine h.rescoped ((Rescoped.modifyScope fun t ht => ?_).trans (.report _)) ?_
      · cases hs.symm.trans ht
        exact .setRule rfl
      · show e.nextCell ≤ (e.modifyScope id _).nextCell
        rw [Touched.modifyScope _]

theorem addUnnamedRule (h : Indexed e) (id : ScopeId) (rule : Rule) :
    Indexed (addUnnamedRule id rule e).2 := by
  cases hs : e.scope? id with
  | none =>
    unfold Engine.addUnnamedRule
    rw [stateful_bind_error (requireScope_none hs)]
    exact h
  | some s =>
    rw [addUnnamedRule_eq hs]
    exact h.append hs rfl rfl ((h.scope hs).withUnnamed _)

/-- There may be a new scope without rules. -/
theorem born (h : Indexed e) (hback : ∀ {k s'}, e'.scope? k = some s' →
      (s'.rules = [] ∧ s'.order = [] ∧ s'.named = [] ∧ s'.unnamed = []) ∨
        ∃ s, e.scope? k = some s ∧ Scope.Reindexed s s')
    (hnext : e.nextCell ≤ e'.nextCell) : Indexed e' := by
  refine h.of_back (fun hs' => ?_) (fun hr' => ?_) hnext
  · rcases hback hs' with ⟨-, horder, hnamed, hunnamed⟩ | ⟨s, hs, hR⟩
    · exact .of_empty horder hnamed hunnamed
    · exact (h.scope hs).reindexed hR
  · obtain ⟨s', hs', hkey⟩ := rule?_eq_some_iff.mp hr'
    rcases hback hs' with ⟨hrules, -⟩ | ⟨s, hs, hR⟩
    · rw [hrules] at hkey
      cases hkey
    · obtain ⟨r, hr, hcell⟩ := hR.back hkey
      exact ⟨r, rule?_eq_some_iff.mpr ⟨s, hs, hr⟩, hcell⟩

theorem addNested (h : Indexed e) (hl : Linked e) (id : ScopeId) : Indexed (addNested id e).2 := by
  refine h.born (fun {k s'} hs' => ?_) (addNested_allots hl id).nextCell
  cases hs : e.scope? id with
  | none =>
    unfold Engine.addNested at hs'
    rw [stateful_bind_error (requireScope_none hs)] at hs'
    exact .inr ⟨s', hs', refl_of Scope.Reindexed s'⟩
  | some s =>
    rw [scope?_addNested hl hs] at hs'
    split at hs'
    · cases hs'
      exact .inl ⟨rfl, rfl, rfl, rfl⟩
    · split at hs'
      · next hk =>
        cases hs'
        exact .inr ⟨s, hk ▸ hs, .of_rules rfl rfl rfl rfl⟩
      · exact .inr ⟨s', hs', refl_of Scope.Reindexed s'⟩

theorem opened {μ : Type} (h : Indexed e) (d : Definition μ) : Indexed (opened d e) := by
  refine h.born (fun {k s'} hs' => ?_) le_rfl
  rw [scope?_opened] at hs'
  split at hs'
  · cases hs'
    exact .inl ⟨rfl, rfl, rfl, rfl⟩
  · exact .inr ⟨s', hs', refl_of Scope.Reindexed s'⟩

theorem abandon (h : Indexed e) (hl : Linked e) (id : ScopeId) (key : Nat) :
    Indexed (e.abandon id key) := by
  refine h.born (fun {k s'} hs' => .inr ⟨s', ?_, refl_of Scope.Reindexed s'⟩)
    (abandon_cells e id key).1.ge
  exact ((abandon_abandoned hl id key).back hs').2

end Indexed

/-- Processing leaves keys and places alone. -/
theorem processScope_reindexed (id : ScopeId) (e : Engine) :
    Rescoped (fun _ => Scope.Reindexed) e (processScope id e).2 :=
  processWithin_steps
    (fun id key e => (assignName_renamed id key e).mono fun _ _ _ _ hR => hR.reindexed)
    (fun id key e => (mergeAt_remerged id key e).mono fun _ _ _ _ hR => hR.reindexed)
    (fun _ _ => .modifyScope fun _ _ => .of_rules rfl rfl rfl rfl)
    (fun _ _ => .modifyScope fun _ _ => .of_rules rfl rfl rfl rfl) (fun event _ => .report event)
    e.walkLimit id e

/-- A definition has declared, and its scope is processed. -/
theorem Indexed.processScope {roots : List ScopeId} (h : Indexed e) (hs : Sound (id :: roots) e) :
    Indexed (processScope id e).2 :=
  h.rescoped (processScope_reindexed id e) (processScope_kept hs).nextCell

/-- **Scopes list their rules, and rules have places of their own, whatever is built.** -/
theorem indexed_stepwise : Stepwise (fun _ e e' => Indexed e → Indexed e')
    (fun _ _ e e' => Indexed e → Indexed e') where
  idle h := h
  refl h := h
  trans h h' := h' ∘ h
  report event h := h.rescoped (.report event) le_rfl
  addRule _ _ slot rule h := h.addRule _ slot rule
  addUnnamedRule _ _ rule h := h.addUnnamedRule _ rule
  setBase _ _ _ _ h := h.rescoped (.modifyScope fun _ _ => .of_rules rfl rfl rfl rfl)
    (by rw [Touched.modifyScope _])
  addReference {_ _ b e used} _ _ _ h := h.rescoped
    ((addReference_referenced b.scope used e).mono fun _ _ _ _ hR =>
      .of_rules hR.rules hR.order (by rw [hR.eq_references]) (by rw [hR.eq_references]))
    (by rw [show Touched e (e.addReference b.scope used) from .modifyScope _])
  process _ _ h := h
  declare h := h
  -- Group, process and failure: the places were laid out while declaring, and processing adds none.
  group hs _ h hindexed := h (hindexed.addNested hs.linked _)
  processed {_ e e₁ _ _} d _ hs₁ _ h hrun hindexed := by
    have hdeclared : Indexed e₁.endConstruction :=
      (h (hindexed.opened d)).rescoped (.of_scopes_eq rfl rfl rfl) le_rfl
    have hprocessed := hdeclared.processScope hs₁.endConstruction
    rwa [hrun] at hprocessed
  unprocessed {_ e e₁ _ _ _} d _ hs₁ _ h hrun hindexed := by
    have hdeclared : Indexed e₁.endConstruction :=
      (h (hindexed.opened d)).rescoped (.of_scopes_eq rfl rfl rfl) le_rfl
    have hprocessed := hdeclared.processScope hs₁.endConstruction
    have hproc := hs₁.endConstruction.pending.processScope hs₁.endConstruction
    rw [hrun] at hprocessed hproc
    exact hprocessed.abandon hproc.linked _ _
  failed {_ e e₁ _} d event _ hs₁ _ h hindexed := by
    have hdeclared : Indexed e₁.endConstruction :=
      (h (hindexed.opened d)).rescoped (.of_scopes_eq rfl rfl rfl) le_rfl
    exact (hdeclared.abandon hs₁.endConstruction.linked _ _).rescoped (.report event) le_rfl

/-- **So it is after calls.** -/
theorem indexed_callwise : Callwise fun e e' => Indexed e → Indexed e' where
  toStepwise := indexed_stepwise
  reused _ hs' hr ht h := h.rescoped
    (hr.mono fun _ _ _ _ hR =>
      .of_rules hR.rules (by rw [hR.eq_users]) (by rw [hR.eq_users]) (by rw [hR.eq_users]))
        (ht.kept hs').nextCell
  named {e e' id slot r} hs hs' hrun h := by
    have hrenamed := nameFor_renamed id slot e
    have hkept := nameFor_kept id slot hs
    rw [hrun] at hrenamed hkept
    exact h.rescoped (hrenamed.mono fun _ _ _ _ hR => hR.reindexed) (hkept hs').nextCell
  configured _ _ heq h := by
    subst heq
    exact h.rescoped (.of_scopes_eq rfl rfl rfl) le_rfl

end Engine

end StyleBook
