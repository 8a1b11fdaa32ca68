import StyleBook.Proofs.Name.NameCredits
import StyleBook.Proofs.Script.FailedDefinitions

namespace StyleBook

/-!
# Places of names that are final

The place of a name is handed out with a rule, and filled when the scope of the rule is processed.
So while definitions declare, only places of rules are filled whose scopes are not processed yet.

* `Engine.Open` — the place belongs to a rule of such a scope;
* `Engine.Kept` — all other places are as they were; `Engine.kept_stepwise` — so it is across
  building;
* `Engine.Allots`, `Engine.FillsCells` — what declaring in a scope and processing the scopes inside
  of one do to places of names.
-/

namespace Scope

/-- The place is that of a rule of the scope. -/
def Holds (cell : Nat) (s : Scope) : Prop := ∃ rule ∈ s.rules, rule.cell = some cell

/-- The scope is changed, but the places of its rules and its links to nested scopes are not. -/
structure Replaced (s s' : Scope) : Prop where
  owner : s'.owner = s.owner
  children : s'.children = s.children
  holds {cell : Nat} : s'.Holds cell ↔ s.Holds cell
  settled : s.Settled → s'.Settled

instance : IsPreorder Scope Replaced where
  refl _ := ⟨rfl, rfl, .rfl, id⟩
  trans _ _ _ h h' := ⟨h'.owner.trans h.owner, h'.children.trans h.children, h'.holds.trans h.holds,
    h'.settled ∘ h.settled⟩

variable {s s' : Scope}

/-- What is renamed has the same places. -/
theorem Renamed.replaced {P : Prop} (h : Renamed P s s') : Replaced s s' :=
  ⟨h.owner, h.relinked.children, by unfold Holds; rw [h.rules], h.relinked.settled.mpr⟩

/-- So has what is merged. -/
theorem Remerged.replaced (h : Remerged s s') : Replaced s s' where
  owner := by rw [h.eq_rules]
  children := by rw [h.eq_rules]
  holds := h.exists_rule fun hR => by rcases hR with rfl | ⟨-, -, m, rfl⟩ <;> exact .rfl
  settled hs := by rw [h.eq_rules]; exact hs

end Scope

namespace Engine

variable {e e' e'' : Engine} {id k : ScopeId} {roots : List ScopeId}

/-- The place is that of a rule whose scope is not processed. -/
def Open (e : Engine) (cell : Nat) : Prop :=
  ∃ k s, e.scope? k = some s ∧ ¬ s.Settled ∧ s.Holds cell

/-- **Places of names are final,** but for those that are open, or not handed out yet. -/
structure Kept (e e' : Engine) : Prop where
  nextCell : e.nextCell ≤ e'.nextCell
  opened {cell : Nat} : cell < e.nextCell → e'.Open cell → e.Open cell
  cells {cell : Nat} : cell < e.nextCell → ¬ e.Open cell → e'.cells.get? cell = e.cells.get? cell
  catalog : e'.catalog = e.catalog

/-- Discarding a scope leaves places of names alone. -/
theorem abandon_cells (e : Engine) (id : ScopeId) (key : Nat) :
    (e.abandon id key).nextCell = e.nextCell ∧ (e.abandon id key).cells = e.cells ∧
      (e.abandon id key).catalog = e.catalog := by
  rw [abandon_eq]
  exact ⟨rfl, rfl, rfl⟩

namespace Kept

/-- Nothing has happened to places. -/
theorem refl (e : Engine) : Kept e e := ⟨le_rfl, fun _ h => h, fun _ _ => rfl, rfl⟩

/-- What is final stays so through both changes. -/
theorem trans (h : Kept e e') (h' : Kept e' e'') : Kept e e'' where
  nextCell := h.nextCell.trans h'.nextCell
  opened hlt ho := h.opened hlt (h'.opened (hlt.trans_le h.nextCell) ho)
  cells hlt hn := (h'.cells (hlt.trans_le h.nextCell) fun ho => hn (h.opened hlt ho)).trans
    (h.cells hlt hn)
  catalog := h'.catalog.trans h.catalog

/-- Nothing is changed but scopes, and each of them that is not processed was there before. -/
theorem touched (h : Touched e e') (hback : ∀ {k s'}, e'.scope? k = some s' → ¬ s'.Settled →
    ∃ s, e.scope? k = some s ∧ ¬ s.Settled ∧ ∀ {cell}, s'.Holds cell → s.Holds cell) :
    Kept e e' where
  nextCell := by rw [h]
  opened := fun _ ⟨k, s', hs', hn, hc⟩ => by
    obtain ⟨s, hs, hn', hc'⟩ := hback hs' hn
    exact ⟨k, s, hs, hn', hc' hc⟩
  cells _ _ := by rw [h]
  catalog := by rw [h]

/-- A report touches no place. -/
theorem report (event : Event) (e : Engine) : Kept e (e.report event) :=
  .touched (.report event) fun hs hn => ⟨_, hs, hn, fun h => h⟩

/-- A scope is discarded. -/
theorem abandon (hl : Linked e) (id : ScopeId) (key : Nat) : Kept e (e.abandon id key) := by
  have ha := abandon_abandoned hl id key
  obtain ⟨hnext, hcells, hcatalog⟩ := abandon_cells e id key
  exact ⟨hnext.ge, fun _ ⟨k, s, hs, hn, hc⟩ => ⟨k, s, (ha.back hs).2, hn, hc⟩,
    fun _ _ => by rw [hcells], hcatalog⟩

end Kept

/-! ### Declaring -/

/-- **What declaring in a scope does to places of names:** rules of the scope may get new places.
    Other scopes are as they were, and there may be a new one without rules. -/
structure Allots (id : ScopeId) (e e' : Engine) : Prop where
  back {k s'} : e'.scope? k = some s' → s'.rules = [] ∨ ∃ s, e.scope? k = some s ∧
    (s'.Settled ↔ s.Settled) ∧ ∀ {cell}, s'.Holds cell → s.Holds cell ∨
      k = id ∧ e.nextCell ≤ cell ∧ cell < e'.nextCell
  kept {k s} : e.scope? k = some s → k ≠ id → e'.scope? k = some s
  nextScope : e.nextScope ≤ e'.nextScope
  nextCell : e.nextCell ≤ e'.nextCell
  cells : e'.cells = e.cells
  catalog : e'.catalog = e.catalog

namespace Allots

/-- Nothing is changed of scopes and places. -/
theorem aside (hscopes : e'.scopes = e.scopes) (hnext : e'.nextScope = e.nextScope)
    (hnext' : e'.nextCell = e.nextCell) (hcells : e'.cells = e.cells)
    (hcatalog : e'.catalog = e.catalog) : Allots id e e' := by
  have hscope : ∀ k, e'.scope? k = e.scope? k := fun k => by unfold scope?; rw [hscopes]
  exact ⟨fun {k s'} hs => .inr ⟨s', hscope k ▸ hs, .rfl, .inl⟩,
    fun {k s} hs _ => (hscope k).trans hs, hnext.ge, hnext'.ge, hcells, hcatalog⟩

/-- A scope is changed, and its rules may get places up to `more`. -/
theorem modified {f : Scope → Scope} {more : Nat} (hmore : e.nextCell ≤ more)
    (hf : ∀ s, e.scope? id = some s → ((f s).Settled ↔ s.Settled) ∧
      ∀ {cell}, (f s).Holds cell → s.Holds cell ∨ e.nextCell ≤ cell ∧ cell < more) :
    Allots id e (Engine.modifyScope id f { e with nextCell := more }) := by
  have htouched : Touched { e with nextCell := more }
      (Engine.modifyScope id f { e with nextCell := more }) := .modifyScope f
  refine ⟨fun {k s'} hs' => .inr ?_, fun {k s} hs hne => (scope?_modifyScope_of_ne f hne).trans hs,
    by rw [nextScope_modifyScope], by rw [htouched]; exact hmore, by rw [htouched],
    by rw [htouched]⟩
  rw [scope?_modifyScope] at hs'
  split at hs'
  · next hk =>
    subst hk
    obtain ⟨s, hs, rfl⟩ := Option.map_eq_some_iff.mp hs'
    obtain ⟨hsettled, hholds⟩ := hf s hs
    exact ⟨s, hs, hsettled, fun hc => (hholds hc).imp_right fun hnew => ⟨rfl, by
      rwa [htouched]⟩⟩
  · exact ⟨s', hs', .rfl, .inl⟩

/-- A scope is changed, but not in its rules. -/
theorem modifyScope {f : Scope → Scope}
    (hf : ∀ s, (f s).rules = s.rules ∧ (f s).state = s.state) :
    Allots id e (e.modifyScope id f) :=
  modified (e := e) le_rfl fun s _ => ⟨by unfold Scope.Settled; rw [(hf s).2], fun hc => .inl <| by
    unfold Scope.Holds at *
    rwa [← (hf s).1]⟩

/-- One more rule with the next place. -/
theorem append {f : Scope → Scope} {rule : Rule} (hcell : rule.cell = some e.nextCell)
    (hf : ∀ s, (f s).rules = s.rules ++ [rule] ∧ (f s).state = s.state) :
    Allots id e (Engine.modifyScope id f { e with nextCell := e.nextCell + 1 }) := by
  refine modified (Nat.le_succ _) fun s _ => ⟨by unfold Scope.Settled; rw [(hf s).2], ?_⟩
  rintro cell ⟨r, hr, hc⟩
  rw [(hf s).1] at hr
  rcases List.mem_append.mp hr with hold | hnew
  · exact .inl ⟨r, hold, hc⟩
  · rw [List.mem_singleton] at hnew
    subst hnew
    cases hcell.symm.trans hc
    exact .inr ⟨le_rfl, Nat.lt_succ_self _⟩

end Allots

/-- Declaring a rule under a slot. -/
theorem addRule_allots (id : ScopeId) (slot : String) (rule : Rule) (e : Engine) :
    Allots id e (addRule id slot rule e).2 := by
  unfold addRule
  cases hs : e.scope? id with
  | none =>
    rw [stateful_bind_error (requireScope_none hs)]
    exact .aside rfl rfl rfl rfl rfl
  | some s =>
    rw [stateful_bind_ok (requireScope_some hs)]
    cases hslot : s.named.get? slot with
    | some key =>
      -- The rule takes over the place of the one that was declared before.
      let rule' : Rule :=
        { rule with slot := some slot, cell := (s.rule? key).bind (·.cell), merged := none }
      have hset : Allots id e (e.modifyScope id (·.setRule key rule')) := by
        refine Allots.modified (e := e) le_rfl fun t ht => ⟨.rfl, ?_⟩
        rintro cell ⟨r, hr, hcell⟩
        cases hs.symm.trans ht
        rcases List.mem_or_eq_of_mem_set hr with hold | rfl
        · exact .inl ⟨r, hold, hcell⟩
        · obtain ⟨r, hr, hcell⟩ := Option.bind_eq_some_iff.mp hcell
          exact .inl ⟨r, List.mem_of_getElem? hr, hcell⟩
      exact ⟨hset.back, hset.kept, hset.nextScope, hset.nextCell, hset.cells, hset.catalog⟩
    | none =>
      let rule' : Rule := { rule with slot := some slot, cell := some e.nextCell, merged := none }
      have hcell : rule'.cell = some e.nextCell := rfl
      exact Allots.append hcell fun _ => ⟨rfl, rfl⟩

/-- Declaring a rule without a slot. -/
theorem addUnnamedRule_allots (id : ScopeId) (rule : Rule) (e : Engine) :
    Allots id e (addUnnamedRule id rule e).2 := by
  unfold addUnnamedRule
  cases hs : e.scope? id with
  | none =>
    rw [stateful_bind_error (requireScope_none hs)]
    exact .aside rfl rfl rfl rfl rfl
  | some s =>
    rw [stateful_bind_ok (requireScope_some hs)]
    let rule' : Rule := { rule with cell := some e.nextCell, merged := none }
    have hcell : rule'.cell = some e.nextCell := rfl
    exact Allots.append hcell fun _ => ⟨rfl, rfl⟩

/-- Nesting a scope. -/
theorem addNested_allots (hl : Linked e) (id : ScopeId) : Allots id e (addNested id e).2 := by
  cases hs : e.scope? id with
  | none =>
    unfold addNested
    rw [stateful_bind_error (requireScope_none hs)]
    exact .aside rfl rfl rfl rfl rfl
  | some s =>
    -- One more number for the scope, and nothing else beside scopes.
    obtain ⟨hnext, hnext', hcells, hcatalog⟩ : (addNested id e).2.nextScope = e.nextScope + 1 ∧
        (addNested id e).2.nextCell = e.nextCell ∧ (addNested id e).2.cells = e.cells ∧
        (addNested id e).2.catalog = e.catalog := by
      unfold addNested
      rw [stateful_bind_ok (requireScope_some hs)]
      have htouched : ∀ g : Engine, Touched g (g.modifyScope id fun s =>
          { s with children := s.children ++ [e.nextScope] }) := fun _ => .modifyScope _
      refine ⟨nextScope_modifyScope _, ?_⟩
      show (Engine.modifyScope id _ (addScope _ e).2).nextCell = _ ∧
        (Engine.modifyScope id _ (addScope _ e).2).cells = _ ∧
        (Engine.modifyScope id _ (addScope _ e).2).catalog = _
      rw [htouched]
      exact ⟨rfl, rfl, rfl⟩
    refine ⟨fun {k s'} hs' => ?_, fun {k t} ht hne => ?_,
      hnext.ge.trans' (Nat.le_succ _), hnext'.ge,
      hcells, hcatalog⟩
    -- The scope that was looked up is the new one, its owner, or any other one.
    · rw [scope?_addNested hl hs] at hs'
      split at hs'
      · cases hs'
        exact .inl rfl
      · split at hs'
        · next hk =>
          cases hs'
          exact .inr ⟨s, hk ▸ hs, .rfl, .inl⟩
        · exact .inr ⟨s', hs', .rfl, .inl⟩
    · have hnew : k ≠ e.nextScope := fun heq => absurd (hl.lt_nextScope ht) (heq ▸ lt_irrefl _)
      rw [scope?_addNested hl hs, if_neg hnew, if_neg hne, ht]

/-- Opening a scope for a definition. -/
theorem opened_allots {μ : Type} (d : Definition μ) (hs : Sound roots e) :
    Allots e.nextScope e (opened d e) := by
  have ho := opened_spec d hs
  refine ⟨fun {k s'} hs' => ?_, fun {k s} hk hne => ?_, ho.leaves.nextScope_le, le_rfl, rfl, rfl⟩
  · rcases ho.back hs' with ⟨-, hfresh⟩ | hold
    · exact .inl hfresh.rules
    · exact .inr ⟨s', hold, .rfl, .inl⟩
  · obtain ⟨s', hs', -⟩ := ho.leaves.scope hk
    rcases ho.back hs' with ⟨rfl, -⟩ | hold
    · exact absurd rfl hne
    · exact hs'.trans (hold.symm.trans hk)

/-- A scope without rules holds no place. -/
theorem not_holds {s : Scope} (h : s.rules = []) (cell : Nat) : ¬ s.Holds cell := by
  rintro ⟨rule, hrule, -⟩
  rw [h] at hrule
  cases hrule

/-- Declaring keeps all places that are final. -/
theorem Kept.allots (h : Allots id e e') : Kept e e' := by
  refine ⟨h.nextCell, fun hlt ⟨k, s', hs', hn, hc⟩ => ?_, fun _ _ => by rw [h.cells], h.catalog⟩
  rcases h.back hs' with hnone | ⟨s, hs, hsettled, hholds⟩
  · exact absurd hc (not_holds hnone _)
  · refine ⟨k, s, hs, fun h => hn (hsettled.mpr h), (hholds hc).resolve_right fun hnew => ?_⟩
    exact absurd hlt (Nat.not_lt.mpr hnew.2.1)

/-- A definition has declared, and its scope is open still. -/
theorem opened_declared {μ : Type} {e₁ : Engine} (d : Definition μ) (hs : Sound roots e)
    (h : Kept (opened d e) e₁) : Kept e e₁.endConstruction :=
  ((Kept.allots (opened_allots d hs)).trans h).trans ⟨le_rfl, fun _ h => h, fun _ _ => rfl, rfl⟩

/-! ### Processing -/

/-- What processing scopes inside of `id` does to places of names: only places of their rules are
    filled. -/
structure FillsCells (id : ScopeId) (e e' : Engine) : Prop where
  replaced : Rescoped (fun _ => Scope.Replaced) e e'
  nextCell : e'.nextCell = e.nextCell
  catalog : e'.catalog = e.catalog
  cells {cell : Nat} : (∀ k s, e.Inside id k → e.scope? k = some s → ¬ s.Holds cell) →
    e'.cells.get? cell = e.cells.get? cell

namespace FillsCells

/-- Filling places moves no scope. -/
theorem inside_iff (h : FillsCells id e e') {root : ScopeId} : e'.Inside root k ↔ e.Inside root k :=
  h.replaced.inside_iff fun _ _ _ hR => hR.owner

instance : IsPreorder Engine (FillsCells id) where
  refl e := ⟨.refl e, rfl, rfl, fun _ => rfl⟩
  trans _ _ _ h h' :=
    { replaced := h.replaced.trans h'.replaced
      nextCell := h'.nextCell.trans h.nextCell
      catalog := h'.catalog.trans h.catalog
      cells := fun hno => (h'.cells fun k s' hin hs' hc => by
        obtain ⟨s, hs, hR⟩ := h.replaced.back hs'
        exact hno k s (h.inside_iff.mp hin) hs (hR.holds.mp hc)).trans (h.cells hno) }

/-- Changes that do not touch places. -/
theorem touched (hr : Rescoped (fun _ => Scope.Replaced) e e') (h : Touched e e') :
    FillsCells id e e' :=
  ⟨hr, by rw [h], by rw [h], fun _ => by rw [h]⟩

/-- A change of a scope that keeps the places of its rules. -/
theorem modifyScope {f : Scope → Scope} {c : ScopeId} (hf : ∀ s, Scope.Replaced s (f s)) :
    FillsCells id e (e.modifyScope c f) :=
  touched (.modifyScope fun s _ => hf s) (.modifyScope f)

/-- A name is put into the place of a rule inside. -/
theorem fillCell {cell : Nat} {name slot : String} {s : Scope} (hin : e.Inside id k)
    (hs : e.scope? k = some s) (hc : s.Holds cell) :
    FillsCells id e (fillCell cell name slot e).2 := by
  unfold Engine.fillCell
  cases e.cells.get? cell with
  | some _ => exact refl_of (FillsCells id) e
  | none =>
    refine ⟨.of_scopes_eq rfl rfl rfl, rfl, rfl, fun {c} hno => ?_⟩
    have hne : c ≠ cell := fun heq => hno k s hin hs (heq ▸ hc)
    exact (Dict.get?_insert _ _ _ _).trans (if_neg hne)

end FillsCells

/-- Making a name up fills no place. -/
theorem generateName_fills (scope slot : String) (e : Engine) :
    FillsCells id e (generateName scope slot e).2 := by
  let g := e.naming.generate scope slot
  have hcells : ∀ (events : List Event) (e : Engine), (e.reportAll events).nextCell = e.nextCell ∧
      (e.reportAll events).catalog = e.catalog ∧ (e.reportAll events).cells = e.cells := by
    intro events e
    rw [Touched.reportAll (e := e) events]
    exact ⟨rfl, rfl, rfl⟩
  obtain ⟨hnext, hcatalog, hsame⟩ := hcells (g.events scope slot) { e with naming := g.naming }
  exact ⟨.generateName e scope slot, hnext, hcatalog, fun _ => congrArg (Dict.get? _) hsame⟩

/-- Finding or making a name fills no place. -/
theorem nameForWithin_fills (limit : Nat) (c : ScopeId) (slot : String) (e : Engine) :
    FillsCells id e (nameForWithin limit c slot e).2 :=
  nameForWithin_steps generateName_fills (fun _ _ _ => .modifyScope fun t =>
    (Scope.Renamed.names trivial t _).replaced) limit c e

/-- **Naming a rule fills its place at most.** -/
theorem assignName_fills {c : ScopeId} (hin : e.Inside id c) (key : Nat) :
    FillsCells id e (assignName c key e).2 := by
  refine assignName_each (R := FillsCells id) (fun rule slot _ _ _ => ?_)
    fun rule name slot e₁ hr h₁ => ?_
  · cases rule.explicitName with
    | some name =>
      exact .bind (.modify (.modifyScope fun t => (Scope.Renamed.names trivial t _).replaced))
        fun _ e₁ _ => .pure name e₁
    | none => exact nameForWithin_fills _ c slot e
  · cases hcell : rule.cell with
    | none => exact .throw _ e₁
    | some cell =>
      -- Its scope still holds the place of the rule, whatever happened to names since.
      obtain ⟨s, hs, hkey⟩ := rule?_eq_some_iff.mp hr
      obtain ⟨s₁, hs₁, hR⟩ := h₁.replaced.scope hs
      exact FillsCells.fillCell (h₁.inside_iff.mpr hin) hs₁
        (hR.holds.mpr ⟨rule, List.mem_of_getElem? hkey, hcell⟩)

/-- **Processing scopes fills places of their rules only.** -/
theorem processWithin_fills (limit : Nat) {c : ScopeId} (hin : e.Inside id c)
    (hchild : ∀ {k s c}, e.scope? k = some s → c ∈ s.children →
      ∃ t, e.scope? c = some t ∧ t.owner = some k) :
      FillsCells id e (processWithin limit c e).2 := by
  induction limit generalizing c e with
  | zero => exact refl_of (FillsCells id) e
  | succ limit ih =>
    obtain ⟨s, hs⟩ := hin.live
    rw [processWithin_succ, stateful_bind_ok (requireScope_some hs)]
    have hrules : FillsCells id e (processRules c s.order e).2 := by
      unfold processRules
      refine Steps.bind (R := FillsCells id) (forEach_steps s.order
        fun key _ e' h' => assignName_fills (h'.inside_iff.mpr hin) key) fun _ e₁ _ => ?_
      refine .bind (forEach_steps s.order fun key _ e' _ => .touched
        ((mergeAt_remerged c key e').mono fun _ _ _ _ hR => hR.replaced)
        (mergeAt_touched c key e')) fun _ e₂ _ => ?_
      exact .modifyScope fun t => ⟨rfl, rfl, .rfl, fun h => h⟩
    refine Steps.bind (R := FillsCells id) hrules fun _ e₁ h₁ => ?_
    rw [h₁] at hrules
    refine .bind (forEach_steps s.children fun c' hc' e' h' => ?_) fun _ e₂ _ => ?_
    · have hmoved : FillsCells id e e' := trans_of (FillsCells id) hrules h'
      obtain ⟨t, ht, ho⟩ := hchild hs hc'
      refine ih (hmoved.inside_iff.mpr (.nested ht ho hin)) fun hk hc => ?_
      -- Nested scopes know their owners still.
      obtain ⟨u, hu, hR⟩ := hmoved.replaced.back hk
      obtain ⟨v, hv, ho⟩ := hchild hu (hR.children ▸ hc)
      obtain ⟨v', hv', hR'⟩ := hmoved.replaced.scope hv
      exact ⟨v', hv', hR'.owner.trans ho⟩
    · refine .bind (.modifyScope fun t => ⟨rfl, rfl, .rfl, fun _ => by simp [Scope.Settled]⟩)
        fun _ e₃ _ => .touched (.report _) (.report _)

/-- So processing the scope of a definition fills places of rules inside of it only. -/
theorem processScope_fills (hs : Sound (id :: roots) e) : FillsCells id e
    (processScope id e).2 := by
  obtain ⟨s, hroot, -⟩ := hs.root_owner List.mem_cons_self
  exact processWithin_fills e.walkLimit (.root hroot) hs.linked.child_owner

/-- **These places are open.** -/
theorem processScope_kept (hs : Sound (id :: roots) e) : Kept e (processScope id e).2 := by
  have hfills := processScope_fills hs
  refine ⟨hfills.nextCell.ge, fun _ ⟨k, s', hs', hn, hc⟩ => ?_, fun _ hn => hfills.cells ?_,
    hfills.catalog⟩
  · obtain ⟨s, hk, hR⟩ := hfills.replaced.back hs'
    exact ⟨k, s, hk, fun h => hn (hR.settled h), hR.holds.mp hc⟩
  · exact fun k s hin hk hc =>
      hn ⟨k, s, hk, (hs.unsettled_iff hk).mpr ⟨id, List.mem_cons_self, hin⟩, hc⟩

/-! ### Building -/

/-- **Across building, places of names are final that are not open.** -/
theorem kept_stepwise : Stepwise (fun _ => Kept) (fun _ _ => Kept) where
  idle := .refl _
  refl := .refl _
  trans := .trans
  report event := .report event _
  -- Steps of scripts give out new places. Only processing fills places, and those are of the scope
  -- that is about to be processed, which are open.
  addRule _ _ slot rule := .allots (addRule_allots _ slot rule _)
  addUnnamedRule _ _ rule := .allots (addUnnamedRule_allots _ rule _)
  setBase _ _ _ _ := .allots (.modifyScope fun _ => ⟨rfl, rfl⟩)
  addReference _ _ _ := .allots (.modifyScope fun _ => by split <;> exact ⟨rfl, rfl⟩)
  process _ _ h := h
  declare h := h
  group hs _ h := (Kept.allots (addNested_allots hs.linked _)).trans h
  processed {roots e e₁ e' ν} d hs hs₁ _ h hrun := by
    have hprocessed := processScope_kept hs₁.endConstruction
    rw [hrun] at hprocessed
    exact (opened_declared d hs h).trans hprocessed
  unprocessed {roots e e₁ e₂ err ν} d hs hs₁ _ h hrun := by
    have hprocessed := processScope_kept hs₁.endConstruction
    have hproc := hs₁.endConstruction.pending.processScope hs₁.endConstruction
    rw [hrun] at hprocessed hproc
    exact ((opened_declared d hs h).trans hprocessed).trans (.abandon hproc.linked _ _)
  failed d event hs hs₁ _ h :=
    ((opened_declared d hs h).trans (.abandon hs₁.endConstruction.linked _ _)).trans
      (.report event _)

end Engine

end StyleBook
