import StyleBook.Proofs.Scope.Layers

namespace StyleBook

/-!
# Processing succeeds

A rule gets the place of its name when it is declared, and no other rule has that place. The place
stays empty until the scope of the rule is processed, and then each rule fills its own. Names are
found for all slots, so nothing can go wrong when a definition is processed
that has declared its rules.

* `Engine.Vacant` — places of rules are empty while their scopes are not processed;
  `Engine.vacant_stepwise` — so it is whatever is built
* `Scope.Housed` — a scope has its layout, and its rules have their places
* `Engine.assignName_succeeds` — a rule gets its name if its place is empty
* `Engine.Processable` — a scope is about to be processed, with the scopes that are nested in it
* `Engine.processScope_succeeds` — then nothing fails
-/

namespace Scope

/-- The scope has the layout that it had, and its rules have the places and
    the slots that they had. -/
structure Housed (s s' : Scope) : Prop where
  layout : SameLayout s s'
  index : Reindexed s s'

namespace Housed

variable {s s' : Scope}

instance : IsPreorder Scope Housed where
  refl s := ⟨refl_of SameLayout s, refl_of Reindexed s⟩
  trans _ _ _ h h' := ⟨trans_of SameLayout h.layout h'.layout, trans_of Reindexed h.index h'.index⟩

/-- A change of names, users, the state, or the order by kind. -/
theorem of_rules (hrules : s'.rules = s.rules) (horder : s'.order = s.order)
    (howner : s'.owner = s.owner)
    (hbase : s'.base = s.base) (hchildren : s'.children = s.children)
    (hreferences : s'.references = s.references) (hnamed : s'.named = s.named)
    (hunnamed : s'.unnamed = s.unnamed) : Housed s s' :=
  ⟨.of_rules hrules horder howner hbase hchildren hreferences,
    .of_rules hrules horder hnamed hunnamed⟩

/-- It holds the places that it held. -/
theorem holds (h : Housed s s') {cell : Nat} : s'.Holds cell ↔ s.Holds cell := by
  have hmem : ∀ t : Scope, t.Holds cell ↔ some cell ∈ t.rules.map (·.cell) := fun t =>
    List.mem_map.symm
  rw [hmem, hmem, h.index.cells]

end Housed

/-- What is renamed holds the same places. -/
theorem Renamed.housed {P : Prop} {s s' : Scope} (h : Renamed P s s') : Housed s s' :=
  ⟨h.sameLayout, h.reindexed⟩

/-- So does what is merged. -/
theorem Remerged.housed {s s' : Scope} (h : Remerged s s') : Housed s s' :=
  ⟨h.sameLayout, h.reindexed⟩

end Scope

namespace Engine

variable {e e' : Engine} {id k : ScopeId} {key : Nat} {roots : List ScopeId} {rank : ScopeId → Nat}

/-- **Places are empty before they are needed:** those of rules whose scopes are not processed, and
    those that are not handed out yet. Each rule has a place of its own. -/
structure Vacant (e : Engine) : Prop extends Indexed e where
  unfilled {cell : Nat} : e.Open cell → e.cells.get? cell = none
  ahead {cell : Nat} : e.nextCell ≤ cell → e.cells.get? cell = none

/-- A place that a scope holds is that of one of its rules. -/
theorem exists_rule_of_holds {s : Scope} {cell : Nat} (hs : e.scope? k = some s)
    (hc : s.Holds cell) :
    ∃ key rule, e.rule? k key = some rule ∧ rule.cell = some cell := by
  obtain ⟨rule, hrule, hcell⟩ := hc
  obtain ⟨key, hkey⟩ := List.mem_iff_getElem?.mp hrule
  exact ⟨key, rule, rule?_eq_some_iff.mpr ⟨s, hs, hkey⟩, hcell⟩

/-- No place is held by two scopes. -/
theorem Indexed.holds_inj (h : Indexed e) {j : ScopeId} {s t : Scope} {cell : Nat}
    (hs : e.scope? k = some s) (ht : e.scope? j = some t) (hk : s.Holds cell) (hj : t.Holds cell) :
    j = k := by
  obtain ⟨key, rule, hr, hc⟩ := exists_rule_of_holds hs hk
  obtain ⟨key', rule', hr', hc'⟩ := exists_rule_of_holds ht hj
  exact (h.own hr hr' (hc'.trans hc.symm)).1

/-- Places that are held have been handed out. -/
theorem Indexed.lt_nextCell (h : Indexed e) {s : Scope} {cell : Nat} (hs : e.scope? k = some s)
    (hc : s.Holds cell) : cell < e.nextCell := by
  obtain ⟨key, rule, hr, hcell⟩ := exists_rule_of_holds hs hc
  obtain ⟨cell', hc', hlt⟩ := h.placed hr
  cases hcell.symm.trans hc'
  exact hlt

/-! ### Building -/

namespace Vacant

/-- Declaring fills no place, and the places that it hands out are empty. -/
theorem allots (h : Vacant e) (hi : Indexed e') (ha : Allots id e e') : Vacant e' where
  toIndexed := hi
  unfilled := fun ⟨k, s', hs', hn, hc⟩ => by
    rw [ha.cells]
    rcases ha.back hs' with hnone | ⟨s, hs, hsettled, hholds⟩
    · exact absurd hc (not_holds hnone _)
    · rcases hholds hc with hold | ⟨-, hle, -⟩
      · exact h.unfilled ⟨k, s, hs, fun hsettled' => hn (hsettled.mpr hsettled'), hold⟩
      · exact h.ahead hle
  ahead hle := by
    rw [ha.cells]
    exact h.ahead (ha.nextCell.trans hle)

/-- Nothing of scopes and places is changed. -/
theorem aside (h : Vacant e) (hscopes : e'.scopes = e.scopes)
    (hsingletons : e'.singletons = e.singletons)
    (hnext : e'.nextScope = e.nextScope) (hnext' : e'.nextCell = e.nextCell)
    (hcells : e'.cells = e.cells) (hcatalog : e'.catalog = e.catalog) : Vacant e' :=
  have ha : Allots 0 e e' := .aside hscopes hnext hnext' hcells hcatalog
  h.allots (h.toIndexed.rescoped (.of_scopes_eq hscopes hsingletons hnext) hnext'.ge) ha

/-- Processing leaves places empty that are not inside of the scope that is processed, or not handed
    out. -/
theorem processed (h : Vacant e) (hs : Sound (id :: roots) e) {cell : Nat}
    (hcell : (∃ k s, ¬ e.Inside id k ∧ e.scope? k = some s ∧ ¬ s.Settled ∧ s.Holds cell) ∨
      e.nextCell ≤ cell) : (processScope id e).2.cells.get? cell = none := by
  have hfills := processScope_fills hs
  rcases hcell with ⟨k, s, hout, hk, hn, hc⟩ | hle
  · rw [hfills.cells fun j t hin hj hc' => ?_]
    · exact h.unfilled ⟨k, s, hk, hn, hc⟩
    · exact hout (h.holds_inj hk hj hc hc' ▸ hin)
  · rw [hfills.cells fun j t _ hj hc' => ?_]
    · exact h.ahead hle
    · exact absurd (h.lt_nextCell hj hc') (Nat.not_lt.mpr hle)

/-- The scope of a definition is processed. If some scopes inside of it are
    not, they are discarded. -/
theorem processScope {r : Except Error Unit} (h : Vacant e) (hs : Sound (id :: roots) e)
    (hrun : processScope id e = (r, e')) {e₂ : Engine} (hi : Indexed e₂)
    (hcells : e₂.cells = e'.cells) (hnext : e₂.nextCell = e'.nextCell)
    (hback : ∀ {k s}, e₂.scope? k = some s → ¬ s.Settled → e'.scope? k = some s ∧ ¬ e.Inside id k) :
    Vacant e₂ := by
  have hfills := processScope_fills hs
  have hproc := hs.pending.processScope hs
  have hempty : ∀ {cell}, _ → (Engine.processScope id e).2.cells.get? cell = none :=
    fun hcell => h.processed hs hcell
  rw [hrun] at hfills hproc hempty
  refine ⟨hi, fun ⟨k, s', hs', hn, hc⟩ => ?_, fun hle => ?_⟩
  · rw [hcells]
    obtain ⟨hk', hout⟩ := hback hs' hn
    obtain ⟨s, hk, hR⟩ := hfills.replaced.back hk'
    exact hempty (.inl ⟨k, s, hout, hk, fun hsettled => hn (hR.settled hsettled), hR.holds.mp hc⟩)
  · rw [hcells]
    rw [hnext, hfills.nextCell] at hle
    exact hempty (.inr hle)

/-- A scope is discarded. -/
theorem abandon (h : Vacant e) (hl : Linked e) (id : ScopeId) (key : Nat) : Vacant
    (e.abandon id key) := by
  obtain ⟨hnext, hcells, -⟩ := abandon_cells e id key
  have ha := abandon_abandoned hl id key
  refine ⟨h.toIndexed.abandon hl id key, fun ⟨k, s, hs, hn, hc⟩ => ?_, fun hle => ?_⟩
  · rw [hcells]
    exact h.unfilled ⟨k, s, (ha.back hs).2, hn, hc⟩
  · rw [hcells]
    exact h.ahead (hnext ▸ hle)

end Vacant

/-- **Places stay empty before they are needed, whatever is built.** -/
theorem vacant_stepwise : Stepwise (fun _ e e' => Vacant e → Vacant e')
    (fun _ _ e e' => Vacant e → Vacant e') where
  -- Calls of builders give out new places and fill none. Places are filled when a scope is
  -- processed, and are those of the rules inside of it, also if it is given up later.
  idle h := h
  refl h := h
  trans h h' := h' ∘ h
  report _ h := h.aside rfl rfl rfl rfl rfl rfl
  addRule _ _ slot rule h := h.allots (h.addRule _ slot rule) (addRule_allots _ slot rule _)
  addUnnamedRule _ _ rule h := h.allots (h.addUnnamedRule _ rule) (addUnnamedRule_allots _ rule _)
  setBase hs hb hdepth hready h :=
    h.allots (indexed_stepwise.setBase hs hb hdepth hready h.toIndexed)
    (.modifyScope fun _ => ⟨rfl, rfl⟩)
  addReference hs hb hready h := h.allots (indexed_stepwise.addReference hs hb hready h.toIndexed)
    (.modifyScope fun _ => by split <;> exact ⟨rfl, rfl⟩)
  process _ _ h := h
  declare h := h
  group hs _ h hv := h (hv.allots (hv.addNested hs.linked _) (addNested_allots hs.linked _))
  processed {_ e e₁ e' _} d hs hs₁ _ h hrun hv := by
    have hv₁ : Vacant e₁.endConstruction :=
      (h (hv.allots (hv.toIndexed.opened d) (opened_allots d hs))).aside rfl rfl rfl rfl rfl rfl
    have hi := hv₁.toIndexed.processScope hs₁.endConstruction
    have hproc := hs₁.endConstruction.pending.processScope hs₁.endConstruction
    rw [hrun] at hi hproc
    refine hv₁.processScope hs₁.endConstruction hrun hi rfl rfl fun hs' hn =>
      ⟨hs', fun hin => hn ?_⟩
    exact hproc.settled rfl hin hs'
  unprocessed {_ e e₁ e₂ _ _} d hs hs₁ _ h hrun hv := by
    have hv₁ : Vacant e₁.endConstruction :=
      (h (hv.allots (hv.toIndexed.opened d) (opened_allots d hs))).aside rfl rfl rfl rfl rfl rfl
    have hi := hv₁.toIndexed.processScope hs₁.endConstruction
    have hproc := hs₁.endConstruction.pending.processScope hs₁.endConstruction
    rw [hrun] at hi hproc
    have ha := abandon_abandoned hproc.linked e.nextScope d.key
    obtain ⟨hnext, hcells, -⟩ := abandon_cells e₂ e.nextScope d.key
    refine hv₁.processScope hs₁.endConstruction hrun (hi.abandon hproc.linked _ _) hcells hnext
      fun hs' _ => ?_
    obtain ⟨hout, hs₂⟩ := ha.back hs'
    exact ⟨hs₂, fun hin => hout (hproc.inside_iff.mpr hin)⟩
  failed {_ e e₁ _} d event hs hs₁ _ h hv := by
    have hv₁ : Vacant e₁.endConstruction :=
      (h (hv.allots (hv.toIndexed.opened d) (opened_allots d hs))).aside rfl rfl rfl rfl rfl rfl
    exact (hv₁.abandon hs₁.endConstruction.linked _ _).aside rfl rfl rfl rfl rfl rfl

/-- **So they do across calls.** Between calls only places are empty that are not handed out. -/
theorem vacant_callwise : Callwise fun e e' => Vacant e → Vacant e' where
  toStepwise := vacant_stepwise
  -- Between calls all scopes are processed, so that none holds a place that has to be empty.
  reused hs hs' hr ht h := by
    refine ⟨indexed_callwise.reused hs hs' hr ht h.toIndexed, fun ⟨_, _, hk, hn, _⟩ =>
      ?_, fun hle => ?_⟩
    · exact absurd (hs'.settled hk) hn
    · rw [ht] at hle ⊢
      exact h.ahead hle
  named {e e' id slot r} hs hs' hrun h := by
    have hfills : FillsCells id e (nameForWithin e.walkLimit id slot e).2 :=
      nameForWithin_fills e.walkLimit id slot e
    have hcells := nameForWithin_cells e.walkLimit id slot e
    have hwalk : nameForWithin e.walkLimit id slot e = (r, e') := hrun
    rw [hwalk] at hfills hcells
    refine ⟨indexed_callwise.named hs hs' hrun h.toIndexed, fun ⟨_, _, hk, hn, _⟩ =>
      ?_, fun hle => ?_⟩
    · exact absurd (hs'.settled hk) hn
    · rw [hcells]
      exact h.ahead (hfills.nextCell ▸ hle)
  configured _ _ heq h := by
    subst heq
    exact h.aside rfl rfl rfl rfl rfl rfl

/-! ### Names of rules -/

/-- No rule is changed, and at most the places in `C` are filled. -/
structure FillsOnly (C : Nat → Prop) (e e' : Engine) : Prop where
  scopes : Rescoped (fun _ => Scope.Renamed True) e e'
  cells {cell : Nat} : ¬ C cell → e'.cells.get? cell = e.cells.get? cell
  nextCell : e'.nextCell = e.nextCell

namespace FillsOnly

variable {C : Nat → Prop}

/-- Filling places changes no rule. -/
theorem rule?_eq (h : FillsOnly C e e') (k : ScopeId) (key : Nat) :
    e'.rule? k key = e.rule? k key := by
  unfold Engine.rule?
  cases hk : e.scope? k with
  | none =>
    have hnone : e'.scope? k = none := by
      rw [scope?_eq_none_iff, h.scopes.keys, ← scope?_eq_none_iff]
      exact hk
    rw [hnone]
  | some s =>
    obtain ⟨s', hs', hR⟩ := h.scopes.scope hk
    rw [hs', Option.bind_some, Option.bind_some]
    unfold Scope.rule?
    rw [hR.rules]

end FillsOnly

/-- The rule holds the place. -/
def HeldAt (e : Engine) (id : ScopeId) (key : Nat) (cell : Nat) : Prop :=
  ∃ rule, e.rule? id key = some rule ∧ rule.cell = some cell

/-- **Naming a rule fills its own place at most.** -/
theorem assignName_fillsOnly (id : ScopeId) (key : Nat) (e : Engine) :
    FillsOnly (e.HeldAt id key) e (assignName id key e).2 := by
  refine ⟨(assignName_renamed id key e).mono fun _ _ _ _ hR => hR.mono fun _ => trivial,
    fun {cell} hC => ?_, ?_⟩
  · cases hr : e.rule? id key with
    | none => rw [assignName_missing hr]
    | some rule =>
      -- Only rules of kinds with names, under a slot, are named.
      have hidle : rule.slot = none ∨ rule.kind.isNamed = false →
          (assignName id key e).2.cells.get? cell = e.cells.get? cell := fun h => by
        rw [assignName_idle hr h]
      cases hslot : rule.slot with
      | none => exact hidle (.inl hslot)
      | some slot =>
        cases hkind : rule.kind.isNamed with
        | false => exact hidle (.inr hkind)
        | true =>
          rw [assignName_slotted hr hslot hkind, stateful_bind]
          have hcells := ruleName_cells id slot rule.explicitName e
          rcases hname : ruleName id slot rule.explicitName e with ⟨err | name, e₁⟩ <;>
            rw [hname] at hcells
          · rw [hcells]
          · show (placeName rule.cell name slot e₁).2.cells.get? cell = _
            unfold placeName
            cases hcell : rule.cell with
            | none =>
              rw [← hcells]
              rfl
            | some own =>
              have hne : cell ≠ own := fun heq => hC ⟨rule, hr, heq ▸ hcell⟩
              show (fillCell own name slot e₁).2.cells.get? cell = _
              unfold fillCell
              cases e₁.cells.get? own with
              | some _ => rw [hcells]
              | none => exact (Dict.get?_insert_of_ne hne _ _).trans (by rw [hcells])
  · cases hk : e.scope? id with
    | none => rw [assignName_missing (by unfold Engine.rule?; rw [hk]; rfl)]
    | some s => exact (assignName_fills (.root hk) key).nextCell

/-- **A rule gets its name,** if its place is empty and its scope is there. -/
theorem assignName_succeeds (hl : Linked e) (hf : Founded rank e) {rule : Rule} {cell : Nat}
    (hr : e.rule? id key = some rule) (hcell : rule.cell = some cell)
    (hempty : e.cells.get? cell = none) : (assignName id key e).1 = .ok () := by
  obtain ⟨s, hs, -⟩ := rule?_eq_some_iff.mp hr
  -- Rules without names are passed over.
  have hidle : rule.slot = none ∨ rule.kind.isNamed = false → (assignName id key e).1 = .ok () :=
    fun h => by rw [assignName_idle hr h]
  cases hslot : rule.slot with
  | none => exact hidle (.inl hslot)
  | some slot =>
    cases hkind : rule.kind.isNamed with
    | false => exact hidle (.inr hkind)
    -- The name is spelled by the rule, or found by a walk that ends within the limit.
    | true =>
      have hname : ∃ name e₁, ruleName id slot rule.explicitName e = (.ok name, e₁) := by
        cases rule.explicitName with
        | some name => exact ⟨name, _, rfl⟩
        | none =>
          obtain ⟨name, e₁, hwalk⟩ := nameForWithin_ends hl hf slot hs (below_lt_walkLimit e id)
          exact ⟨name, e₁, hwalk _ le_rfl⟩
      obtain ⟨name, e₁, hname⟩ := hname
      have hcells := ruleName_cells id slot rule.explicitName e
      rw [hname] at hcells
      rw [assignName_slotted hr hslot hkind, stateful_bind_ok hname]
      unfold placeName
      rw [hcell]
      -- The place of the rule is empty, so it takes the name.
      show (fillCell cell name slot e₁).1 = _
      unfold fillCell
      rw [hcells, hempty]

/-- The rules with these keys can be named one after the other. -/
structure Nameable (rank : ScopeId → Nat) (id : ScopeId) (keys : List Nat) (e : Engine) : Prop where
  linked : Linked e
  founded : Founded rank e
  indexed : Indexed e
  nodup : keys.Nodup
  empty : ∀ key ∈ keys, ∃ rule cell, e.rule? id key = some rule ∧ rule.cell = some cell ∧
    e.cells.get? cell = none

/-- **Then each of them gets its name.** -/
theorem Nameable.succeeds {keys : List Nat} (h : Nameable rank id keys e) :
    (forEach (assignName id) keys e).1 = .ok () := by
  induction keys generalizing e with
  | nil => rfl
  | cons key rest ih =>
    obtain ⟨rule, cell, hr, hcell, hempty⟩ := h.empty key List.mem_cons_self
    have hok := assignName_succeeds h.linked h.founded hr hcell hempty
    have hfills := assignName_fillsOnly id key e
    rcases hrun : assignName id key e with ⟨r, e₁⟩
    rw [hrun] at hok hfills
    cases hok
    rw [forEach_cons, stateful_bind_ok hrun]
    obtain ⟨hnotin, hnodup⟩ := List.nodup_cons.mp h.nodup
    have hsame : Rescoped (fun _ => Scope.Renamed True) e e₁ := hfills.scopes
    refine ih ⟨h.linked.relinked (hsame.mono fun _ _ _ _ hR => hR.relinked),
      h.founded.rescoped (hsame.mono fun _ _ _ _ hR => hR.sameLayout),
      h.indexed.rescoped (hsame.mono fun _ _ _ _ hR => hR.reindexed) hfills.nextCell.ge, hnodup,
      fun key' hkey' => ?_⟩
    -- The place of another rule is another one, so it is empty still.
    obtain ⟨rule', cell', hr', hcell', hempty'⟩ := h.empty key' (List.mem_cons_of_mem _ hkey')
    refine ⟨rule', cell', (hfills.rule?_eq id key').trans hr', hcell', ?_⟩
    have hother : ¬ e.HeldAt id key cell' := fun ⟨own, hown, hc⟩ =>
      hnotin ((h.indexed.own hown hr' (hcell'.trans hc.symm)).2 ▸ hkey')
    rw [hfills.cells hother, hempty']

/-- What steps for the rules of a scope do to places: they fill those of its rules only. -/
structure FillsRules (id : ScopeId) (e e' : Engine) : Prop where
  scopes : Rescoped (fun _ => Scope.Housed) e e'
  cells {cell : Nat} : (∀ s, e.scope? id = some s → ¬ s.Holds cell) →
    e'.cells.get? cell = e.cells.get? cell
  nextCell : e'.nextCell = e.nextCell

namespace FillsRules

instance : IsPreorder Engine (FillsRules id) where
  refl e := ⟨.refl e, fun _ => rfl, rfl⟩
  trans _ _ _ h h' :=
    { scopes := h.scopes.trans h'.scopes
      cells := fun hnone => (h'.cells fun s' hs' hc => by
        obtain ⟨s, hs, hR⟩ := h.scopes.back hs'
        exact hnone s hs (hR.holds.mp hc)).trans (h.cells hnone)
      nextCell := h'.nextCell.trans h.nextCell }

/-- Changes that fill no place. -/
theorem touched (hr : Rescoped (fun _ => Scope.Housed) e e') (h : Touched e e') :
    FillsRules id e e' :=
  ⟨hr, fun _ => by rw [h], by rw [h]⟩

/-- Naming a rule fills a place of its scope at most. -/
theorem assignName (id : ScopeId) (key : Nat) (e : Engine) :
    FillsRules id e (assignName id key e).2 := by
  have hfills := assignName_fillsOnly id key e
  refine ⟨hfills.scopes.mono fun _ _ _ _ hR => hR.housed, fun hnone => hfills.cells ?_,
    hfills.nextCell⟩
  rintro ⟨rule, hr, hcell⟩
  obtain ⟨s, hs, hkey⟩ := rule?_eq_some_iff.mp hr
  exact hnone s hs ⟨rule, List.mem_of_getElem? hkey, hcell⟩

/-- Merging fills none. -/
theorem mergeAt (id : ScopeId) (key : Nat) (e : Engine) : FillsRules id e (mergeAt id key e).2 :=
  touched ((mergeAt_remerged id key e).mono fun _ _ _ _ hR => hR.housed) (mergeAt_touched id key e)

/-- **So do all steps for the rules of the scope.** -/
theorem processRules (id : ScopeId) (keys : List Nat) (e : Engine) :
    FillsRules id e (processRules id keys e).2 := by
  unfold Engine.processRules
  refine Steps.bind (R := FillsRules id) (forEach_steps keys fun key _ e' _ => assignName id key e')
    fun _ e₁ _ => .bind (forEach_steps keys fun key _ e' _ => mergeAt id key e') fun _ e₂ _ => ?_
  exact .modify (.touched (.modifyScope fun _ _ => .of_rules rfl rfl rfl rfl rfl rfl rfl rfl)
    (.modifyScope _))

end FillsRules

/-! ### Scopes with the scopes nested in them -/

/-- Processing keeps layouts and the places of rules. -/
theorem processWithin_housed (limit : Nat) (id : ScopeId) (e : Engine) :
    Rescoped (fun _ => Scope.Housed) e (processWithin limit id e).2 :=
  processWithin_steps
    (fun id key e => (assignName_renamed id key e).mono fun _ _ _ _ hR => hR.housed)
    (fun id key e => (mergeAt_remerged id key e).mono fun _ _ _ _ hR => hR.housed)
    (fun _ _ => .modifyScope fun _ _ => .of_rules rfl rfl rfl rfl rfl rfl rfl rfl)
    (fun _ _ => .modifyScope fun _ _ => .of_rules rfl rfl rfl rfl rfl rfl rfl rfl)
    (fun event _ => .report event) limit id e

/-- **The scope is about to be processed,** with the scopes that are nested in it. -/
structure Processable (rank : ScopeId → Nat) (id : ScopeId) (e : Engine) : Prop where
  linked : Linked e
  founded : Founded rank e
  indexed : Indexed e
  live : ∃ s, e.scope? id = some s
  unsettled : ∀ k, e.Inside id k → e.Unsettled k
  empty {k s cell} : e.Inside id k → e.scope? k = some s → s.Holds cell → e.cells.get? cell = none

namespace Processable

variable {s : Scope} {c : ScopeId}

/-- So are the scopes nested in it. -/
theorem child (h : Processable rank id e) (hs : e.scope? id = some s) (hc : c ∈ s.children) :
    Processable rank c e := by
  obtain ⟨t, ht, howner⟩ := h.linked.child_owner hs hc
  have hin : ∀ {k}, e.Inside c k → e.Inside id k :=
    fun hk => .trans (.nested ht howner (.root hs)) hk
  exact ⟨h.linked, h.founded, h.indexed, ⟨t, ht⟩, fun k hk => h.unsettled k (hin hk),
    fun hk hs' hholds => h.empty (hin hk) hs' hholds⟩

/-- It still is after a change that keeps scopes as they are, processes nothing inside of it, and
    fills none of its places. -/
theorem moved (h : Processable rank id e) (hl : Linked e')
    (hr : Rescoped (fun _ => Scope.Housed) e e')
    (hnext : e'.nextCell = e.nextCell)
    (hstate : ∀ {k}, e.Inside id k → e.Unsettled k → e'.Unsettled k)
    (hcells : ∀ {k s cell}, e.Inside id k → e.scope? k = some s → s.Holds cell →
      e'.cells.get? cell = e.cells.get? cell) : Processable rank id e' := by
  have hinside : ∀ {k}, e'.Inside id k ↔ e.Inside id k :=
    hr.inside_iff fun _ _ _ hR => hR.layout.owner
  refine ⟨hl, h.founded.rescoped (hr.mono fun _ _ _ _ hR => hR.layout),
    h.indexed.rescoped (hr.mono fun _ _ _ _ hR => hR.index) hnext.ge, ?_, fun k hk => ?_,
    fun {k s' cell} hk hs' hholds => ?_⟩
  · obtain ⟨s, hs⟩ := h.live
    obtain ⟨s', hs', -⟩ := hr.scope hs
    exact ⟨s', hs'⟩
  · exact hstate (hinside.mp hk) (h.unsettled k (hinside.mp hk))
  · obtain ⟨s, hs, hR⟩ := hr.back hs'
    rw [hcells (hinside.mp hk) hs (hR.holds.mp hholds)]
    exact h.empty (hinside.mp hk) hs (hR.holds.mp hholds)

/-- Its rules can be named. -/
theorem nameable (h : Processable rank id e) (hs : e.scope? id = some s) :
    Nameable rank id s.order e where
  linked := h.linked
  founded := h.founded
  indexed := h.indexed
  nodup := by
    rw [h.linked.listed hs]
    exact List.nodup_range
  empty key hkey := by
    have hlt : key < s.rules.length := (h.linked.listed hs).mem_order.mp hkey
    have hr : e.rule? id key = some s.rules[key] :=
      rule?_eq_some_iff.mpr ⟨s, hs, List.getElem?_eq_getElem hlt⟩
    obtain ⟨cell, hcell, -⟩ := h.indexed.placed hr
    exact ⟨_, cell, hr, hcell, h.empty (.root hs) hs ⟨_, List.getElem_mem hlt, hcell⟩⟩

/-- **The steps for its rules succeed,** and then the scopes that are nested in it are about to be
    processed. -/
theorem rules (h : Processable rank id e) (hs : e.scope? id = some s) :
    ∃ e₁, processRules id s.order e = (.ok (), e₁) ∧ Linked e₁ ∧
      Rescoped (fun _ => Scope.Housed) e e₁ ∧ ∀ c ∈ s.children, Processable rank c e₁ := by
  -- All rules get names, and merging does not fail.
  have hnames := (h.nameable hs).succeeds
  have hok : (processRules id s.order e).1 = .ok () := by
    unfold processRules
    rcases hA : forEach (assignName id) s.order e with ⟨r, eA⟩
    rw [hA] at hnames
    cases hnames
    have hmerges := forEach_mergeAt_ok (fun key => (id, key)) s.order eA
    rcases hB : forEach (mergeAt id) s.order eA with ⟨r, eB⟩
    rw [hB] at hmerges
    cases hmerges
    rw [stateful_bind_ok hA, stateful_bind_ok hB]
    rfl
  obtain ⟨hprogressed, -⟩ := processRules_spec h.linked hs (h.unsettled id (.root hs) hs)
  have hfills := FillsRules.processRules id s.order e
  rcases hrun : processRules id s.order e with ⟨r, e₁⟩
  rw [hrun] at hok hprogressed hfills
  cases hok
  have hlinked : Linked e₁ :=
    h.linked.relinked (hprogressed.mono fun _ _ _ _ hp => hp.relinked not_false)
  refine ⟨e₁, rfl, hlinked, hfills.scopes, fun c hc => (h.child hs hc).moved hlinked hfills.scopes
    hfills.nextCell (fun _ hun s' hs' hsettled => ?_) fun {k t cell} hk ht hholds =>
    hfills.cells ?_⟩
  · obtain ⟨t, ht, hp⟩ := hprogressed.back hs'
    exact hun ht ((hp.relinked not_false).settled.mp hsettled)
  · -- The scope holds none of the places of a scope that is nested in it.
    intro u hu hholds'
    cases hs.symm.trans hu
    have hk' : k = id := h.indexed.holds_inj hs ht hholds' hholds
    exact h.linked.not_inside_child hs hc (hk' ▸ hk)

/-- Processing a scope that has nothing in common with it changes nothing for it. -/
theorem others {limit : Nat} {r : Except Error Unit} (h : Processable rank id e)
    (hc : Processable rank c e) (hdisjoint : ∀ k, e.Inside id k → ¬ e.Inside c k)
    (hrun : processWithin limit c e = (r, e')) : Processable rank id e' := by
  obtain ⟨t, ht⟩ := hc.live
  have hproc := processWithin_spec limit c e h.linked hc.unsettled
  have hhoused := processWithin_housed limit c e
  have hfills : FillsCells c e (processWithin limit c e).2 :=
    processWithin_fills limit (.root ht) h.linked.child_owner
  rw [hrun] at hproc hhoused hfills
  refine h.moved hproc.linked hhoused hfills.nextCell
    (fun {k} hk hun => hproc.unsettled (hdisjoint k hk) hun) fun {k s cell} hk hs hholds => ?_
  refine hfills.cells fun j t hj ht hholds' => hdisjoint k hk ?_
  exact h.indexed.holds_inj hs ht hholds hholds' ▸ hj

/-- Scopes that have nothing in common are processed one after the other. -/
theorem forEach_succeeds {limit : Nat} (list : List ScopeId)
    (hprocess : ∀ c e, Processable rank c e → e.below (e.nextScope - ·) c < limit →
      (processWithin limit c e).1 = .ok ())
    (hlist : ∀ c ∈ list, Processable rank c e ∧ e.below (e.nextScope - ·) c < limit)
    (hdisjoint : list.Pairwise fun c c' => ∀ k, e.Inside c' k → ¬ e.Inside c k) :
    (forEach (processWithin limit) list e).1 = .ok () := by
  induction list generalizing e with
  | nil => rfl
  | cons c rest ih =>
    -- The rest is processed as before: what is nested beside it has none of its places.
    obtain ⟨hc, hlimit⟩ := hlist c List.mem_cons_self
    have hok := hprocess c e hc hlimit
    have hhoused := processWithin_housed limit c e
    rcases hrun : processWithin limit c e with ⟨r, e₁⟩
    rw [hrun] at hok hhoused
    cases hok
    rw [forEach_cons, stateful_bind_ok hrun]
    obtain ⟨hfirst, hrest⟩ := List.pairwise_cons.mp hdisjoint
    have hinside : ∀ {root k}, e₁.Inside root k ↔ e.Inside root k :=
      hhoused.inside_iff fun _ _ _ hR => hR.layout.owner
    refine ih (fun a ha => ?_) (hrest.imp fun h k => by simpa only [hinside] using h k)
    obtain ⟨hready, hbelow⟩ := hlist a (List.mem_cons_of_mem _ ha)
    refine ⟨hready.others hc (hfirst a ha) hrun, ?_⟩
    rwa [hhoused.below, hhoused.nextScope]

/-- **Processing a scope succeeds** when the limit suffices. -/
theorem succeeds {limit : Nat} (h : Processable rank id e)
    (hlimit : e.below (e.nextScope - ·) id < limit) : (processWithin limit id e).1 = .ok () := by
  induction limit generalizing id e with
  | zero => exact absurd hlimit (Nat.not_lt_zero _)
  | succ limit ih =>
    obtain ⟨s, hs⟩ := h.live
    obtain ⟨e₁, hrules, hlinked, hhoused, hchildren⟩ := h.rules hs
    obtain ⟨s₁, hs₁, hR⟩ := hhoused.scope hs
    have hmem : ∀ {c}, c ∈ s.children → c ∈ s₁.children := fun hc => hR.layout.children.symm ▸ hc
    rw [processWithin_succ, stateful_bind_ok (requireScope_some hs), stateful_bind_ok hrules]
    have hnested : (forEach (processWithin limit) s.children e₁).1 = .ok () :=
      forEach_succeeds s.children (fun c e hc hlt => ih hc hlt)
        (fun c hc => ⟨hchildren c hc, ?_⟩) ?_
    · rcases hrun : forEach (processWithin limit) s.children e₁ with ⟨r, e₂⟩
      rw [hrun] at hnested
      cases hnested
      rw [stateful_bind_ok hrun]
      rfl
    · -- What is nested is newer than its owner, so fewer scopes are newer than that.
      obtain ⟨t, ht, howner⟩ := h.linked.child_owner hs hc
      have hnewer := (h.linked.owner_child ht howner).1
      have hnext := h.linked.lt_nextScope ht
      have hlt : e.below (e.nextScope - ·) c < e.below (e.nextScope - ·) id :=
        below_lt_of_live (Nat.sub_lt_sub_left (hnewer.trans hnext) hnewer) (mem_keys_of_scope? ht)
      rw [hhoused.below, hhoused.nextScope]
      omega
    · refine (h.linked.children_nodup hs).imp_of_mem fun {c c'} hc hc' hne k hk hin => ?_
      exact hlinked.children_disjoint hs₁ (hmem hc) (hmem hc') hne hin hk

end Processable

/-- **The scope of a definition that has declared its rules is processed.**
    Nothing fails on the way. -/
theorem processScope_succeeds (hs : Sound (id :: roots) e) (hv : Vacant e) (hl : Layered e) :
    (processScope id e).1 = .ok () := by
  obtain ⟨rank, hrank⟩ := hl.founded
  obtain ⟨s, hroot, -⟩ := hs.root_owner List.mem_cons_self
  have hun : ∀ k, e.Inside id k → e.Unsettled k := fun k hin => hs.unsettled List.mem_cons_self hin
  have hprocess : Processable rank id e := ⟨hs.linked, hrank, hv.toIndexed, ⟨s, hroot⟩, hun,
    fun {k t cell} hin ht hholds => hv.unfilled ⟨k, t, ht, hun k hin ht, hholds⟩⟩
  exact hprocess.succeeds (below_lt_walkLimit e id)

end Engine

end StyleBook
