import StyleBook.Proofs.Engine.Frames
import StyleBook.Proofs.Script.Stepwise

namespace StyleBook

/-!
# Rules and their slots

A rule that is declared under a slot is found there, and knows its slot. All other rules are those
that were declared without one.

* `Scope.withNamed`, `Scope.withUnnamed` — a scope with one more rule; `Engine.addRule_new`,
  `Engine.addRule_known`, `Engine.addUnnamedRule_eq` — what declaring a rule does;
* `Scope.Slotted` — rules are found under their slots, or are without one; `Scope.Tidy` — they have
  no other slots;
* `Engine.slotted_stepwise` — rules are found under their slots, whatever is built.
-/

namespace Scope

/-- The scope with one more rule without a slot. -/
def withUnnamed (rule : Rule) (s : Scope) : Scope :=
  { s with
    rules := s.rules ++ [rule]
    order := s.order ++ [s.rules.length]
    unnamed := s.unnamed ++ [s.rules.length] }

/-- The scope with one more rule under a slot. -/
def withNamed (slot : String) (rule : Rule) (s : Scope) : Scope :=
  { s with
    rules := s.rules ++ [rule]
    order := s.order ++ [s.rules.length]
    named := s.named.insert slot s.rules.length }

/-- **Rules are found under their slots:** those that were declared under one, and all others are
    those that were declared without. -/
structure Slotted (s : Scope) : Prop where
  named {slot : String} {key : Nat} : s.named.get? slot = some key →
    ∃ rule, s.rules[key]? = some rule ∧ rule.slot = some slot
  listed {key : Nat} : key < s.rules.length →
    key ∈ s.unnamed ∨ ∃ slot, s.named.get? slot = some key

/-- **No rule has a slot but the one under which it is found.** -/
def Tidy (s : Scope) : Prop :=
  ∀ key rule slot, s.rules[key]? = some rule → rule.slot = some slot →
    s.named.get? slot = some key

/-- The scope is changed, but not in the places and the slots of its rules. -/
structure Filed (s s' : Scope) : Prop where
  named : s'.named = s.named
  unnamed : s'.unnamed = s.unnamed
  length_eq : s'.rules.length = s.rules.length
  slot {key : Nat} {r : Rule} :
    s.rules[key]? = some r → ∃ r', s'.rules[key]? = some r' ∧ r'.slot = r.slot

instance : IsPreorder Scope Filed where
  refl _ := ⟨rfl, rfl, rfl, fun hr => ⟨_, hr, rfl⟩⟩
  trans _ _ _ h h' :=
    { named := h'.named.trans h.named
      unnamed := h'.unnamed.trans h.unnamed
      length_eq := h'.length_eq.trans h.length_eq
      slot := fun hr => by
        obtain ⟨r', hr', hslot⟩ := h.slot hr
        obtain ⟨r'', hr'', hslot'⟩ := h'.slot hr'
        exact ⟨r'', hr'', hslot'.trans hslot⟩ }

variable {s s' : Scope} {slot : String} {rule : Rule}

/-- A change that is not about rules. -/
theorem Filed.of_rules (hrules : s'.rules = s.rules) (hnamed : s'.named = s.named)
    (hunnamed : s'.unnamed = s.unnamed) : Filed s s' :=
  ⟨hnamed, hunnamed, by rw [hrules], fun hr => ⟨_, hrules ▸ hr, rfl⟩⟩

/-- What is renamed has its rules under the same slots. -/
theorem Renamed.filed {P : Prop} (h : Renamed P s s') : Filed s s' := by
  refine .of_rules h.rules ?_ ?_ <;> rw [h.eq_names]

/-- So has what is merged. -/
theorem Remerged.filed (h : Remerged s s') : Filed s s' where
  named := by rw [h.eq_rules]
  unnamed := by rw [h.eq_rules]
  length_eq := h.length_eq
  slot hr := by
    obtain ⟨r', hr', hR⟩ := h.rule hr
    refine ⟨r', hr', ?_⟩
    rcases hR with rfl | ⟨-, -, m, rfl⟩ <;> rfl

namespace Slotted

/-- Rules are found under their slots while they keep them. -/
theorem filed (h : s.Slotted) (hf : Filed s s') : s'.Slotted where
  named hslot := by
    obtain ⟨rule, hr, hrule⟩ := h.named (hf.named ▸ hslot)
    obtain ⟨r', hr', hslot'⟩ := hf.slot hr
    exact ⟨r', hr', hslot'.trans hrule⟩
  listed hlt := by
    rw [hf.named, hf.unnamed]
    exact h.listed (hf.length_eq ▸ hlt)

/-- A scope without rules. -/
theorem of_empty (hrules : s.rules = []) (hnamed : s.named = []) : s.Slotted where
  named hslot := by
    rw [hnamed] at hslot
    cases hslot
  listed hlt := by
    rw [hrules] at hlt
    cases hlt

/-- One more rule under a slot that had none. -/
theorem withNamed (h : s.Slotted) (hnew : s.named.get? slot = none)
    (hslot : rule.slot = some slot) :
    (s.withNamed slot rule).Slotted where
  named {slot' key} hkey := by
    change (s.named.insert slot s.rules.length).get? slot' = some key at hkey
    show ∃ r, (s.rules ++ [rule])[key]? = some r ∧ r.slot = some slot'
    rw [Dict.get?_insert] at hkey
    split at hkey
    -- The slot is the new one, with the rule at the end, or one that had its rule before.
    · next heq =>
      cases hkey
      exact ⟨rule, List.getElem?_concat_length, heq ▸ hslot⟩
    · obtain ⟨r, hr, hrule⟩ := h.named hkey
      exact ⟨r, by rw [List.getElem?_append_left (List.getElem?_eq_some_iff.mp hr).1, hr], hrule⟩
  listed {key} hlt := by
    change key < (s.rules ++ [rule]).length at hlt
    show key ∈ s.unnamed ∨ ∃ slot', (s.named.insert slot s.rules.length).get? slot' = some key
    rw [List.length_append, List.length_singleton] at hlt
    -- The key is an old one, listed as before, or that of the new rule, which has its slot.
    rcases Nat.lt_succ_iff_lt_or_eq.mp hlt with hold | rfl
    · refine (h.listed hold).imp_right fun ⟨slot', hslot'⟩ => ⟨slot', ?_⟩
      rw [Dict.get?_insert_of_ne, hslot']
      rintro rfl
      cases hnew.symm.trans hslot'
    · exact .inr ⟨slot, Dict.get?_insert_self _ _ _⟩

/-- One more rule without a slot. -/
theorem withUnnamed (h : s.Slotted) (rule : Rule) : (s.withUnnamed rule).Slotted where
  named hkey := by
    obtain ⟨r, hr, hrule⟩ := h.named hkey
    refine ⟨r, ?_, hrule⟩
    show (s.rules ++ [rule])[_]? = some r
    rw [List.getElem?_append_left (List.getElem?_eq_some_iff.mp hr).1, hr]
  listed {key} hlt := by
    change key < (s.rules ++ [rule]).length at hlt
    show key ∈ s.unnamed ++ [s.rules.length] ∨ _
    rw [List.length_append, List.length_singleton] at hlt
    rcases Nat.lt_succ_iff_lt_or_eq.mp hlt with hold | rfl
    · exact (h.listed hold).imp_left (List.mem_append_left _)
    · exact .inl (List.mem_append_right _ (List.mem_singleton.mpr rfl))

/-- Another rule under a slot that had one. -/
theorem setRule (h : s.Slotted) {key : Nat} (hkey : s.named.get? slot = some key)
    (hslot : rule.slot = some slot) : (s.setRule key rule).Slotted where
  named {slot' key'} hkey' := by
    show ∃ r, (s.rules.set key rule)[key']? = some r ∧ r.slot = some slot'
    obtain ⟨r', hr', hrule⟩ := h.named hkey'
    rw [List.getElem?_set]
    split
    · next heq =>
      subst heq
      obtain ⟨r, hr, hslot'⟩ := h.named hkey
      cases hr.symm.trans hr'
      rw [if_pos (List.getElem?_eq_some_iff.mp hr).1]
      exact ⟨rule, rfl, hslot.trans (hslot'.symm.trans hrule)⟩
    · exact ⟨r', hr', hrule⟩
  listed {key'} hlt := h.listed (by
    change key' < (s.rules.set key rule).length at hlt
    rwa [List.length_set] at hlt)

end Slotted

namespace Tidy

/-- Rules stand under their own slots while they keep them. -/
theorem filed (h : s.Tidy) (hf : Filed s s') : s'.Tidy := fun key r' slot hr' hslot => by
  have hlt : key < s.rules.length := hf.length_eq ▸ (List.getElem?_eq_some_iff.mp hr').1
  obtain ⟨r'', hr'', heq⟩ := hf.slot (List.getElem?_eq_getElem hlt)
  cases hr'.symm.trans hr''
  rw [hf.named]
  exact h key _ slot (List.getElem?_eq_getElem hlt) (heq.symm.trans hslot)

/-- A scope without rules. -/
theorem of_empty (hrules : s.rules = []) : s.Tidy := fun key r slot hr => by
  rw [hrules] at hr
  cases hr

/-- A rule of a scope with one more is an old one, or the new one. -/
theorem concat_cases {key : Nat} {r : Rule} (hr : (s.rules ++ [rule])[key]? = some r) :
    s.rules[key]? = some r ∨ key = s.rules.length ∧ r = rule := by
  rcases Nat.lt_or_ge key s.rules.length with hlt | hge
  · rw [List.getElem?_append_left hlt] at hr
    exact .inl hr
  · rw [List.getElem?_append_right hge, List.getElem?_singleton] at hr
    split at hr
    · next heq => exact .inr ⟨by omega, (Option.some.inj hr).symm⟩
    · cases hr

/-- One more rule under a slot that had none. -/
theorem withNamed (h : s.Tidy) (hnew : s.named.get? slot = none) (hslot : rule.slot = some slot) :
    (s.withNamed slot rule).Tidy := fun key r slot' hr hr' => by
  show (s.named.insert slot s.rules.length).get? slot' = some key
  rcases concat_cases hr with hold | ⟨rfl, rfl⟩
  · have hkey := h key r slot' hold hr'
    rwa [Dict.get?_insert_of_ne]
    rintro rfl
    cases hnew.symm.trans hkey
  · cases hslot.symm.trans hr'
    exact Dict.get?_insert_self _ _ _

/-- One more rule without a slot. -/
theorem withUnnamed (h : s.Tidy) (hslot : rule.slot = none) : (s.withUnnamed rule).Tidy :=
  fun key r slot' hr hr' => by
    rcases concat_cases hr with hold | ⟨rfl, rfl⟩
    · exact h key r slot' hold hr'
    · cases hslot.symm.trans hr'

/-- Another rule under a slot that had one. -/
theorem setRule (h : s.Tidy) {key : Nat} (hkey : s.named.get? slot = some key)
    (hslot : rule.slot = some slot) : (s.setRule key rule).Tidy := fun key' r slot' hr hr' => by
  show s.named.get? slot' = some key'
  change (s.rules.set key rule)[key']? = some r at hr
  rw [List.getElem?_set] at hr
  split at hr
  · next heq =>
    split at hr
    · cases hr
      cases hslot.symm.trans hr'
      rw [hkey, heq]
    · cases hr
  · exact h key' r slot' hr hr'

end Tidy

end Scope

namespace Engine

variable {e e' : Engine} {id k : ScopeId} {roots : List ScopeId} {slot : String} {s : Scope}

/-! ### Declaring -/

/-- **Declaring a rule without a slot.** -/
theorem addUnnamedRule_eq (hs : e.scope? id = some s) (r : Rule) :
    addUnnamedRule id r e =
      (.ok (Scope.refOf id s.rules.length { r with cell := some e.nextCell, merged := none }),
        Engine.modifyScope id
          (Scope.withUnnamed { r with cell := some e.nextCell, merged := none })
          { e with nextCell := e.nextCell + 1 }) := by
  have hs' : scope? id { e with nextCell := e.nextCell + 1 } = some s := hs
  unfold addUnnamedRule
  rw [stateful_bind_ok (requireScope_some hs)]
  show (_, Engine.modifyScope id _ { e with nextCell := e.nextCell + 1 }) = _
  unfold Engine.modifyScope
  simp only [hs']
  rfl

/-- **Declaring a rule under a new slot.** -/
theorem addRule_new (hs : e.scope? id = some s) (hslot : s.named.get? slot = none) (r : Rule) :
    addRule id slot r e =
      (.ok (Scope.refOf id s.rules.length
          { r with slot := some slot, cell := some e.nextCell, merged := none }),
        Engine.modifyScope id
          (Scope.withNamed slot
            { r with slot := some slot, cell := some e.nextCell, merged := none })
          { e with nextCell := e.nextCell + 1 }) := by
  have hs' : scope? id { e with nextCell := e.nextCell + 1 } = some s := hs
  unfold addRule
  rw [stateful_bind_ok (requireScope_some hs)]
  simp only [hslot]
  show (_, Engine.modifyScope id _ { e with nextCell := e.nextCell + 1 }) = _
  unfold Engine.modifyScope
  simp only [hs']
  rfl

/-- **Declaring a rule under a slot that has one,** which is replaced. -/
theorem addRule_known {key : Nat} (hs : e.scope? id = some s) (hslot : s.named.get? slot = some key)
    (r : Rule) :
    addRule id slot r e =
      (.ok (Scope.refOf id key
          { r with slot := some slot, cell := (s.rule? key).bind (·.cell), merged := none }),
        (e.modifyScope id (·.setRule key
          { r with slot := some slot, cell := (s.rule? key).bind (·.cell), merged := none })).report
            (.ruleRedeclared s.name slot)) := by
  unfold addRule
  rw [stateful_bind_ok (requireScope_some hs)]
  simp only [hslot]
  rfl

/-- The scopes after one was opened for a definition. -/
theorem scope?_opened {μ : Type} (d : Definition μ) (e : Engine) (k : ScopeId) :
    (opened d e).scope? k = if k = e.nextScope then
      some { name := (e.naming.reserve d.scopeName d.multiplex).1, definition := d.title,
             multiplex := d.multiplex } else e.scope? k :=
  scope?_addScope (e := { e with naming := (e.naming.reserve d.scopeName d.multiplex).2 }) ..

/-! ### Slots of all scopes -/

/-- Rules are found under their slots in all scopes. -/
def Slotted (e : Engine) : Prop := ∀ k s, e.scope? k = some s → s.Slotted

namespace Slotted

/-- Rules are found under their slots while all scopes keep theirs. -/
theorem rescoped (h : Slotted e) (hr : Rescoped (fun _ => Scope.Filed) e e') : Slotted e' :=
  fun _ _ hs' => by
    obtain ⟨s, hs, hf⟩ := hr.back hs'
    exact (h _ _ hs).filed hf

/-- One scope is changed, and rules are found under their slots in it. -/
theorem modifyScope {f : Scope → Scope} (h : Slotted e)
    (hf : ∀ s, e.scope? id = some s → s.Slotted → (f s).Slotted) : Slotted (e.modifyScope id f) :=
  fun k s' hs' => by
    rw [scope?_modifyScope] at hs'
    split at hs'
    · next hk =>
      subst hk
      obtain ⟨s, hs, rfl⟩ := Option.map_eq_some_iff.mp hs'
      exact hf s hs (h _ _ hs)
    · exact h _ _ hs'

/-- Declaring a rule puts it under its slot. -/
theorem addRule (h : Slotted e) (id : ScopeId) (slot : String) (rule : Rule) :
    Slotted (addRule id slot rule e).2 := by
  cases hs : e.scope? id with
  | none =>
    unfold Engine.addRule
    rw [stateful_bind_error (requireScope_none hs)]
    exact h
  | some s =>
    cases hslot : s.named.get? slot with
    | none =>
      rw [addRule_new hs hslot]
      refine modifyScope (e := { e with nextCell := e.nextCell + 1 }) h fun t ht hslotted => ?_
      cases hs.symm.trans ht
      exact hslotted.withNamed hslot rfl
    | some key =>
      rw [addRule_known hs hslot]
      refine Slotted.rescoped (h.modifyScope fun t ht hslotted => ?_) (.report _)
      cases hs.symm.trans ht
      exact hslotted.setRule hslot rfl

/-- A rule without a slot is put under none. -/
theorem addUnnamedRule (h : Slotted e) (id : ScopeId) (rule : Rule) :
    Slotted (addUnnamedRule id rule e).2 := by
  cases hs : e.scope? id with
  | none =>
    unfold Engine.addUnnamedRule
    rw [stateful_bind_error (requireScope_none hs)]
    exact h
  | some s =>
    rw [addUnnamedRule_eq hs]
    exact modifyScope (e := { e with nextCell := e.nextCell + 1 }) h fun _ _ hslotted =>
      hslotted.withUnnamed _

/-- A new group has no rules yet. -/
theorem addNested (h : Slotted e) (hl : Linked e) (id : ScopeId) : Slotted (addNested id e).2 := by
  cases hs : e.scope? id with
  | none =>
    unfold Engine.addNested
    rw [stateful_bind_error (requireScope_none hs)]
    exact h
  | some s =>
    intro k s' hs'
    rw [scope?_addNested hl hs] at hs'
    split at hs'
    · cases hs'
      exact .of_empty rfl rfl
    · split at hs'
      · cases hs'
        exact (h _ _ hs).filed (.of_rules rfl rfl rfl)
      · exact h _ _ hs'

/-- Nor has a new scope of a definition. -/
theorem opened {μ : Type} (h : Slotted e) (d : Definition μ) : Slotted (opened d e) :=
  fun k s' hs' => by
    rw [scope?_opened] at hs'
    split at hs'
    · cases hs'
      exact .of_empty rfl rfl
    · exact h _ _ hs'

/-- The definition has declared all its rules. -/
theorem endConstruction (h : Slotted e) : Slotted e.endConstruction :=
  h.rescoped (.of_scopes_eq rfl rfl rfl)

/-- What remains after a scope was given up is as it was. -/
theorem abandon (h : Slotted e) (hl : Linked e) (id : ScopeId) (key : Nat) :
    Slotted (e.abandon id key) := fun _ _ hs' => h _ _ ((abandon_abandoned hl id key).back hs').2

end Slotted

/-! ### Processing -/

/-- Processing keeps the places and the slots of rules. -/
theorem processScope_filed (id : ScopeId) (e : Engine) :
    Rescoped (fun _ => Scope.Filed) e (processScope id e).2 :=
  processWithin_steps
    (fun id key e => (assignName_renamed id key e).mono fun _ _ _ _ hR => hR.filed)
    (fun id key e => (mergeAt_remerged id key e).mono fun _ _ _ _ hR => hR.filed)
    (fun _ _ => .modifyScope fun _ _ => .of_rules rfl rfl rfl)
    (fun _ _ => .modifyScope fun _ _ => .of_rules rfl rfl rfl) (fun event _ => .report event)
    e.walkLimit id e

/-- **Rules are found under their slots, whatever is built.** -/
theorem slotted_stepwise : Stepwise (fun _ e e' => Slotted e → Slotted e')
    (fun _ _ e e' => Slotted e → Slotted e') where
  -- Every step that makes a rule files it. Processing and giving up leave rules where they are.
  idle h := h
  refl h := h
  trans h h' := h' ∘ h
  report event h := h.rescoped (.report event)
  addRule _ _ slot rule h := h.addRule _ slot rule
  addUnnamedRule _ _ rule h := h.addUnnamedRule _ rule
  setBase _ _ _ _ h := h.rescoped (.modifyScope fun _ _ => .of_rules rfl rfl rfl)
  addReference _ _ _ h := h.rescoped (.modifyScope fun s _ => by
    split
    · exact refl_of Scope.Filed s
    · exact .of_rules rfl rfl rfl)
  process _ _ h := h
  declare h := h
  group hs _ h hslotted := h (hslotted.addNested hs.linked _)
  processed {_ e e₁ _ _} d _ _ _ h hrun hslotted := by
    have hfiled := processScope_filed e.nextScope e₁.endConstruction
    rw [hrun] at hfiled
    exact (h (hslotted.opened d)).endConstruction.rescoped hfiled
  unprocessed {_ e e₁ _ _ _} d _ hs₁ _ h hrun hslotted := by
    have hfiled := processScope_filed e.nextScope e₁.endConstruction
    have hproc := hs₁.endConstruction.pending.processScope hs₁.endConstruction
    rw [hrun] at hfiled hproc
    exact ((h (hslotted.opened d)).endConstruction.rescoped hfiled).abandon hproc.linked _ d.key
  failed d event _ hs₁ _ h hslotted :=
    ((h (hslotted.opened d)).endConstruction.abandon hs₁.endConstruction.linked _ d.key).rescoped
      (.report event)

end Engine

end StyleBook
