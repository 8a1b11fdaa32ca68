import StyleBook.Proofs.Scope.Vacancies

namespace StyleBook

/-!
# Names while a scope is processed that extends another one

A scope that extends another one takes over its names, also for slots that only the scopes nested in
it declare: they ask for the name there. Rules that are to get no name leave their places empty.

* `Engine.Heir` — a scope has the name of a slot from the one that it extends, or none yet;
* `Engine.Heir.processScope` — it gets no other one, whatever is processed;
* `Engine.Nameless` — a rule gets no name; `Engine.Nameless.processScope` — so it stays.
-/

namespace Engine

variable {e e' : Engine} {c b k : ScopeId} {slot name : String} {key cell : Nat}

/-! ### Names that are taken over -/

/-- **The scope `k` extends `b`, and has no name for the slot but the one there.** No rule of the
    scope spells one, and those of `b` spell none but this. -/
structure Heir (b : ScopeId) (slot name : String) (k : ScopeId) (e : Engine) : Prop where
  base : ∃ t, e.scope? b = some t ∧ t.nameOf? slot = some name ∧
    ∀ other, t.Spells slot other → other = name
  heir : ∃ s, e.scope? k = some s ∧ s.owner = none ∧ s.base = some b ∧
    (∀ other, ¬ s.Spells slot other) ∧ ∀ other, s.nameOf? slot = some other → other = name

namespace Heir

/-- A change that spares names and what names depend on. -/
theorem spared (h : Heir b slot name k e) (hr : Rescoped (fun _ => Scope.Resourced False) e e') :
    Heir b slot name k e' := by
  obtain ⟨t, ht, hname, hspelled⟩ := h.base
  obtain ⟨s, hs, howner, hbase, hspells, hother⟩ := h.heir
  obtain ⟨t', ht', hT⟩ := hr.scope ht
  obtain ⟨s', hs', hS⟩ := hr.scope hs
  refine ⟨⟨t', ht', (hT.nameOf? not_false slot).trans hname, fun other ho => ?_⟩,
    ⟨s', hs', hS.owner.trans howner, hS.base.trans hbase, fun other ho => ?_, fun other ho => ?_⟩⟩
  · exact hspelled other (hT.spells.mp ho)
  · exact hspells other (hS.spells.mp ho)
  · exact hother other ((hS.nameOf? not_false slot).symm.trans ho)

/-- One more name, if it is no other one for the slot in the two scopes. -/
theorem insertName {slot' name' : String} (h : Heir b slot name k e)
    (hsame : c = b ∨ c = k → slot' = slot → name' = name) : Heir b slot name k
      (e.modifyScope c fun s => { s with names := s.names.insert slot' name' }) := by
  -- A name that was right stays so, and the new one is right.
  have hkeeps : ∀ {s : Scope}, c = b ∨ c = k → ∀ other,
      ({ s with names := s.names.insert slot' name' } : Scope).nameOf? slot = some other →
        s.nameOf? slot = some other ∨ other = name := fun hc other ho => by
    rw [Scope.nameOf?_insert] at ho
    split at ho
    · next heq => exact .inr ((Option.some.inj ho).symm.trans (hsame hc heq.symm))
    · exact .inl ho
  have hr : Rescoped (fun j s s' => Scope.Renamed True s s' ∧ (s' = s ∨ c = j ∧
      s' = { s with names := s.names.insert slot' name' })) e
      (e.modifyScope c fun s => { s with names := s.names.insert slot' name' }) := by
    refine ⟨keys_modifyScope _, fun {j s} hs => ?_, singletons_modifyScope _, ?_⟩
    · by_cases hj : j = c
      · subst hj
        exact ⟨_, scope?_modifyScope_self _ hs, .names trivial s _, .inr ⟨rfl, rfl⟩⟩
      · exact ⟨s, by rw [scope?_modifyScope_of_ne _ hj, hs], refl_of (Scope.Renamed True) s,
          .inl rfl⟩
    · exact congrArg (·.nextScope) (Touched.modifyScope _)
  obtain ⟨t, ht, hname, hspelled⟩ := h.base
  obtain ⟨s, hs, howner, hbase, hspells, hother⟩ := h.heir
  obtain ⟨t', ht', hT, htcases⟩ := hr.scope ht
  obtain ⟨s', hs', hS, hscases⟩ := hr.scope hs
  refine ⟨⟨t', ht', ?_, fun other ho => hspelled other (hT.resourced.spells.mp ho)⟩,
    ⟨s', hs', hS.owner.trans howner, hS.resourced.base.trans hbase,
      fun other ho => hspells other (hS.resourced.spells.mp ho), fun other ho => ?_⟩⟩
  · rcases htcases with rfl | ⟨hc, rfl⟩
    · exact hname
    · rw [Scope.nameOf?_insert]
      split
      · next heq => rw [hsame (.inl hc) heq.symm]
      · exact hname
  · rcases hscases with rfl | ⟨hc, rfl⟩
    · exact hother other ho
    · exact (hkeeps (.inr hc) other ho).elim (hother other) id

/-- The heir finds the name. -/
theorem found (h : Heir b slot name k e) {s : Scope} (hs : e.scope? k = some s) (limit : Nat) :
    foundName limit s slot e = (.ok name, e) := by
  obtain ⟨t, ht, hname, -⟩ := h.base
  obtain ⟨s', hs', howner, hbase, -⟩ := h.heir
  cases hs.symm.trans hs'
  have hinherited : e.inheritedWithin slot e.walkLimit s.base = .ok (some name) := by
    unfold walkLimit
    rw [hbase, inheritedWithin]
    simp only [ht, hname]
  unfold foundName
  simp only [howner, stateful_bind, stateful_get, hinherited]
  rfl

/-- **Finding or making a name** makes no other one for the slot. -/
theorem nameForWithin {slot' : String} (h : Heir b slot name k e) (limit : Nat) (c : ScopeId) :
    Heir b slot name k (nameForWithin limit c slot' e).2 := by
  refine nameForWithin_each (R := Sustains (Heir b slot name k)) (fun howner => foundName_steps
    (fun o _ => howner o) fun _ h => h.spared (Rescoped.generateName _ _ _))
    (fun {limit c s name' e e₁} hs hnew hrun hfound h => (hfound h).insertName ?_) limit c e h
  -- The name is put in for this very slot: in the scope that is extended, or in the heir.
  rintro (rfl | rfl) rfl
  · -- The extended scope has the name, so it does not look for one.
    obtain ⟨t, ht, hname, -⟩ := h.base
    cases hs.symm.trans ht
    cases hnew.symm.trans hname
  · rw [h.found hs limit] at hrun
    cases hrun
    rfl

/-- **Naming a rule** makes no other one. -/
theorem assignName (h : Heir b slot name k e) (c : ScopeId) (key : Nat) :
    Heir b slot name k (assignName c key e).2 := by
  refine assignName_steps (R := Sustains (Heir b slot name k))
    (fun rule slot' hr hslot hkind h => ?_) (fun cell other slot' e₁ h => ?_) h
  · cases hexplicit : rule.explicitName with
    | none => exact h.nameForWithin e.walkLimit c
    -- A name that a rule spells goes to its own scope. The heir has no such rule, and those of the
    -- other scope spell this name.
    | some spelled =>
      obtain ⟨u, hu, hkey⟩ := rule?_eq_some_iff.mp hr
      have hspells : u.Spells slot' spelled :=
        ⟨rule, List.mem_of_getElem? hkey, hslot, hkind, hexplicit⟩
      refine h.insertName ?_
      rintro (rfl | rfl) rfl
      · obtain ⟨t, ht, -, hspelled⟩ := h.base
        cases hu.symm.trans ht
        exact hspelled spelled hspells
      · obtain ⟨s, hs, -, -, hnone, -⟩ := h.heir
        cases hu.symm.trans hs
        exact absurd hspells (hnone spelled)
  · refine h.spared ?_
    cases cell with
    | none => exact .refl e₁
    | some cell => exact Rescoped.fillCell e₁ cell other slot'

/-- **Whatever is processed,** the scope gets no other name for the slot. -/
theorem processScope (h : Heir b slot name k e) (c : ScopeId) :
    Heir b slot name k (processScope c e).2 :=
  processWithin_steps (R := Sustains (Heir b slot name k))
    (fun c key _ h => h.assignName c key)
    (fun c key e h => h.spared <|
      (mergeAt_remerged c key e).mono fun _ _ _ _ hR => hR.resourced)
    (fun _ _ h => h.spared <| .modifyScope fun _ _ => .of_rules rfl rfl rfl rfl rfl rfl rfl id)
    (fun _ _ h => h.spared <| .modifyScope fun _ _ =>
      .of_rules rfl rfl rfl rfl rfl rfl rfl fun _ => by simp [Scope.Settled])
    (fun event _ h => h.spared (.report event)) e.walkLimit c e h

end Heir

/-! ### Rules without names -/

/-- **The rule gets no name:** it has no slot, or is of a kind without names. Its place is empty. -/
structure Nameless (k : ScopeId) (key cell : Nat) (e : Engine) : Prop where
  indexed : Indexed e
  rule : ∃ r, e.rule? k key = some r ∧ r.cell = some cell ∧
    (r.slot = none ∨ r.kind.isNamed = false)
  empty : e.cells.get? cell = none

namespace Nameless

/-- A change that fills no place, and rules only in what they inherit. -/
theorem spared (h : Nameless k key cell e) (hr : Rescoped (fun _ => Scope.Reindexed) e e')
    (hrule : ∀ {r}, e.rule? k key = some r → ∃ r', e'.rule? k key = some r' ∧ r.Remerged r')
    (ht : Touched e e') : Nameless k key cell e' := by
  obtain ⟨r, hrk, hcell, hidle⟩ := h.rule
  obtain ⟨r', hrk', hR⟩ := hrule hrk
  refine ⟨h.indexed.rescoped hr (by rw [ht]), ⟨r', hrk', ?_⟩, by rw [ht]; exact h.empty⟩
  rcases hR with rfl | ⟨-, -, m, rfl⟩ <;> exact ⟨hcell, hidle⟩

/-- A rule that gets a name is another one. -/
theorem assignName (h : Nameless k key cell e) (c : ScopeId) (key' : Nat) :
    Nameless k key cell (assignName c key' e).2 := by
  have hfills := assignName_fillsOnly c key' e
  obtain ⟨r, hr, hcell, hidle⟩ := h.rule
  refine ⟨h.indexed.rescoped (hfills.scopes.mono fun _ _ _ _ hR => hR.reindexed)
    hfills.nextCell.ge, ⟨r, (hfills.rule?_eq k key).trans hr, hcell, hidle⟩, ?_⟩
  by_cases hheld : e.HeldAt c key' cell
  · obtain ⟨q, hq, hc⟩ := hheld
    obtain ⟨rfl, rfl⟩ := h.indexed.own hr hq (hc.trans hcell.symm)
    rw [assignName_idle hr hidle]
    exact h.empty
  · rw [hfills.cells hheld]
    exact h.empty

/-- A change of a scope, but not of its rules. -/
theorem modifyScope {f : Scope → Scope} (h : Nameless k key cell e)
    (hf : ∀ s : Scope, s.Reindexed (f s) ∧ (f s).rules = s.rules) :
    Nameless k key cell (e.modifyScope c f) := by
  have hrules : Rescoped (fun _ s s' => s'.rules = s.rules) e (e.modifyScope c f) :=
    .modifyScope fun s _ => (hf s).2
  exact h.spared (.modifyScope fun s _ => (hf s).1)
    (fun hr => ⟨_, (hrules.rule?_eq (fun _ _ _ h => h) k key).trans hr, .inl rfl⟩) (.modifyScope f)

/-- **Whatever is processed,** the place of the rule stays empty. -/
theorem processScope (h : Nameless k key cell e) (c : ScopeId) :
    Nameless k key cell (processScope c e).2 :=
  processWithin_steps (R := Sustains (Nameless k key cell))
    (fun c key' _ h => h.assignName c key')
    (fun c key' e h => h.spared
      ((mergeAt_remerged c key' e).mono fun _ _ _ _ hR => hR.reindexed)
      (mergeAt_remerged c key' e).rule?_some (mergeAt_touched c key' e))
    (fun _ _ h => h.modifyScope fun _ => ⟨.of_rules rfl rfl rfl rfl, rfl⟩)
    (fun _ _ h => h.modifyScope fun _ => ⟨.of_rules rfl rfl rfl rfl, rfl⟩)
    (fun event _ h => h.spared (.report event) (fun hr => ⟨_, hr, .inl rfl⟩) (.report event))
    e.walkLimit c e h

end Nameless

end Engine

end StyleBook
