import StyleBook.Proofs.Engine.Links

namespace StyleBook

/-!
# What naming changes

Finding or making the name of a slot changes the names of a scope and of the scopes it is nested
in, and nothing else of any scope.

* `Scope.Renamed P` — nothing of a scope is changed but its names, and these only under `P`;
* `Engine.ruleName`, `Engine.placeName` — the two steps for a rule of a named kind with a slot;
* `Engine.nameForWithin_steps`, `Engine.assignName_steps` — naming moves an engine along a relation,
  if all its steps do;
* `Engine.nameForWithin_renamed`, `Engine.assignName_renamed` — naming in a scope.
-/

/-- Nothing of the scope is changed but its names; without `P` nothing at all is. -/
structure Scope.Renamed (P : Prop) (s s' : Scope) : Prop where
  eq_names : s' = { s with names := s'.names }
  eq_of_not : ¬ P → s' = s

namespace Scope.Renamed

variable {P : Prop} {s s' : Scope}

instance : IsPreorder Scope (Renamed P) where
  refl _ := ⟨rfl, fun _ => rfl⟩
  trans s s' s'' h h' :=
    { eq_names := by rw [h'.eq_names, h.eq_names]
      eq_of_not := fun hP => (h'.eq_of_not hP).trans (h.eq_of_not hP) }

/-- A weaker condition for changed names. -/
theorem mono {Q : Prop} (h : Renamed P s s') (hPQ : P → Q) : Renamed Q s s' :=
  ⟨h.eq_names, fun hQ => h.eq_of_not fun hP => hQ (hPQ hP)⟩

theorem owner (h : Renamed P s s') : s'.owner = s.owner := by rw [h.eq_names]

theorem rules (h : Renamed P s s') : s'.rules = s.rules := by rw [h.eq_names]

theorem relinked (h : Renamed P s s') : Relinked s s' := by
  have heq := h.eq_names
  exact
    { owner := by rw [heq]
      children := by rw [heq]
      references := by rw [heq]
      settled := by rw [heq]; exact .rfl
      merged := fun _ hm => by rw [heq]; exact hm
      inserted := fun hi => by rw [heq]; exact hi
      listed := fun hl => by rw [heq]; exact hl }

/-- A change of the names. -/
theorem names (hP : P) (s : Scope) (names : Dict String String) :
    Renamed P s { s with names } := ⟨rfl, fun h => absurd hP h⟩

end Scope.Renamed

namespace Engine

variable {e e' : Engine} {id k : ScopeId} {key : Nat} {slot name : String}

/-- A scope that is there is found. -/
theorem requireScope_some {s : Scope} (h : e.scope? id = some s) :
    requireScope id e = (.ok s, e) := by
  unfold requireScope
  rw [h]

/-- A scope that is not there is an error. -/
theorem requireScope_none (h : e.scope? id = none) :
    requireScope id e = (.error .unknownScope, e) := by
  unfold requireScope
  rw [h]

/-- What holds of the first engine holds of the second one. -/
abbrev Sustains (P : Engine → Prop) (e e' : Engine) : Prop := P e → P e'

instance {P : Engine → Prop} : IsPreorder Engine (Sustains P) where
  refl _ h := h
  trans _ _ _ h h' := h' ∘ h

/-- Looking for a scope leaves the engine as it is. -/
theorem requireScope_steps {R : Engine → Engine → Prop} [IsPreorder Engine R] (id : ScopeId)
    (e : Engine) : Steps R (requireScope id) e := by
  unfold Steps
  cases hs : e.scope? id with
  | none =>
    rw [requireScope_none hs]
    exact refl_of R e
  | some s =>
    rw [requireScope_some hs]
    exact refl_of R e

/-- Making a name up changes no scope. -/
theorem Rescoped.generateName {R : ScopeId → Scope → Scope → Prop}
    [∀ k, IsPreorder Scope (R k)] (e : Engine) (scope slot : String) :
    Rescoped R e (generateName scope slot e).2 := by
  refine .of_scopes_eq ?_ ?_ ?_ <;> simp [Engine.generateName]

/-- Where a name comes from that the scope does not have. -/
def foundName (limit : Nat) (s : Scope) (slot : String) : EngineM String :=
  match s.owner with
  | some owner => nameForWithin limit owner slot
  | none => do
    let e ← get
    match ← (e.inheritedWithin slot e.walkLimit s.base : Except Error (Option String)) with
    | some name => pure name
    | none => generateName s.name slot

/-- A name that is missing in a nested scope is looked for in its owner. -/
theorem foundName_some {limit : Nat} {s : Scope} {o : ScopeId} (howner : s.owner = some o) :
    foundName limit s slot = nameForWithin limit o slot := by
  unfold foundName
  rw [howner]

/-- Looking a name up, with the search among owners and bases apart. -/
theorem nameForWithin_succ (limit : Nat) (id : ScopeId) (slot : String) :
    nameForWithin (limit + 1) id slot = (do
      let s ← requireScope id
      match s.nameOf? slot with
      | some name => return name
      | none => do
        let name ← foundName limit s slot
        modify (·.modifyScope id fun s => { s with names := s.names.insert slot name })
        return name) := by
  rw [nameForWithin]
  refine congrArg (requireScope id >>= ·) (funext fun s => ?_)
  unfold foundName
  cases s.nameOf? slot with
  | some name => rfl
  | none =>
    cases s.owner with
    | some owner => rfl
    | none =>
      simp only [bind_assoc]
      refine congrArg (get >>= ·) (funext fun e => congrArg (_ >>= ·) (funext fun found => ?_))
      cases found <;> rfl

/-- An inherited name is read off; only that of an owner and a new one move the engine. -/
theorem foundName_steps {R : Engine → Engine → Prop} [IsPreorder Engine R] {limit : Nat} {s : Scope}
    (howner : ∀ o, s.owner = some o → Steps R (nameForWithin limit o slot) e)
    (hnew : s.owner = none → Steps R (generateName s.name slot) e) :
    Steps R (foundName limit s slot) e := by
  unfold foundName
  cases ho : s.owner with
  | some o => exact howner o ho
  | none =>
    refine .bind (.pure _ e) fun e₀ e₁ h => ?_
    cases h
    cases e.inheritedWithin slot e.walkLimit s.base with
    | error err => exact .throw err e
    | ok found =>
      cases found with
      | some name => exact .pure name e
      | none => exact hnew ho

/-- A name that is inherited or made changes no scope. -/
theorem foundName_none {R : ScopeId → Scope → Scope → Prop} [∀ k, IsPreorder Scope (R k)]
    {limit : Nat} {s : Scope} (howner : s.owner = none) (e : Engine) :
    Steps (Rescoped R) (foundName limit s slot) e :=
  foundName_steps (fun _ ho => nomatch howner.symm.trans ho) fun _ =>
    Rescoped.generateName e s.name slot

/-- **Looking a name up moves an engine along a relation,** if finding it elsewhere does when
    looking it up does, and so does giving a scope a name that it lacked and that was found. -/
theorem nameForWithin_each {R : Engine → Engine → Prop} [IsPreorder Engine R]
    (hfound : ∀ {limit s e}, (∀ o, Steps R (nameForWithin limit o slot) e) →
      Steps R (foundName limit s slot) e)
    (hinsert : ∀ {limit id s name e e₁}, e.scope? id = some s → s.nameOf? slot = none →
      foundName limit s slot e = (.ok name, e₁) → R e e₁ →
        R e (e₁.modifyScope id fun s => { s with names := s.names.insert slot name }))
    (limit : Nat) (id : ScopeId) (e : Engine) : Steps R (nameForWithin limit id slot) e := by
  induction limit generalizing id e with
  | zero => exact .throw _ e
  | succ limit ih =>
    rw [nameForWithin_succ]
    unfold Steps
    cases hs : e.scope? id with
    | none =>
      rw [stateful_bind_error (requireScope_none hs)]
      exact refl_of R e
    | some s =>
      rw [stateful_bind_ok (requireScope_some hs)]
      cases hname : s.nameOf? slot with
      | some name => exact refl_of R e
      | none =>
        -- The name comes from elsewhere, with one step less, and is put in here at last.
        have hstep : Steps R (foundName limit s slot) e := hfound fun o => ih o e
        unfold Steps at hstep
        simp only
        rcases hrun : foundName limit s slot e with ⟨err | name, e₁⟩ <;> rw [hrun] at hstep
        · rw [stateful_bind_error hrun]
          exact hstep
        · rw [stateful_bind_ok hrun]
          exact hinsert hs hname hrun hstep

/-- So it is if making names up and giving scopes names do. -/
theorem nameForWithin_steps {R : Engine → Engine → Prop} [IsPreorder Engine R]
    (hnew : ∀ (scope slot : String) (e : Engine), Steps R (generateName scope slot) e)
    (hinsert : ∀ (k : ScopeId) (name : String) (e : Engine),
      R e (e.modifyScope k fun s => { s with names := s.names.insert slot name }))
    (limit : Nat) (id : ScopeId) (e : Engine) : Steps R (nameForWithin limit id slot) e :=
  nameForWithin_each (fun howner => foundName_steps (fun o _ => howner o) fun _ => hnew _ slot _)
    (fun _ _ _ h => trans_of R h (hinsert _ _ _)) limit id e

/-- **Looking a name up renames the scope and those it is nested in.** -/
theorem nameForWithin_renamed (limit : Nat) (id : ScopeId) (slot : String) (e : Engine) :
    Rescoped (fun k => Scope.Renamed (e.Inside k id)) e (nameForWithin limit id slot e).2 := by
  induction limit generalizing id e with
  | zero => exact .refl e
  | succ limit ih =>
    rw [nameForWithin_succ]
    refine Steps.bind (R := Rescoped fun k => Scope.Renamed (e.Inside k id))
      (requireScope_steps id e) fun s e₀ hreq => ?_
    cases hs : e.scope? id with
    | none => rw [requireScope_none hs] at hreq; cases hreq
    | some s₀ =>
      rw [requireScope_some hs] at hreq
      cases hreq
      -- A name that is known changes nothing; another one is found above, and kept here
      -- afterwards.
      cases hname : s.nameOf? slot with
      | some name => exact .pure name e
      | none =>
        refine Steps.bind (foundName_steps (fun o howner => ?_) fun _ => ?_) fun name e₁ _ =>
          Steps.bind (.modify (.modifyScope fun t _ => .names (.root hs) t _)) fun _ e₂ _ =>
            .pure name e₂
        · exact (ih o e).mono fun k _ _ _ h => h.mono fun hk => .nested hs howner hk
        · exact Rescoped.generateName e s.name slot

/-- A name is known, or it comes from elsewhere and is kept. -/
theorem nameForWithin_ok {limit : Nat} {name : String}
    (h : nameForWithin limit id slot e = (.ok name, e')) : ∃ s, e.scope? id = some s ∧
      ((s.nameOf? slot = some name ∧ e' = e) ∨ (s.nameOf? slot = none ∧ ∃ rest e₁,
        limit = rest + 1 ∧ foundName rest s slot e = (.ok name, e₁) ∧
        e' = e₁.modifyScope id fun s => { s with names := s.names.insert slot name })) := by
  cases limit with
  | zero => cases h
  | succ rest =>
    rw [nameForWithin_succ] at h
    cases hs : e.scope? id with
    | none =>
      rw [stateful_bind_error (requireScope_none hs)] at h
      cases h
    | some s =>
      rw [stateful_bind_ok (requireScope_some hs)] at h
      refine ⟨s, rfl, ?_⟩
      -- With a known name the walk ends here; otherwise it went on with one step less.
      cases hname : s.nameOf? slot with
      | some found =>
        simp only [hname] at h
        cases h
        exact .inl ⟨rfl, rfl⟩
      | none =>
        simp only [hname] at h
        rcases hrun : foundName rest s slot e with ⟨err | found, e₁⟩
        · rw [stateful_bind_error hrun] at h
          cases h
        · rw [stateful_bind_ok hrun] at h
          cases h
          exact .inr ⟨rfl, rest, e₁, rfl, hrun, rfl⟩

/-! ### One rule -/

/-- The name that a rule gets: one that it spells, or that of its slot. -/
def ruleName (id : ScopeId) (slot : String) : Option String → EngineM String
  | some name => do
    modify (·.modifyScope id fun s => { s with names := s.names.insert slot name })
    pure name
  | none => nameFor id slot

/-- A name is put into the place of a rule, which has one. -/
def placeName (cell : Option Nat) (name slot : String) : EngineM Unit :=
  match cell with
  | some cell => fillCell cell name slot
  | none => throw .unknownScope

/-- **The step for a rule of a named kind with a slot:** it gets its name, which is put into its
    place. -/
theorem assignName_slotted {rule : Rule} (hr : e.rule? id key = some rule)
    (hslot : rule.slot = some slot) (hkind : rule.kind.isNamed = true) :
    assignName id key e =
      (ruleName id slot rule.explicitName >>= fun name => placeName rule.cell name slot) e := by
  unfold assignName
  rw [stateful_bind, stateful_get]
  simp only [hr, hslot, hkind]
  unfold ruleName
  cases rule.explicitName <;> rfl

/-- For other rules nothing happens. -/
theorem assignName_idle {rule : Rule} (hr : e.rule? id key = some rule)
    (h : rule.slot = none ∨ rule.kind.isNamed = false) : assignName id key e = (.ok (), e) := by
  unfold assignName
  rw [stateful_bind, stateful_get]
  simp only [hr]
  rcases h with hslot | hkind
  · rw [hslot]
    rfl
  · rw [hkind]
    cases rule.slot <;> rfl

/-- There is no such rule. -/
theorem assignName_missing (hr : e.rule? id key = none) :
    assignName id key e = (.error .unknownScope, e) := by
  unfold assignName
  rw [stateful_bind, stateful_get]
  simp only [hr]
  rfl

/-- A step for a rule names it, or nothing happens. -/
theorem assignName_each {R : Engine → Engine → Prop} [IsPreorder Engine R]
    (hname : ∀ rule slot, e.rule? id key = some rule → rule.slot = some slot →
      rule.kind.isNamed = true → Steps R (ruleName id slot rule.explicitName) e)
    (hplace : ∀ rule name slot e₁, e.rule? id key = some rule → R e e₁ →
      Steps R (placeName rule.cell name slot) e₁) :
    Steps R (assignName id key) e := by
  unfold Steps
  cases hr : e.rule? id key with
  | none =>
    rw [assignName_missing hr]
    exact refl_of R e
  | some rule =>
    -- A rule is named if it has a slot and is of a kind with names.
    cases hslot : rule.slot with
    | none =>
      rw [assignName_idle hr (.inl hslot)]
      exact refl_of R e
    | some slot =>
      cases hkind : rule.kind.isNamed with
      | false =>
        rw [assignName_idle hr (.inr hkind)]
        exact refl_of R e
      | true =>
        rw [assignName_slotted hr hslot hkind]
        have hnamed := hname rule slot hr hslot hkind
        refine Steps.bind hnamed fun name e₁ hrun => hplace rule name slot e₁ hr ?_
        unfold Steps at hnamed
        rwa [hrun] at hnamed

/-- So it moves an engine along a relation, if naming does and filling any place does. -/
theorem assignName_steps {R : Engine → Engine → Prop} [IsPreorder Engine R]
    (hname : ∀ rule slot, e.rule? id key = some rule → rule.slot = some slot →
      rule.kind.isNamed = true → Steps R (ruleName id slot rule.explicitName) e)
    (hplace : ∀ cell name slot e₁, Steps R (placeName cell name slot) e₁) :
    Steps R (assignName id key) e :=
  assignName_each hname fun _ name slot e₁ _ _ => hplace _ name slot e₁

/-- What is done to a slot's cell changes no scope. -/
theorem Rescoped.fillCell {R : ScopeId → Scope → Scope → Prop} [∀ k, IsPreorder Scope (R k)]
    (e : Engine) (cell : Nat) (name slot : String) :
    Rescoped R e (fillCell cell name slot e).2 := by
  unfold Engine.fillCell
  cases e.cells.get? cell with
  | some _ => exact .refl e
  | none => exact .of_scopes_eq rfl rfl rfl

/-- **Naming a rule renames its scope and those that scope is nested in.** -/
theorem assignName_renamed (id : ScopeId) (key : Nat) (e : Engine) :
    Rescoped (fun k => Scope.Renamed (e.Inside k id)) e (assignName id key e).2 := by
  refine assignName_steps (R := Rescoped fun k => Scope.Renamed (e.Inside k id))
    (fun rule slot hr _ _ => ?_) fun cell name slot e₁ => ?_
  · obtain ⟨s, hs, -⟩ := Option.bind_eq_some_iff.mp hr
    cases rule.explicitName with
    | some name =>
      exact .bind (.modify (.modifyScope fun t _ => .names (.root hs) t _)) fun _ e₁ _ =>
        .pure name e₁
    | none => exact nameForWithin_renamed _ id slot e
  · cases cell with
    | some cell => exact Rescoped.fillCell e₁ cell name slot
    | none => exact .throw _ e₁

end Engine

end StyleBook
