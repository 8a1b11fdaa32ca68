import StyleBook.Proofs.Engine.Activation
import StyleBook.Proofs.Engine.Processing

namespace StyleBook

/-!
# What processing and activation leave alone

Merging rules, and activating and deactivating scopes, changes scopes and what conversions share.
Names, definitions and ids are left alone. Processing scopes also gives names.

* `Engine.Touched` — nothing of an engine is changed but its scopes and what conversions share;
* `Engine.mergeAt_touched`, `Engine.activate_touched`, `Engine.deactivate_touched` — this holds
  across each of them, whether it succeeds or not;
* `Engine.Undisturbed` — the same definitions have scopes, and the same ones are declaring;
  `Engine.processScope_undisturbed` — so it is across processing, and `Engine.addRule_undisturbed`,
  `Engine.addNested_undisturbed` — across declaring.
-/

namespace Engine

/-- Nothing of the engine is changed but its scopes and what conversions share. -/
def Touched (e e' : Engine) : Prop := e' = { e with scopes := e'.scopes, ambient := e'.ambient }

variable {e e' : Engine} {id : ScopeId} {key : Nat}

namespace Touched

instance : IsPreorder Engine Touched where
  refl _ := rfl
  trans e e' e'' h h' := by
    unfold Touched at h h' ⊢
    rw [h', h]

theorem naming (h : Touched e e') : e'.naming = e.naming := by rw [h]

theorem cells (h : Touched e e') : e'.cells = e.cells := by rw [h]

theorem constructing (h : Touched e e') : e'.constructing = e.constructing := by rw [h]

theorem modifyScope (f : Scope → Scope) : Touched e (e.modifyScope id f) := by
  unfold Engine.modifyScope
  cases e.scope? id <;> rfl

theorem report (event : Event) : Touched e (e.report event) := rfl

theorem reportAll (events : List Event) : Touched e (e.reportAll events) := by
  induction events generalizing e with
  | nil => rfl
  | cons event rest ih => exact trans_of Touched (report event) ih

theorem setMerged (styles : Styleset) : Touched e (e.setMerged id key styles) := by
  unfold Engine.setMerged
  cases e.rule? id key with
  | none => rfl
  | some rule => exact .modifyScope _

end Touched

/-! ### Merging -/

/-- Merging touches the engine. -/
theorem mergeWithin_touched (idle : List (ScopeId × Nat)) (id : ScopeId) (key : Nat) (e : Engine) :
    Touched e (mergeWithin idle id key e).2 :=
  mergeWithin_steps (R := Touched) (fun event _ => .report event)
    (fun m h _ _ _ => trans_of Touched h (.setMerged m)) idle id key e

/-- **So does the step that merges a rule.** -/
theorem mergeAt_touched (id : ScopeId) (key : Nat) (e : Engine) :
    Touched e (mergeAt id key e).2 :=
  mergeAt_cases (P := Touched e) (refl_of Touched e) fun _ _ _ _ =>
    trans_of Touched (mergeWithin_touched e.allRules id key e) (.setMerged _)

/-! ### Discarding -/

/-- Scopes that are discarded one after the other change nothing else, if each of them does not. -/
theorem foldl_discardWithin_eq {limit : Nat} (hdiscard : ∀ id e,
      discardWithin limit id e = { e with scopes := (discardWithin limit id e).scopes })
    (list : List ScopeId) (e : Engine) :
    list.foldl (fun e child => discardWithin limit child e) e =
      { e with scopes := (list.foldl (fun e child => discardWithin limit child e) e).scopes } := by
  induction list generalizing e with
  | nil => rfl
  | cons child rest ih => rw [List.foldl_cons, ih, hdiscard child e]

/-- Discarding changes nothing but scopes. -/
theorem discardWithin_eq (limit : Nat) (id : ScopeId) (e : Engine) :
    discardWithin limit id e = { e with scopes := (discardWithin limit id e).scopes } := by
  induction limit generalizing id e with
  | zero => rfl
  | succ limit ih =>
    rw [discardWithin]
    cases e.scope? id with
    | none => rfl
    | some s => exact foldl_discardWithin_eq ih s.children _

/-- Discarding the scope of a definition changes nothing but scopes and its entry. -/
theorem abandon_eq (id : ScopeId) (key : Nat) (e : Engine) :
    e.abandon id key = { e with
      scopes := (e.abandon id key).scopes, singletons := (e.abandon id key).singletons } := by
  unfold abandon
  simp only
  split <;> rw [discard, discardWithin_eq]

/-- Giving a scope up withdraws a type's entry if it is that scope. -/
theorem abandon_singletons (id : ScopeId) (key : Nat) (e : Engine) :
    (e.abandon id key).singletons =
      if e.singletons.get? key = some id then e.singletons.erase key else e.singletons := by
  unfold abandon
  simp only
  split <;> rw [discard, discardWithin_eq]

/-- It hands out no name and takes none back. -/
theorem abandon_naming (id : ScopeId) (key : Nat) (e : Engine) :
    (e.abandon id key).naming = e.naming := by rw [abandon_eq]

/-- Giving a scope up leaves the stack of definitions alone. -/
theorem abandon_constructing (id : ScopeId) (key : Nat) (e : Engine) :
    (e.abandon id key).constructing = e.constructing := by rw [abandon_eq]

/-! ### Activation -/

variable {σ : Type}

/-- The engine is touched, whatever happens to the sink. -/
abbrev TouchedState (s s' : Engine × σ) : Prop := Touched s.1 s'.1

instance : IsPreorder (Engine × σ) TouchedState where
  refl s := refl_of Touched s.1
  trans _ _ _ := trans_of Touched

variable [Sink σ]

omit [Sink σ] in
/-- Releasing scopes touches the engine, if releasing each of them does. -/
theorem deactivateEach_touched {release : ScopeId → ActiveM σ Unit}
    (hrelease : ∀ r s, Steps TouchedState (release r) s) (list : List ScopeId) (s : Engine × σ) :
    Steps TouchedState (deactivateEach release list) s := by
  induction list generalizing s with
  | nil => exact .pure _ s
  | cons r rest ih =>
    rw [deactivateEach_cons]
    exact .bind (hrelease r s) fun _ s₁ _ => ih s₁

/-- **Releasing a scope** changes scopes and the log only. -/
theorem deactivateWithin_touched (limit : Nat) (id : ScopeId) (s : Engine × σ) :
    Steps TouchedState (deactivateWithin limit id) s := by
  induction limit generalizing id s with
  | zero => exact .throw _ s
  | succ limit ih =>
    obtain ⟨e, sink⟩ := s
    unfold Steps
    cases hs : e.scope? id with
    | none => rw [deactivateWithin_unknown hs]; exact refl_of Touched e
    | some t =>
      match hu : t.users with
      | 0 =>
        rw [deactivateWithin_idle hs hu]
        exact .report _
      | 1 =>
        rw [deactivateWithin_last hs hu]
        -- The text is removed from the sink, which is not part of the engine.
        have hclear : Touched e (e.clear id t) := trans_of Touched (.modifyScope _) (.report _)
        exact trans_of Touched hclear
          (deactivateEach_touched ih _ (e.clear id t, Sink.remove id sink))
      | users + 2 =>
        rw [deactivateWithin_shared hs hu]
        exact trans_of Touched (.modifyScope _) (.report _)

/-- **Deactivating touches the engine.** -/
theorem deactivate_touched (id : ScopeId) (s : Engine × σ) : TouchedState s (deactivate id s).2 :=
  deactivateWithin_touched s.1.walkLimit id s

/-- So does rolling back. -/
theorem rollBack_touched (list : List ScopeId) (s : Engine × σ) :
    Steps TouchedState (rollBack list) s := by
  induction list generalizing s with
  | nil => exact .pure _ s
  | cons r rest ih =>
    have hr := deactivate_touched r s
    unfold Steps
    rw [rollBack_cons]
    rcases hd : deactivate r s with ⟨err | ⟨⟩, e₁, sink₁⟩ <;> rw [hd] at hr
    · exact trans_of Touched (trans_of Touched hr (.report _)) (ih (e₁.report _, sink₁))
    · exact trans_of Touched hr (ih (e₁, sink₁))

/-- Activating scopes touches the engine, if activating each of them does. -/
theorem activateEach_touched {activate : ScopeId → ActiveM σ Unit}
    (hactivate : ∀ r s, Steps TouchedState (activate r) s) (list done : List ScopeId)
    (s : Engine × σ) : Steps TouchedState (activateEach activate done list) s := by
  induction list generalizing done s with
  | nil => exact .pure _ s
  | cons r rest ih =>
    have hr : TouchedState s (activate r s).2 := hactivate r s
    unfold Steps
    rw [activateEach_cons]
    rcases ha : activate r s with ⟨err | ⟨⟩, s₁⟩ <;> rw [ha] at hr
    · exact trans_of TouchedState hr (rollBack_touched done s₁)
    · exact trans_of TouchedState hr (ih (r :: done) s₁)

/-- **Activating a scope** changes scopes and the log only. -/
theorem activateWithin_touched (limit : Nat) (id : ScopeId) (s : Engine × σ) :
    Steps TouchedState (activateWithin limit id) s := by
  induction limit generalizing id s with
  | zero => exact .throw _ s
  | succ limit ih =>
    obtain ⟨e, sink⟩ := s
    unfold Steps
    cases hs : e.scope? id with
    | none => rw [activateWithin_unknown hs]; exact refl_of Touched e
    | some t =>
      match hu : t.users with
      | users + 1 =>
        rw [activateWithin_shared hs hu]
        exact trans_of Touched (.modifyScope _) (.report _)
      | 0 =>
        rw [activateWithin_first hs hu]
        rcases e.serialize id e.ambient with ⟨err | texts, ambient⟩
        · exact (rfl : Touched e { e with ambient })
        -- Writing moves the ambient state on; the rest activates references, and changes the scope.
        · have hrest : Steps TouchedState (inserting limit id t texts)
            ({ e with ambient }, sink) := by
            unfold inserting
            refine .bind (activateEach_touched ih _ _ _) fun _ s₁ _ => ?_
            refine .bind (refl_of Touched s₁.1) fun _ s₂ _ => ?_
            refine .bind ?_ fun _ s₃ _ => trans_of Touched (.modifyScope _) (.report _)
            show Touched s₂.1 (requireScope id s₂.1).2
            cases h₂ : s₂.1.scope? id with
            | none => rw [requireScope_none h₂]; exact refl_of Touched s₂.1
            | some u => rw [requireScope_some h₂]; exact refl_of Touched s₂.1
          exact trans_of Touched (rfl : Touched e { e with ambient }) hrest

/-- **Activating touches the engine.** -/
theorem activate_touched (id : ScopeId) (s : Engine × σ) : TouchedState s (activate id s).2 :=
  activateWithin_touched s.1.walkLimit id s

/-! ### Processing -/

/-- The same definitions have scopes, and the same ones are declaring. -/
structure Undisturbed (e e' : Engine) : Prop where
  singletons : e'.singletons = e.singletons
  constructing : e'.constructing = e.constructing

instance : IsPreorder Engine Undisturbed where
  refl _ := ⟨rfl, rfl⟩
  trans _ _ _ h h' := ⟨h'.singletons.trans h.singletons, h'.constructing.trans h.constructing⟩

theorem Touched.undisturbed (h : Touched e e') : Undisturbed e e' := ⟨by rw [h], h.constructing⟩

/-- Making a name up gives no definition a scope. -/
theorem generateName_undisturbed (scope slot : String) (e : Engine) :
    Steps Undisturbed (generateName scope slot) e := by
  let g := e.naming.generate scope slot
  have hnaming : Undisturbed e { e with naming := g.naming } := ⟨rfl, rfl⟩
  exact trans_of Undisturbed hnaming (Touched.reportAll (g.events scope slot)).undisturbed

/-- Nor does looking a name up, whether it is found above or is made up. -/
theorem nameForWithin_undisturbed (limit : Nat) (id : ScopeId) (slot : String) (e : Engine) :
    Steps Undisturbed (nameForWithin limit id slot) e :=
  nameForWithin_steps generateName_undisturbed (fun _ _ _ => (Touched.modifyScope _).undisturbed)
    limit id e

/-- Nor does putting a name in its place. -/
theorem placeName_undisturbed (cell : Option Nat) (name slot : String) (e : Engine) :
    Steps Undisturbed (placeName cell name slot) e := by
  cases cell with
  | none => exact .throw _ e
  | some cell =>
    -- A cell may be full already, and then the name is refused.
    show Undisturbed e (fillCell cell name slot e).2
    unfold fillCell
    cases e.cells.get? cell <;> exact ⟨rfl, rfl⟩

theorem assignName_undisturbed (id : ScopeId) (key : Nat) (e : Engine) :
    Steps Undisturbed (assignName id key) e := by
  refine assignName_steps (fun rule slot _ _ _ => ?_) placeName_undisturbed
  cases rule.explicitName with
  | some name =>
    exact .bind (.modify (Touched.modifyScope _).undisturbed) fun _ e₁ _ => .pure name e₁
  | none => exact nameForWithin_undisturbed _ id slot e

/-- **Processing a scope** leaves it to calls which definitions have scopes and are declaring. -/
theorem processWithin_undisturbed (limit : Nat) (id : ScopeId) (e : Engine) :
    Steps Undisturbed (processWithin limit id) e :=
  processWithin_steps assignName_undisturbed
    (fun id key e => (mergeAt_touched id key e).undisturbed)
    (fun _ _ => (Touched.modifyScope _).undisturbed)
    (fun _ _ => (Touched.modifyScope _).undisturbed) (fun _ _ => ⟨rfl, rfl⟩) limit id e

/-- **Processing a scope disturbs no definition that is declaring.** -/
theorem processScope_undisturbed (id : ScopeId) (e : Engine) : Undisturbed e
    (processScope id e).2 :=
  processWithin_undisturbed e.walkLimit id e

/-! ### Declaring -/

theorem newCell_undisturbed (e : Engine) : Undisturbed e e.newCell.2 := ⟨rfl, rfl⟩

/-- Declaring a rule under a slot. -/
theorem addRule_undisturbed (id : ScopeId) (slot : String) (rule : Rule) (e : Engine) :
    Steps Undisturbed (addRule id slot rule) e := by
  unfold addRule
  refine .bind (requireScope_steps id e) fun s e₁ _ => ?_
  cases s.named.get? slot with
  | some key =>
    refine .bind (.modify (Touched.modifyScope _).undisturbed) fun _ e₂ _ => ?_
    exact .bind (.modify ⟨rfl, rfl⟩) fun _ e₃ _ => .pure _ e₃
  | none =>
    refine .bind (newCell_undisturbed e₁) fun cell e₂ _ => ?_
    exact .bind (.modify (Touched.modifyScope _).undisturbed) fun _ e₃ _ => .pure _ e₃

/-- Declaring a rule without a slot. -/
theorem addUnnamedRule_undisturbed (id : ScopeId) (rule : Rule) (e : Engine) :
    Steps Undisturbed (addUnnamedRule id rule) e := by
  unfold addUnnamedRule
  refine .bind (requireScope_steps id e) fun s e₁ _ => ?_
  refine .bind (newCell_undisturbed e₁) fun cell e₂ _ => ?_
  exact .bind (.modify (Touched.modifyScope _).undisturbed) fun _ e₃ _ => .pure _ e₃

/-- Nesting a scope. -/
theorem addNested_undisturbed (id : ScopeId) (e : Engine) : Steps Undisturbed (addNested id) e := by
  unfold addNested
  refine .bind (requireScope_steps id e) fun s e₁ _ => ?_
  refine .bind (show Undisturbed e₁ _ from ⟨rfl, rfl⟩) fun child e₂ _ => ?_
  exact .bind (.modify (Touched.modifyScope _).undisturbed) fun _ e₃ _ => .pure _ e₃

end Engine

end StyleBook
