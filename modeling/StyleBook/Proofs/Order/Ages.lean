import Mathlib.Data.List.Infix
import StyleBook.Proofs.Name.RuleNames
import StyleBook.Proofs.Name.Slots

namespace StyleBook

/-!
# What only grows

While definitions declare and are processed, numbers are taken and events are reported; the policy
of naming, the units and all that conversions share stay as they are.

* `Engine.Ages` — numbers and events may have been added;
* `Engine.ages_stepwise` — that is so across every step of building;
* `Naming.generate_readable`, `Naming.reserve_cases` — as long as no number is taken, readable names
  are made of the scope and the slot, and scopes get the names that were asked for.
-/

namespace Naming

variable {n : Naming}

theorem generate_mode (n : Naming) (scope slot : String) :
    (n.generate scope slot).naming.mode = n.mode := by
  unfold generate
  cases n.mode with
  | readable =>
    dsimp only
    split <;> rfl
  | optimized => rfl

theorem reserve_mode (name : String) (multiplex : Bool) (n : Naming) :
    (n.reserve name multiplex).2.mode = n.mode := by
  unfold reserve
  split <;> rfl

/-- A readable name is plain, or a number is taken. -/
theorem generate_readable (h : n.mode = .readable) (scope slot : String) :
    (n.generate scope slot).name = scope ++ "_" ++ slot ∧
    (n.generate scope slot).naming.nextId = n.nextId ∧
        scope ++ "_" ++ slot ∉ n.used ∨
      n.nextId < (n.generate scope slot).naming.nextId ∧ scope ++ "_" ++ slot ∈ n.used := by
  unfold generate
  rw [h]
  dsimp only
  split
  · exact .inr ⟨by dsimp only; omega, ‹_›⟩
  · exact .inl ⟨rfl, rfl, ‹_›⟩

theorem generate_nextId (n : Naming) (scope slot : String) :
    n.nextId ≤ (n.generate scope slot).naming.nextId := by
  unfold generate
  cases n.mode with
  | readable =>
    dsimp only
    split
    · dsimp only; omega
    · exact le_rfl
  | optimized => dsimp only; omega

/-- The name of a scope is the one that was asked for, or a number is taken. -/
theorem reserve_cases (name : String) (multiplex : Bool) (n : Naming) :
    (n.reserve name multiplex).1 = name ∧ (n.reserve name multiplex).2.nextId = n.nextId ∨
      n.nextId < (n.reserve name multiplex).2.nextId ∧
      (multiplex = true ∨ name ∈ n.scopeNames) := by
  unfold reserve
  split
  · next h => exact .inr ⟨by dsimp only; omega, by simpa using h⟩
  · exact .inl ⟨rfl, rfl⟩

theorem reserve_nextId (name : String) (multiplex : Bool) (n : Naming) :
    n.nextId ≤ (n.reserve name multiplex).2.nextId := by
  rcases reserve_cases name multiplex n with ⟨-, heq⟩ | ⟨hlt, -⟩
  · exact heq.ge
  · exact hlt.le

end Naming

namespace Engine

variable {e e' : Engine} {id : ScopeId} {key : Nat} {roots : List ScopeId}

/-- **Numbers and events may have been added,** and settings are as they were. -/
structure Ages (e e' : Engine) : Prop where
  mode : e'.naming.mode = e.naming.mode
  nextId : e.naming.nextId ≤ e'.naming.nextId
  events : e.ambient.events <:+ e'.ambient.events
  units : e'.ambient.units = e.ambient.units
  asked : e'.ambient.asked = e.ambient.asked
  supports : e'.supports = e.supports
  catalog : e'.catalog = e.catalog

instance : IsPreorder Engine Ages where
  refl _ := ⟨rfl, le_rfl, List.suffix_rfl, rfl, rfl, rfl, rfl⟩
  trans _ _ _ h h' := ⟨h'.mode.trans h.mode, h.nextId.trans h'.nextId, h.events.trans h'.events,
    h'.units.trans h.units, h'.asked.trans h.asked, h'.supports.trans h.supports,
    h'.catalog.trans h.catalog⟩

namespace Ages

/-- A change of something else. -/
theorem of_eq (hnaming : e'.naming = e.naming) (hambient : e'.ambient = e.ambient)
    (hsupports : e'.supports = e.supports) (hcatalog : e'.catalog = e.catalog) : Ages e e' :=
  ⟨by rw [hnaming], by rw [hnaming], by rw [hambient], by rw [hambient],
    by rw [hambient], hsupports,
    hcatalog⟩

theorem modifyScope (id : ScopeId) (f : Scope → Scope) (e : Engine) : Ages e
    (e.modifyScope id f) := by
  unfold Engine.modifyScope
  cases e.scope? id with
  | some s => exact .of_eq rfl rfl rfl rfl
  | none => exact refl_of Ages e

theorem report (event : Event) (e : Engine) : Ages e (e.report event) :=
  ⟨rfl, le_rfl, List.suffix_cons _ _, rfl, rfl, rfl, rfl⟩

theorem reportAll (events : List Event) (e : Engine) : Ages e (e.reportAll events) := by
  induction events generalizing e with
  | nil => exact refl_of Ages e
  | cons event rest ih => exact trans_of Ages (report event e) (ih (e.report event))

theorem setMerged (styles : Styleset) (e : Engine) : Ages e (e.setMerged id key styles) := by
  unfold Engine.setMerged
  split
  · exact modifyScope _ _ e
  · exact refl_of Ages e

/-! ### Processing -/

theorem generateName (scope slot : String) (e : Engine) : Steps Ages
    (generateName scope slot) e := by
  let g := e.naming.generate scope slot
  have hnaming : Ages e { e with naming := g.naming } :=
    ⟨e.naming.generate_mode scope slot, e.naming.generate_nextId scope slot,
      List.suffix_rfl, rfl, rfl,
      rfl, rfl⟩
  exact trans_of Ages hnaming (reportAll (g.events scope slot) _)

theorem nameForWithin (limit : Nat) (id : ScopeId) (slot : String) (e : Engine) :
    Steps Ages (nameForWithin limit id slot) e :=
  nameForWithin_steps generateName (fun k _ e => modifyScope k _ e) limit id e

theorem placeName (cell : Option Nat) (name slot : String) (e : Engine) :
    Steps Ages (placeName cell name slot) e := by
  cases cell with
  | none => exact .throw _ e
  | some cell =>
    show Ages e (fillCell cell name slot e).2
    unfold fillCell
    cases e.cells.get? cell with
    | none => exact .of_eq rfl rfl rfl rfl
    | some _ => exact refl_of Ages e

theorem ruleName (id : ScopeId) (slot : String) (explicit : Option String) (e : Engine) :
    Steps Ages (ruleName id slot explicit) e := by
  cases explicit with
  | some name => exact .bind (.modify (modifyScope _ _ e)) fun _ e₁ _ => .pure name e₁
  | none => exact nameForWithin _ id slot e

theorem assignName (id : ScopeId) (key : Nat) (e : Engine) : Steps Ages (assignName id key) e :=
  assignName_steps (fun rule slot _ _ _ => ruleName id slot rule.explicitName e) placeName

theorem mergeAt (id : ScopeId) (key : Nat) (e : Engine) : Ages e (mergeAt id key e).2 :=
  mergeAt_cases (P := Ages e) (refl_of Ages e) fun _ _ _ _ =>
    trans_of Ages (mergeWithin_steps report (fun m h _ _ _ => trans_of Ages h (setMerged m _))
      e.allRules id key e) (setMerged _ _)

theorem processWithin (limit : Nat) (id : ScopeId) (e : Engine) :
    Steps Ages (processWithin limit id) e :=
  processWithin_steps (fun id key e => assignName id key e) mergeAt (fun id e => modifyScope id _ e)
    (fun id e => modifyScope id _ e) report limit id e

theorem processScope (id : ScopeId) (e : Engine) : Ages e (processScope id e).2 :=
  processWithin e.walkLimit id e

/-! ### Declaring -/

theorem newCell (e : Engine) : Ages e e.newCell.2 := .of_eq rfl rfl rfl rfl

theorem addRule (id : ScopeId) (slot : String) (rule : Rule) (e : Engine) :
    Steps Ages (addRule id slot rule) e := by
  unfold Engine.addRule
  refine .bind (requireScope_steps id e) fun s e₁ _ => ?_
  cases s.named.get? slot with
  | some key =>
    refine .bind (.modify (modifyScope _ _ e₁)) fun _ e₂ _ => ?_
    exact .bind (.modify (report _ e₂)) fun _ e₃ _ => .pure _ e₃
  | none =>
    refine .bind (newCell e₁) fun cell e₂ _ => ?_
    exact .bind (.modify (modifyScope _ _ e₂)) fun _ e₃ _ => .pure _ e₃

theorem addUnnamedRule (id : ScopeId) (rule : Rule) (e : Engine) :
    Steps Ages (addUnnamedRule id rule) e := by
  unfold Engine.addUnnamedRule
  refine .bind (requireScope_steps id e) fun s e₁ _ => ?_
  refine .bind (newCell e₁) fun cell e₂ _ => ?_
  exact .bind (.modify (modifyScope _ _ e₂)) fun _ e₃ _ => .pure _ e₃

theorem addNested (id : ScopeId) (e : Engine) : Steps Ages (addNested id) e := by
  unfold Engine.addNested
  refine .bind (requireScope_steps id e) fun s e₁ _ => ?_
  refine .bind (show Ages e₁ _ from .of_eq rfl rfl rfl rfl) fun child e₂ _ => ?_
  exact .bind (.modify (modifyScope _ _ e₂)) fun _ e₃ _ => .pure _ e₃

theorem opened {μ : Type} (d : Definition μ) (e : Engine) : Ages e (opened d e) :=
  ⟨e.naming.reserve_mode d.scopeName d.multiplex, e.naming.reserve_nextId d.scopeName d.multiplex,
    List.suffix_rfl, rfl, rfl, rfl, rfl⟩

theorem abandon (id : ScopeId) (key : Nat) (e : Engine) : Ages e (e.abandon id key) := by
  rw [abandon_eq]
  exact .of_eq rfl rfl rfl rfl

end Ages

/-- **Every step of building adds to numbers and events only.** -/
theorem ages_stepwise : Stepwise (fun _ => Ages) (fun _ _ => Ages) where
  idle {_ e} := refl_of Ages e
  refl {_ _ e} := refl_of Ages e
  trans h h' := trans_of Ages h h'
  report event := .report event _
  addRule _ _ slot rule := .addRule _ slot rule _
  addUnnamedRule _ _ rule := .addUnnamedRule _ rule _
  setBase _ _ _ _ := .modifyScope _ _ _
  addReference _ _ _ := .modifyScope _ _ _
  process _ _ h := h
  declare h := h
  group _ _ h := trans_of Ages (.addNested _ _) h
  -- The steps that end a definition: its script is over, its scope is processed, and it may be
  -- given up.
  processed {_ e e₁ _ _} d _ _ _ h hrun := by
    have hend : Ages e₁ e₁.endConstruction := .of_eq rfl rfl rfl rfl
    have hproc := Ages.processScope e.nextScope e₁.endConstruction
    rw [hrun] at hproc
    exact trans_of Ages (.opened d e) (trans_of Ages h (trans_of Ages hend hproc))
  unprocessed {_ e e₁ _ _ _} d _ _ _ h hrun := by
    have hend : Ages e₁ e₁.endConstruction := .of_eq rfl rfl rfl rfl
    have hproc := Ages.processScope e.nextScope e₁.endConstruction
    rw [hrun] at hproc
    exact trans_of Ages (.opened d e) (trans_of Ages h (trans_of Ages hend
      (trans_of Ages hproc (.abandon _ _ _))))
  failed {_ e e₁ _} d event _ _ _ h := by
    have hend : Ages e₁ e₁.endConstruction := .of_eq rfl rfl rfl rfl
    exact trans_of Ages (.opened d e) (trans_of Ages h (trans_of Ages hend
      (trans_of Ages (.abandon _ _ _) (.report event _))))

end Engine

end StyleBook
