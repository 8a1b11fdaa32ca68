import StyleBook.Proofs.Name.KeptCells
import StyleBook.Proofs.Name.NameCredits
import StyleBook.Proofs.Script.Stepwise

namespace StyleBook

/-!
# Names across a run

Whatever a program does with an engine, the names of slots go back to rules that spell them or to
the calls that made them, also when the policy for names changes in between.

A scope has no names before it is processed. A property of names that is kept across declaring,
across the processing of a scope and across its loss is then kept across building and across calls.

* `Request.NamesByCalls` — a call changes naming only by handing out names or by another policy;
* `Performed.advances` — then it keeps what names go back to;
* `Run.names_go_back` — two slots of scopes that have one name, which no rule spells, have it from
  one call;
* `Engine.Preserves P` — a step keeps `P`, while scopes that are not processed have no names;
* `Engine.Survives P` — `P` is kept across each of these;
* `Engine.Survives.stepwise`, `Engine.Survives.callwise` — then building
  preserves it, and so do calls.
-/

variable {μ σ : Type}

/-- The program may hand out names itself and change the policy for names, in any order, but does
    not put another state of naming in place. -/
def Request.NamesByCalls : Request μ → Prop
  | .configure naming _ _ => ∀ n, ∃ calls, Naming.History n calls (naming n)
  | _ => True

/-- A change of users and of the state spares names and what names depend on. -/
theorem Scope.Reused.resourced {P Q : Prop} {s s' : Scope} (h : Reused P s s') : Resourced Q s s' :=
  have heq := h.eq_users
  .of_rules h.rules (by rw [heq]) (by rw [heq]) h.owner (by rw [heq]) (by rw [heq]) (by rw [heq])
    h.settled

namespace Engine

variable {e e' : Engine} {start : Naming} {calls : List Generation}

/-- Between calls there are no scopes that are not processed. -/
theorem Sound.unnamed (hs : Sound [] e) : e.Unnamed := fun hs₀ hn => absurd (hs.settled hs₀) hn

/-- A change of users and states advances the engine. -/
theorem Advances.reused (hr : Rescoped (fun _ => Scope.Reused True) e e') (ht : Touched e e') :
    Advances start e e' := fun calls h =>
  ⟨calls, List.Subset.refl _, h.spared (hr.mono fun _ _ _ _ hR => hR.resourced) ht.naming⟩

/-- Activating a scope makes no names. -/
theorem activate_advances [Sink σ] (start : Naming) (hs : Linked e) (id : ScopeId) (sink : σ) :
    Advances start e (activate id (e, sink)).2.1 :=
  .reused (activate_reused hs id sink) (activate_touched id (e, sink))

/-- Nor does releasing one. -/
theorem deactivate_advances [Sink σ] (start : Naming) (hs : Linked e) (id : ScopeId) (sink : σ) :
    Advances start e (deactivate id (e, sink)).2.1 :=
  .reused (deactivate_reused hs id sink) (deactivate_touched id (e, sink))

/-- A change of naming by calls of the program, and of what is no scope. -/
theorem Credits.continued (h : Credits start calls e) {calls' : List Generation}
    (hcalls : Naming.History e.naming calls' e'.naming) (hscopes : e'.scopes = e.scopes)
    (hsingletons : e'.singletons = e.singletons) (hnext : e'.nextScope = e.nextScope) :
    Credits start (calls' ++ calls) e' := by
  have hr : Rescoped (fun _ => Scope.Resourced False) e e' :=
    .of_scopes_eq hscopes hsingletons hnext
  refine h.resourced hr (List.subset_append_right _ _) (h.history.append hcalls)
    hcalls.scopeNames_subset fun hs hs' hname => .inl ?_
  unfold scope? at hs hs'
  rw [hscopes, hs] at hs'
  cases hs'
  exact hname

/-- An engine starts without names. -/
theorem credits_create (naming : NamingConfig) (catalog : Catalog) (ambient : Ambient) :
    Credits (.ofConfig naming) [] (create naming catalog ambient) := by
  have hnone : ∀ {k s}, (create naming catalog ambient).scope? k ≠ some s := fun h => by cases h
  exact ⟨.start, fun hs => absurd hs hnone, fun hs => absurd hs hnone, fun hs => absurd hs hnone,
    fun hs => absurd hs hnone⟩

end Engine

open Engine

variable [Sink σ]

/-- **A call keeps what names go back to.** -/
theorem Performed.advances {library : Library μ} {request : Request μ} {s s' : Session μ σ}
    {r : Answer} (h : Performed library request s r s') (hs : Sound [] s.engine)
    (hcalls : request.NamesByCalls) (start : Naming) : Advances start s.engine s'.engine := by
  -- Names are made by building and by asking for one. Configuring may come with calls that are
  -- credited as well.
  cases h with
  | process h => exact (process_stepwise (tracks_stepwise start) hs h hs.unnamed).2
  | processInstance h => exact (processInstance_stepwise (tracks_stepwise start) hs h hs.unnamed).2
  | @activate id s r e sink h =>
    have hadvances := activate_advances start hs.linked id s.sink
    rwa [h] at hadvances
  | unprocessed h => exact (process_stepwise (tracks_stepwise start) hs h hs.unnamed).2
  | @activateDefinition limit key s id e m r e' sink h h' =>
    have hs₁ := ((process_builds hs h).1.sound hs).1
    have hadvances := activate_advances start hs₁.linked id s.sink
    rw [h'] at hadvances
    exact trans_of (Advances start) (process_stepwise (tracks_stepwise start) hs h hs.unnamed).2
      hadvances
  | @deactivate id s r e sink h =>
    have hadvances := deactivate_advances start hs.linked id s.sink
    rwa [h] at hadvances
  | @nameFor id slot s r e h =>
    intro calls hc
    obtain ⟨calls', hsub, hc', -⟩ :=
      nameForWithin_names start s.engine.walkLimit id slot s.engine calls hc
    have hrun : nameForWithin s.engine.walkLimit id slot s.engine = (r, e) := h
    rw [hrun] at hc'
    exact ⟨calls', hsub, hc'⟩
  | @configure naming supports ambient s e h =>
    subst h
    intro calls hc
    obtain ⟨calls', hmade⟩ := hcalls s.engine.naming
    exact ⟨calls' ++ calls, List.subset_append_right _ _, hc.continued hmade rfl rfl rfl⟩

variable {library : Library μ} {steps : List (Request μ × Answer)} {naming : NamingConfig}
  {catalog : Catalog} {ambient : Ambient}

/-- Every run has calls that led to all names. -/
theorem Run.credits {memory : μ} {s : Engine × μ}
    (h : Run library (create naming catalog ambient, memory) steps s)
    (hcalls : ∀ step ∈ steps, step.1.NamesByCalls) :
    ∃ calls, Credits (.ofConfig naming) calls s.1 := by
  induction h with
  | start => exact ⟨[], credits_create naming catalog ambient⟩
  | call before request sink h ih =>
    obtain ⟨calls, hc⟩ := ih fun step hstep => hcalls step (List.mem_append_left _ hstep)
    have hs := before.sound (sound_create naming catalog ambient)
    have hrequest := hcalls _ (List.mem_append_right _ List.mem_cons_self)
    obtain ⟨calls', -, hc'⟩ :=
      (Request.performed h).advances hs hrequest (.ofConfig naming) calls hc
    exact ⟨calls', hc'⟩

/-- **Two slots of scopes with one name have it from one call:** if no rule spells the name for
    them, in their scopes or in those that names are taken over from, the slots are the same, and
    just one call made the name, for that slot of a scope that both take names over from. -/
theorem Run.names_go_back {memory m : μ} {e : Engine}
    (h : Run library (create naming catalog ambient, memory) steps (e, m))
    (hcalls : ∀ step ∈ steps, step.1.NamesByCalls) :
    ∃ calls, Naming.History (.ofConfig naming) calls e.naming ∧
      ∀ {k₁ k₂ s₁ s₂ slot₁ slot₂ name}, e.scope? k₁ = some s₁ → e.scope? k₂ = some s₂ →
        s₁.nameOf? slot₁ = some name → s₂.nameOf? slot₂ = some name →
        ¬ e.Spelled k₁ slot₁ name → ¬ e.Spelled k₂ slot₂ name →
        slot₁ = slot₂ ∧ ∃ j s, e.LeadsTo k₁ j ∧ e.LeadsTo k₂ j ∧ e.scope? j = some s ∧
          s.owner = none ∧ calls.filter (·.name = name) = [⟨s.name, slot₁, name⟩] := by
  obtain ⟨calls, hc⟩ := h.credits hcalls
  refine ⟨calls, hc.history, fun {k₁ k₂ s₁ s₂ slot₁ slot₂ name} hs₁ hs₂ hname₁ hname₂ hn₁ hn₂ => ?_⟩
  obtain ⟨j₁, t₁, hlead₁, ht₁, ho₁, hmade₁⟩ := (hc.credited hs₁ hname₁).resolve_left hn₁
  obtain ⟨j₂, t₂, hlead₂, ht₂, ho₂, hmade₂⟩ := (hc.credited hs₂ hname₂).resolve_left hn₂
  have hfilter₁ := hc.history.filter_name rfl hmade₁
  have hfilter₂ := hc.history.filter_name rfl hmade₂
  -- Just one call made the name, for a scope whose own name no other one has.
  have hsame := List.cons.inj (hfilter₁.symm.trans hfilter₂)
  rw [Generation.mk.injEq] at hsame
  obtain ⟨⟨hscope, rfl, -⟩, -⟩ := hsame
  obtain rfl := hc.root_inj ht₁ ho₁ ht₂ ho₂ hscope
  exact ⟨rfl, j₁, t₁, hlead₁, hlead₂, ht₁, ho₁, hfilter₁⟩

/-- A library of a definition with one slot, and one that extends it and declares the slot again, in
    a group. -/
def extendingLibrary : Library Unit
  | 0 => ⟨0, "Base", "base", false, .add "spin" (.animation []) fun _ => .done⟩
  | key => ⟨key, "Derived", "derived", false, .extend 0 fun _ =>
      .group (.media "print") (.add "spin" (.animation []) fun _ => .done) fun _ => .done⟩

/-- A slot and one in a group of a definition that extends the first one's, processed under another
    policy. -/
theorem name_of_inherited_slot :
    ∃ steps e s₁ s₃ calls j s, Run extendingLibrary (create {} .empty .initial, ()) steps (e, ()) ∧
      e.scope? 1 = some s₁ ∧ e.scope? 3 = some s₃ ∧ s₁.nameOf? "spin" = some "base_spin" ∧
      s₃.nameOf? "spin" = some "base_spin" ∧ e.naming.mode = .optimized ∧
      Naming.History (.ofConfig {}) calls e.naming ∧ e.LeadsTo 1 j ∧ e.LeadsTo 3 j ∧
      e.scope? j = some s ∧
      calls.filter (·.name = "base_spin") = [⟨s.name, "spin", "base_spin"⟩] := by
  have hout : ((Session.performAll extendingLibrary
      [.process 2 0, .configure (·.useOptimized "n") (fun _ => true) id, .process 3 1]
      (freshSession TextSink.empty)).any fun out =>
        (out.2.engine.scope? 1).any (·.nameOf? "spin" = some "base_spin") &&
          (out.2.engine.scope? 3).any (·.nameOf? "spin" = some "base_spin") &&
          out.2.engine.naming.mode = .optimized &&
          out.2.engine.scopes.all fun entry =>
            entry.2.rules.all (·.explicitName = none)) = true := by decide +kernel
  -- The run is decided. It makes names by calls only, and no rule spells one, so the general
  -- theorem applies.
  obtain ⟨⟨steps, s'⟩, hall, hp⟩ := (Option.any_eq_true _ _).mp hout
  simp only [Bool.and_eq_true, decide_eq_true_eq] at hp
  obtain ⟨⟨⟨h₁, h₃⟩, hmode⟩, hexplicit⟩ := hp
  obtain ⟨s₁, hs₁, hname₁⟩ := (Option.any_eq_true _ _).mp h₁
  obtain ⟨s₃, hs₃, hname₃⟩ := (Option.any_eq_true _ _).mp h₃
  rw [decide_eq_true_eq] at hname₁ hname₃
  have hrun := Run.performAll .start hall
  have hcalls : ∀ step ∈ steps, step.1.NamesByCalls := fun step hstep => by
    have hrequest := List.mem_map_of_mem (f := Prod.fst) hstep
    rw [Session.performAll_fst hall] at hrequest
    simp only [List.mem_cons, List.not_mem_nil, or_false] at hrequest
    rcases hrequest with heq | heq | heq <;> rw [heq]
    · trivial
    · exact fun n => ⟨[], .policy .start (Naming.switched_useOptimized "n" n)⟩
    · trivial
  have hunspelled : ∀ k slot name, ¬ s'.engine.Spelled k slot name := by
    rintro k slot name ⟨j, s, -, hs, rule, hrule, -, -, hname⟩
    have hentry := List.all_eq_true.mp (List.all_eq_true.mp hexplicit (j, s) (Dict.mem_of_get? hs))
    have hnone := hentry rule hrule
    rw [hname] at hnone
    cases hnone
  obtain ⟨calls, hhistory, hback⟩ := hrun.names_go_back hcalls
  obtain ⟨-, j, s, hlead₁, hlead₃, hs, -, hcall⟩ :=
    hback hs₁ hs₃ hname₁ hname₃ (hunspelled _ _ _) (hunspelled _ _ _)
  exact ⟨steps, s'.engine, s₁, s₃, calls, j, s, hrun, hs₁, hs₃, hname₁, hname₃, hmode, hhistory,
    hlead₁, hlead₃, hs, hcall⟩

/-! ### Properties that are kept while scopes have no names -/

namespace Engine

variable {P : Engine → Prop} {e e' : Engine} {id : ScopeId} {roots : List ScopeId}

/-- **A step keeps the property,** while scopes that are not processed have no names. -/
def Preserves (P : Engine → Prop) (e e' : Engine) : Prop := e.Unnamed → P e → e'.Unnamed ∧ P e'

/-- **What the property is kept across.** -/
structure Survives (P : Engine → Prop) : Prop where
  /-- No scope is changed. -/
  unchanged {e e' : Engine} : P e → Rescoped (fun _ => Eq) e e' → e'.cells = e.cells → P e'
  /-- Scopes declare, and there may be a new one. -/
  redeclares {roots : List ScopeId} {e e' : Engine} : P e → Sound roots e → e.Unnamed →
    Redeclares e e' → e'.cells = e.cells → P e'
  /-- The scope of a definition is processed. -/
  processed {id : ScopeId} {roots : List ScopeId} {e e' : Engine} : P e → Sound (id :: roots) e →
    e.Unnamed → processScope id e = (.ok (), e') → P e'
  /-- It cannot be processed. -/
  unprocessed {id : ScopeId} {roots : List ScopeId} {e e₂ : Engine} {err : Error}
    {key : Nat} : P e →
    Sound (id :: roots) e → e.Unnamed → processScope id e = (.error err, e₂) → P (e₂.abandon id key)
  /-- The definition has failed. -/
  failed {id : ScopeId} {roots : List ScopeId} {e : Engine} {key : Nat} : P e →
    Sound (id :: roots) e → P (e.abandon id key)

namespace Preserves

/-- Nothing has happened. -/
theorem refl (e : Engine) : Preserves P e e := fun hu h => ⟨hu, h⟩

/-- One change after the other. -/
theorem trans {e'' : Engine} (h : Preserves P e e') (h' : Preserves P e' e'') :
    Preserves P e e'' := fun hu hP => by
  obtain ⟨hu', hP'⟩ := h hu hP
  exact h' hu' hP'

end Preserves

namespace Survives

variable (h : Survives P)

include h

/-- Changes of no scope and no place. -/
theorem of_unchanged (hr : Rescoped (fun _ => Eq) e e') (hcells : e'.cells = e.cells) :
    Preserves P e e' := fun hu hP =>
  ⟨fun hs' hn => by
    obtain ⟨_, hs, rfl⟩ := hr.back hs'
    exact hu hs hn, h.unchanged hP hr hcells⟩

/-- Changes of scopes that are declared. -/
theorem of_redeclares (hs : Sound roots e) (hr : Redeclares e e') (hcells : e'.cells = e.cells) :
    Preserves P e e' := fun hu hP => ⟨hr.unnamed hu, h.redeclares hP hs hu hr hcells⟩

/-- A definition declares, if its script preserves the property. -/
theorem of_declared {μ : Type} (d : Definition μ) (hs : Sound roots e)
    (hdeclared : Preserves P (opened d e) e') : Preserves P e e'.endConstruction :=
  ((h.of_redeclares hs (opened_redeclares d hs.linked) (opened_allots d hs).cells).trans
    hdeclared).trans (h.of_unchanged (.of_scopes_eq rfl rfl rfl) rfl)

/-- **Building preserves the property.** -/
theorem stepwise : Stepwise (fun _ => Preserves P) (fun _ _ => Preserves P) where
  idle := .refl _
  refl := .refl _
  trans := .trans
  report event := h.of_unchanged (.report event) rfl
  addRule hs hb slot rule :=
    h.of_redeclares hs
      (.rescoped (addRule_redeclared (hs.unsettled List.mem_cons_self hb) slot rule).1)
      (addRule_allots _ slot rule _).cells
  addUnnamedRule hs hb rule :=
    h.of_redeclares hs
      (.rescoped (addUnnamedRule_redeclared (hs.unsettled List.mem_cons_self hb) rule).1)
      (addUnnamedRule_allots _ rule _).cells
  setBase hs hb _ hready :=
    h.of_redeclares hs
      (.rescoped (setBase_redeclared (hs.unsettled List.mem_cons_self hb) hready))
      (congrArg (·.cells) (Touched.modifyScope _))
  addReference hs hb _ :=
    h.of_redeclares hs
      (.rescoped (addReference_redeclared (hs.unsettled List.mem_cons_self hb) _).1)
      (congrArg (·.cells) (Touched.modifyScope _))
  process _ _ hQ := hQ
  declare hR := hR
  group hs hb hR :=
    (h.of_redeclares hs (addNested_redeclares hs.linked (hs.unsettled List.mem_cons_self hb))
      (addNested_allots hs.linked _).cells).trans hR
  -- A definition has no names while it declares. It gets them when it is processed.
  processed {_ e _ e' _} d hs hs₁ _ hR hrun :=
    (h.of_declared d hs hR).trans fun hu hP =>
      have htracks : Tracks e.naming _ e' := processed_tracks hs₁.endConstruction hrun
      ⟨(htracks hu).1, h.processed hP hs₁.endConstruction hu hrun⟩
  unprocessed {_ e _ e₂ _ _} d hs hs₁ _ hR hrun :=
    (h.of_declared d hs hR).trans fun hu hP =>
      have htracks : Tracks e.naming _ (e₂.abandon e.nextScope d.key) :=
        unprocessed_tracks hs₁.endConstruction d.key hrun
      ⟨(htracks hu).1, h.unprocessed hP hs₁.endConstruction hu hrun⟩
  failed {_ e _ _} d event hs hs₁ _ hR :=
    (h.of_declared d hs hR).trans fun hu hP =>
      have htracks : Tracks e.naming _ _ := failed_tracks hs₁.endConstruction d.key event
      ⟨(htracks hu).1, h.unchanged (h.failed hP hs₁.endConstruction) (.report event) rfl⟩

/-- **So do calls,** if changes of users and questions for names do. -/
theorem callwise
    (hreused : ∀ {e e' : Engine}, P e → Sound [] e → Rescoped (fun _ => Scope.Reused True) e e' →
      Touched e e' → P e')
    (hnamed : ∀ {e e' : Engine} {id slot r}, P e → nameFor id slot e = (r, e') → P e') :
    Callwise (Preserves P) where
  toStepwise := h.stepwise
  reused hs hs' hr ht _ hP := ⟨hs'.unnamed, hreused hP hs hr ht⟩
  named _ hs' hrun _ hP := ⟨hs'.unnamed, hnamed hP hrun⟩
  configured {e _ _ _ _} _ _ heq := by
    subst heq
    exact h.of_unchanged (e := e) (.of_scopes_eq rfl rfl rfl) rfl

end Survives

end Engine

end StyleBook
