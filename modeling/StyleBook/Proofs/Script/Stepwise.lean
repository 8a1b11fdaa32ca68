import StyleBook.Proofs.Engine.Frames
import StyleBook.Proofs.Script.Runs

namespace StyleBook

/-!
# Relations that hold across building and across calls

A script takes its steps in the scope it declares, and so do those that it reaches. A relation
between engines that holds across each step holds across all of them.

While definitions declare, their scopes stay, and a new scope has a new id. So what no step takes
from a scope is kept across building.

A call builds, or changes who uses scopes, or finds a name, or changes settings. A relation between
engines that holds across each of these holds across every call, and across every run.

* `Engine.Scripted Q R` — `R` holds across the steps of a script, if `Q` holds across definitions
  that it reaches; `Script.run_stepwise` — then `R` holds across every script;
* `Engine.Stepwise Q R` — and `Q` holds across a definition that gets a scope, if `R` does across
  its script; `Engine.process_stepwise`, `Engine.processInstance_stepwise` — then `Q` holds across
  every definition;
* `Engine.Carries.opened`, `Engine.Carries.nested`, `Engine.Carries.abandoned` — what new scopes,
  and the loss of scopes that are newer, do to the ones that are there;
* `Engine.carries_stepwise` — what is kept across the steps of scripts and across processing is kept
  across building;
* `Engine.Callwise R` — `R` holds across building, and across what else calls do;
  `Performed.callwise`, `Run.callwise` — then it holds across calls and runs.
-/

variable {μ α : Type}

namespace Engine

/-- The scope is processed and not nested. -/
def Ready (e : Engine) (id : ScopeId) : Prop :=
  ∃ t, e.scope? id = some t ∧ t.Settled ∧ t.owner = none

/-- **A relation that holds across scripts if it holds across each step.** While the definitions of
    `roots` declare, the latest one first, `R roots b` is about a script that declares with the
    builder `b`, and `Q roots` about a definition that the script reaches. -/
structure Scripted (Q : List ScopeId → Engine → Engine → Prop)
    (R : List ScopeId → Builder → Engine → Engine → Prop) : Prop where
  refl {roots b e} : R roots b e e
  trans {roots b e e' e''} : R roots b e e' → R roots b e' e'' → R roots b e e''
  report {roots b e} (event : Event) : R roots b e (e.report event)
  addRule {root roots b e} : Sound (root :: roots) e → e.Inside root b.scope →
    ∀ slot rule, R (root :: roots) b e (addRule b.scope slot rule e).2
  addUnnamedRule {root roots b e} : Sound (root :: roots) e → e.Inside root b.scope →
    ∀ rule, R (root :: roots) b e (addUnnamedRule b.scope rule e).2
  /-- Only a script that runs for itself sets what its scope extends. -/
  setBase {root roots b e base} : Sound (root :: roots) e → e.Inside root b.scope → b.depth = 0 →
    e.Ready base →
    R (root :: roots) b e (e.modifyScope b.scope fun s => { s with base := some base })
  addReference {root roots b e used} : Sound (root :: roots) e → e.Inside root b.scope →
    e.Ready used → R (root :: roots) b e (e.addReference b.scope used)
  /-- A definition is reached. -/
  process {root roots b e e'} : Sound (root :: roots) e → e.Inside root b.scope →
    Q (root :: roots) e e' → R (root :: roots) b e e'
  /-- The script of an extended definition runs. -/
  declare {root roots b e e'} : R (root :: roots) { b with depth := b.depth + 1 } e e' →
    R (root :: roots) b e e'
  /-- The script of a group runs in a new scope. -/
  group {root roots b e e'} : Sound (root :: roots) e → e.Inside root b.scope →
    R (root :: roots) ⟨e.nextScope, 0⟩ (addNested b.scope e).2 e' → R (root :: roots) b e e'

/-- **Relations that hold across building if they hold across each step.** One is about scripts, and
    the other one about definitions that get a scope. -/
structure Stepwise (Q : List ScopeId → Engine → Engine → Prop)
    (R : List ScopeId → Builder → Engine → Engine → Prop) : Prop extends Scripted Q R where
  /-- A definition may have its scope already. -/
  idle {roots e} : Q roots e e
  /-- A definition declares, and its scope is processed. -/
  processed {roots e e₁ e'} {ν : Type} (d : Definition ν) : Sound roots e →
    Sound (e.nextScope :: roots) e₁ → Extends (opened d e) e₁ →
    R (e.nextScope :: roots) ⟨e.nextScope, 0⟩ (opened d e) e₁ →
    processScope e.nextScope e₁.endConstruction = (.ok (), e') → Q roots e e'
  /-- A definition declares, but its scope cannot be processed. -/
  unprocessed {roots e e₁ e₂ err} {ν : Type} (d : Definition ν) : Sound roots e →
    Sound (e.nextScope :: roots) e₁ → Extends (opened d e) e₁ →
    R (e.nextScope :: roots) ⟨e.nextScope, 0⟩ (opened d e) e₁ →
    processScope e.nextScope e₁.endConstruction = (.error err, e₂) →
    Q roots e (e₂.abandon e.nextScope d.key)
  /-- A definition fails while it declares. -/
  failed {roots e e₁} {ν : Type} (d : Definition ν) (event : Event) : Sound roots e →
    Sound (e.nextScope :: roots) e₁ → Extends (opened d e) e₁ →
    R (e.nextScope :: roots) ⟨e.nextScope, 0⟩ (opened d e) e₁ →
    Q roots e ((e₁.endConstruction.abandon e.nextScope d.key).report event)

/-- Nothing is asked of the definitions that a script reaches. -/
def nothingAsked : Watch μ := ⟨fun _ _ => True, fun _ _ _ => True⟩

/-- How scripts reach definitions builds, and the relations hold across it. -/
structure Stepped (Q : List ScopeId → Engine → Engine → Prop)
    (R : List ScopeId → Builder → Engine → Engine → Prop) (calls : Calls μ) : Prop where
  builds : Reaches anything calls nothingAsked
  process {roots s key r s'} : Sound roots s.1 → calls.process key s = some (r, s') →
    Q roots s.1 s'.1
  declare {root roots s key b r s'} : Sound (root :: roots) s.1 → s.1.Inside root b.scope →
    calls.declare key b s = some (r, s') → R (root :: roots) b s.1 s'.1

variable {Q : List ScopeId → Engine → Engine → Prop}
  {R : List ScopeId → Builder → Engine → Engine → Prop}

/-- The relation for states of an engine with a memory. -/
abbrev StepwiseState (R : List ScopeId → Builder → Engine → Engine → Prop) (roots : List ScopeId)
    (b : Builder) (s s' : Engine × μ) : Prop := R roots b s.1 s'.1

/-- Relations of steps put together as one of states. -/
theorem Scripted.isPreorder (h : Scripted Q R) (roots : List ScopeId) (b : Builder) :
    IsPreorder (Engine × μ) (StepwiseState R roots b) where
  refl _ := h.refl
  trans _ _ _ := h.trans

end Engine

namespace Script

open BuildM
open Engine hiding onEngine changeEngine

variable {Q : List ScopeId → Engine → Engine → Prop}
  {R : List ScopeId → Builder → Engine → Engine → Prop} {calls : Calls μ} {b : Builder}
  {s : Engine × μ} {root : ScopeId} {roots : List ScopeId}

/-- Every script builds, when nothing is asked of stylesets. -/
theorem run_builds_anything (hcalls : Reaches anything calls nothingAsked) (script : Script μ)
    (hs : Sound (root :: roots) s.1) (hb : s.1.Inside root b.scope) :
    Moves (BuildsState anything (root :: roots)) (script.run calls b) s :=
  script.run_builds hcalls b s hs hb <|
    declares_of_forall (fun _ _ _ => trivial) (fun _ _ => trivial) (fun _ _ _ => trivial) _ _ _

/-- Across an extension. -/
theorem extension_stepwise (hR : Scripted Q R) (hcalls : Stepped Q R calls)
    (hs : Sound (root :: roots) s.1) (hb : s.1.Inside root b.scope) (definition : Nat) :
    Moves (StepwiseState R (root :: roots) b) (extension calls definition b) s := by
  have := hR.isPreorder (μ := μ) (root :: roots) b
  unfold extension
  refine .bind (fun _ _ h => hR.process hs hb (hcalls.process hs h)) fun base s₁ h₁ => ?_
  obtain ⟨hbuilds, hreached⟩ := hcalls.builds.process hs trivial h₁
  obtain ⟨hs₁, hx₁⟩ := hbuilds.sound hs
  have hb₁ := hx₁.inside hb
  have hbase : Moves (StepwiseState R (root :: roots) b) (setBase b base) s₁ := by
    unfold setBase
    split
    · exact moves_changeEngine (hR.setBase hs₁ hb₁ ‹_› (hreached base rfl))
    · exact .pure _ s₁
  refine .bind hbase fun _ s₂ h₂ => ?_
  obtain ⟨hs₂, hx₂⟩ := Builds.sound (setBase_builds (P := anything) hb₁ base _ s₂ h₂) hs₁
  refine .bind (fun _ _ h => hR.declare (hcalls.declare hs₂ (hx₂.inside hb₁) h)) ?_
  exact fun _ s₃ _ => .pure _ s₃

/-- Across a use. -/
theorem usage_stepwise (hR : Scripted Q R) (hcalls : Stepped Q R calls)
    (hs : Sound (root :: roots) s.1) (hb : s.1.Inside root b.scope) (definition : Nat) :
    Moves (StepwiseState R (root :: roots) b) (usage calls definition b) s := by
  have := hR.isPreorder (μ := μ) (root :: roots) b
  unfold usage
  refine .bind (fun _ _ h => hR.process hs hb (hcalls.process hs h)) fun used s₁ h₁ => ?_
  obtain ⟨hbuilds, hreached⟩ := hcalls.builds.process hs trivial h₁
  obtain ⟨hs₁, hx₁⟩ := hbuilds.sound hs
  refine .bind (moves_changeEngine (hR.addReference hs₁ (hx₁.inside hb) (hreached used rfl)))
    fun _ s₂ _ => moves_onEngine ?_
  rw [collectRefs_snd]
  exact hR.refl

/-- Across a group, if `R` holds across its rules. -/
theorem grouping_stepwise (hR : Scripted Q R) (hcalls : Stepped Q R calls)
    (hs : Sound (root :: roots) s.1) (hb : s.1.Inside root b.scope) (condition : GroupCondition)
    {body : Script μ}
    (hbody : ∀ b s, Sound (root :: roots) s.1 → s.1.Inside root b.scope →
      Moves (StepwiseState R (root :: roots) b) (body.run calls b) s) :
    Moves (StepwiseState R (root :: roots) b) (grouping calls condition body b) s := by
  obtain ⟨child, e₁, hnest, hbuilds, hchild⟩ := addNested_builds (P := anything) hs.linked hb
  obtain ⟨hs₁, hx₁⟩ := (hbuilds roots).sound hs
  have hnew : child = s.1.nextScope := addNested_ok hnest
  have hsnd : (addNested b.scope s.1).2 = e₁ := by rw [hnest]
  unfold grouping
  intro r s' h
  rw [partial_bind, BuildM.onEngine_apply, hnest] at h
  -- The group's body ended well, and its rule is declared outside; or the body failed, and nothing
  -- else happened.
  rcases partial_bind_eq_some h with ⟨_, s₂, h₂, h₃⟩ | ⟨err, h₂, -⟩
  · have hrun := hbody ⟨child, 0⟩ _ hs₁ hchild _ _ h₂
    obtain ⟨hs₂, hx₂⟩ := Builds.sound
      (run_builds_anything (b := ⟨child, 0⟩) hcalls.builds body hs₁ hchild _ _ h₂) hs₁
    refine hR.trans (hR.group hs hb (hnew ▸ hsnd ▸ hrun)) ?_
    cases h₃
    exact hR.addUnnamedRule hs₂ (hx₂.inside (hx₁.inside hb)) _
  · have hrun := hbody ⟨child, 0⟩ _ hs₁ hchild _ _ h₂
    exact hR.group hs hb (hnew ▸ hsnd ▸ hrun)

/-- What comes next runs in a state that is built from this one. -/
theorem stepwise_next (hR : Scripted Q R) {c : BuildM μ α} {f : α → Script μ}
    (hs : Sound (root :: roots) s.1) (hb : s.1.Inside root b.scope)
    (hbuilds : Moves (BuildsState anything (root :: roots)) c s)
    (hc : Moves (StepwiseState R (root :: roots) b) c s)
    (hf : ∀ a s₁, Sound (root :: roots) s₁.1 → s₁.1.Inside root b.scope →
      Moves (StepwiseState R (root :: roots) b) ((f a).run calls b) s₁) :
    Moves (StepwiseState R (root :: roots) b) (do let a ← c; (f a).run calls b) s := by
  have := hR.isPreorder (μ := μ) (root :: roots) b
  refine .bind hc fun a s₁ h₁ => ?_
  obtain ⟨hs₁, hx₁⟩ := Builds.sound (hbuilds _ s₁ h₁) hs
  exact hf a s₁ hs₁ (hx₁.inside hb)

/-- **The relation holds across a script.** -/
theorem run_stepwise (hR : Scripted Q R) (hcalls : Stepped Q R calls) (script : Script μ)
    (b : Builder) (s : Engine × μ) (hs : Sound (root :: roots) s.1)
    (hb : s.1.Inside root b.scope) :
    Moves (StepwiseState R (root :: roots) b) (script.run calls b) s := by
  have hallowed : ∀ e id content, Allowed anything e id content := fun _ _ _ _ _ => trivial
  -- Every step is covered by its own clause of the hypothesis, and the rest of the script by the
  -- induction.
  induction script generalizing b s with
  | done => exact fun _ _ h => by cases h; exact hR.refl
  | fail err => exact fun _ _ h => by cases h; exact hR.refl
  | add slot rule next ih =>
    exact stepwise_next hR hs hb (moves_onEngine (addRule_builds hb (hallowed _ _ _) slot))
      (moves_onEngine (hR.addRule hs hb slot rule)) fun r s₁ hs₁ hb₁ => ih r b s₁ hs₁ hb₁
  | addUnnamed rule next ih =>
    exact stepwise_next hR hs hb (moves_onEngine (addUnnamedRule_builds hb (hallowed _ _ _)))
      (moves_onEngine (hR.addUnnamedRule hs hb rule)) fun r s₁ hs₁ hb₁ => ih r b s₁ hs₁ hb₁
  | find slot next ih => exact ih _ b s hs hb
  | scope next ih => exact ih _ b s hs hb
  | extend definition next ih =>
    rw [run_extend]
    exact stepwise_next hR hs hb
      (moves_attempt (extension_builds hcalls.builds hs hb trivial fun _ _ _ => trivial))
      (moves_attempt (extension_stepwise hR hcalls hs hb definition))
      fun answer s₁ hs₁ hb₁ => ih answer b s₁ hs₁ hb₁
  | use definition next ih =>
    rw [run_use]
    exact stepwise_next hR hs hb (moves_attempt (usage_builds hcalls.builds hs hb trivial))
      (moves_attempt (usage_stepwise hR hcalls hs hb definition))
      fun answer s₁ hs₁ hb₁ => ih answer b s₁ hs₁ hb₁
  | group condition body next ihb ih =>
    rw [run_group]
    exact stepwise_next hR hs hb
      (moves_attempt (grouping_builds hs hb condition fun child s₁ _ hs₁ hin =>
        run_builds_anything hcalls.builds body hs₁ hin))
      (moves_attempt (grouping_stepwise hR hcalls hs hb condition fun b s hs hb =>
        ihb b s hs hb))
      fun answer s₁ hs₁ hb₁ => ih answer b s₁ hs₁ hb₁
  | nameOf cell next ih => exact ih _ b s hs hb
  | report event next ih =>
    exact stepwise_next (f := fun _ => next) hR hs hb (moves_changeEngine (.aside rfl rfl rfl))
      (moves_changeEngine (hR.report event)) fun _ s₁ hs₁ hb₁ => ih b s₁ hs₁ hb₁
  | look next ih => exact ih _ b s hs hb
  | remember change next ih => exact ih b (s.1, change s.2) hs hb

end Script

namespace Engine

open BuildM hiding onEngine changeEngine

variable {Q : List ScopeId → Engine → Engine → Prop}
  {R : List ScopeId → Builder → Engine → Engine → Prop} {calls : Calls μ} {s s' : Engine × μ}
  {roots : List ScopeId} {d : Definition μ} {r : Except Error ScopeId}

/-- The end of a script leaves the engine sound. -/
theorem Sound.endConstruction {e : Engine} (hs : Sound roots e) : Sound roots e.endConstruction :=
  hs.relinked (.of_scopes_eq rfl rfl rfl)

/-- **What happens to a definition that gets a new scope.** Its script runs; then it fails, or its
    scope cannot be processed, or the scope is the result. -/
theorem construct_cases (h : construct calls d s = some (r, s')) :
    ∃ declared s₁,
      d.script.run calls ⟨s.1.nextScope, 0⟩ (opened d s.1, s.2) = some (declared, s₁) ∧
        ((∃ err err', declared = .error err ∧ r = .error err' ∧
            s'.1 = (s₁.1.endConstruction.abandon s.1.nextScope d.key).report
              (.definitionFailed d.title err)) ∨
          (∃ err e₂, declared = .ok () ∧ r = .error err ∧
            processScope s.1.nextScope s₁.1.endConstruction = (.error err, e₂) ∧
            s'.1 = e₂.abandon s.1.nextScope d.key) ∨
          declared = .ok () ∧ r = .ok s.1.nextScope ∧
            processScope s.1.nextScope s₁.1.endConstruction = (.ok (), s'.1)) := by
  rw [construct_eq] at h
  rcases hscript : d.script.run calls ⟨s.1.nextScope, 0⟩ (opened d s.1, s.2) with
    _ | ⟨declared, s₁⟩ <;> rw [hscript] at h
  · cases h
  -- A script that failed decides the outcome; after one that succeeded processing the scope does.
  refine ⟨declared, s₁, rfl, ?_⟩
  cases declared with
  | error err =>
    obtain ⟨err', hend⟩ := concluding_error d s.1.nextScope err (s₁.1.endConstruction, s₁.2)
    cases h.symm.trans hend
    exact .inl ⟨err, err', rfl, rfl, rfl⟩
  | ok _ =>
    replace h := (concluding_ok d s.1.nextScope (s₁.1.endConstruction, s₁.2)).symm.trans h
    rcases hproc : processScope s.1.nextScope s₁.1.endConstruction with ⟨err | ⟨⟩, e₂⟩ <;>
      simp only [hproc] at h
    · cases h
      exact .inr (.inl ⟨err, e₂, rfl, rfl, rfl, rfl⟩)
    · cases h
      exact .inr (.inr ⟨rfl, rfl, rfl⟩)

/-- Across a definition that gets a new scope. -/
theorem construct_stepwise (hR : Stepwise Q R) (hcalls : Stepped Q R calls) (hs : Sound roots s.1)
    (h : construct calls d s = some (r, s')) : Q roots s.1 s'.1 := by
  have ho := opened_spec d hs
  obtain ⟨t, ht, -⟩ := ho.sound.root_owner List.mem_cons_self
  obtain ⟨declared, s₁, hscript, hend⟩ := construct_cases h
  have hrun := d.script.run_stepwise hR.toScripted hcalls ⟨s.1.nextScope, 0⟩ (opened d s.1, s.2)
    ho.sound (.root ht) _ _ hscript
  obtain ⟨hs₁, hx₁⟩ := Builds.sound (Script.run_builds_anything (b := ⟨s.1.nextScope, 0⟩)
    hcalls.builds d.script ho.sound (.root ht) _ _ hscript) ho.sound
  rcases hend with ⟨err, err', -, -, heq⟩ | ⟨err, e₂, -, -, hproc, heq⟩ | ⟨-, -, hproc⟩
  · exact heq ▸ hR.failed d _ hs hs₁ hx₁ hrun
  · exact heq ▸ hR.unprocessed d hs hs₁ hx₁ hrun hproc
  · exact hR.processed d hs hs₁ hx₁ hrun hproc

/-- Looking up the scope of a definition changes nothing. -/
theorem existing_snd (title : String) (id : ScopeId) (e : Engine) :
    (existing title id e).2 = e := by
  unfold existing
  cases hs : e.scope? id with
  | none => rw [stateful_bind_error (requireScope_none hs)]
  | some t =>
    rw [stateful_bind_ok (requireScope_some hs)]
    by_cases hstate : t.state = .unprocessed
    · simp only [if_pos hstate]
      rfl
    · simp only [if_neg hstate]
      rfl

/-- Across an instance of a definition. -/
theorem processInstanceWith_stepwise (hR : Stepwise Q R) (hcalls : Stepped Q R calls)
    (hs : Sound roots s.1) (h : processInstanceWith calls d s = some (r, s')) :
    Q roots s.1 s'.1 := by
  unfold processInstanceWith at h
  rw [partial_bind, partial_get] at h
  simp only at h
  -- Nothing happens to a definition that declares or has its scope already.
  by_cases hkey : d.key ∈ s.1.constructing
  · rw [if_pos hkey] at h
    cases h
    exact hR.idle
  · rw [if_neg hkey] at h
    rcases hm : d.multiplex with _ | _ <;> rcases hid : s.1.scopeOf? d.key with _ | id <;>
      simp only [hm, hid] at h
    · exact construct_stepwise hR hcalls hs h
    · rw [BuildM.onEngine_apply] at h
      cases h
      rw [existing_snd]
      exact hR.idle
    · exact construct_stepwise hR hcalls hs h
    · exact construct_stepwise hR hcalls hs h

/-- Across a definition. -/
theorem processWith_stepwise (hR : Stepwise Q R) (hcalls : Stepped Q R calls) (hs : Sound roots s.1)
    (h : processWith calls d s = some (r, s')) : Q roots s.1 s'.1 := by
  unfold processWith at h
  rw [partial_bind, partial_get] at h
  simp only at h
  rcases hid : s.1.scopeOf? d.key with _ | id <;> simp only [hid] at h
  · exact processInstanceWith_stepwise hR hcalls hs h
  · rw [BuildM.onEngine_apply] at h
    cases h
    rw [existing_snd]
    exact hR.idle

/-- Definitions of a library are built, when nothing is asked of stylesets. -/
theorem calls_build_anything (library : Library μ) (limit : Nat) :
    Reaches anything (Engine.calls library limit) nothingAsked := by
  have hreaches := calls_reaches (P := anything) library limit
  have hwatch := watch_of_forall (P := anything) (fun _ _ _ => trivial) library limit
  exact ⟨fun hs _ h => hreaches.process hs (hwatch.1 _ _) h,
    fun hs hb _ => hreaches.declare hs hb (hwatch.2 _ _ _)⟩

/-- Definitions of a library are reached along the relations, to any limit. -/
theorem calls_stepped (hR : Stepwise Q R) (library : Library μ) (limit : Nat) :
    Stepped Q R (Engine.calls library limit) := by
  induction limit with
  | zero =>
    refine ⟨calls_build_anything library 0, fun _ h => ?_, fun _ _ h => ?_⟩
    · cases h
    · cases h
  | succ limit ih =>
    exact ⟨calls_build_anything library (limit + 1), fun hs h => processWith_stepwise hR ih hs h,
      fun hs hb h => Script.run_stepwise hR.toScripted ih _ _ _ hs hb _ _ h⟩

/-- A definition that has no scope yet gets one. -/
theorem process_construct {library : Library μ} {limit key : Nat} {id : ScopeId}
    (hnew : s.1.scopeOf? (library key).key = none)
    (h : process library limit key s = some (.ok id, s')) :
    construct (Engine.calls library limit) (library key) s = some (.ok id, s') := by
  unfold process processWith at h
  rw [partial_bind, partial_get] at h
  simp only [hnew] at h
  unfold processInstanceWith at h
  rw [partial_bind, partial_get] at h
  simp only [hnew] at h
  split at h
  · cases h
  · cases hm : (library key).multiplex <;> rw [hm] at h <;> exact h

/-- **The relation holds across a definition of a library.** -/
theorem process_stepwise (hR : Stepwise Q R) {library : Library μ} {limit key : Nat}
    (hs : Sound roots s.1) (h : process library limit key s = some (r, s')) : Q roots s.1 s'.1 :=
  processWith_stepwise hR (calls_stepped hR library limit) hs h

/-- **So it does across an instance of a definition.** -/
theorem processInstance_stepwise (hR : Stepwise Q R) {library : Library μ} {limit : Nat}
    (hs : Sound roots s.1) (h : processInstance library limit d s = some (r, s')) :
    Q roots s.1 s'.1 :=
  processInstanceWith_stepwise hR (calls_stepped hR library limit) hs h

end Engine

/-! ### What is kept of the scopes that are there -/

namespace Engine

variable {e e' e'' : Engine} {roots : List ScopeId} {T : ScopeId → Scope → Scope → Prop}

namespace Carries

/-- A scope that is newer than all scopes in question is discarded. -/
theorem abandoned {key : Nat} (h : Carries T e e') (he : Linked e) (he' : Linked e')
    (ha : Abandoned e.nextScope key e' e'') : Carries T e e'' := by
  intro k s hs
  obtain ⟨s', hs', hT⟩ := h k s hs
  refine ⟨s', ha.kept (fun hin => ?_) hs', hT⟩
  exact absurd (he.lt_nextScope hs) (Nat.not_lt.mpr (he'.le_of_inside hin))

variable [∀ k, IsPreorder Scope (T k)]

/-- A definition gets a scope. -/
theorem opened (d : Definition μ) (hs : Sound roots e) : Carries T e (Engine.opened d e) := by
  have ho := opened_spec d hs
  intro k s hk
  obtain ⟨s', hs', -⟩ := ho.leaves.scope hk
  rcases ho.back hs' with ⟨rfl, -⟩ | hold
  · exact absurd (hs.linked.lt_nextScope hk) (lt_irrefl _)
  · cases hk.symm.trans hold
    exact ⟨s, hs', refl_of (T k) s⟩

/-- A scope gets one that is nested in it. -/
theorem nested {id : ScopeId} (he : Linked e)
    (hT : ∀ s child, T id s { s with children := s.children ++ [child] }) :
    Carries T e (addNested id e).2 := by
  intro k s hs
  cases hlive : e.scope? id with
  | none =>
    unfold addNested
    rw [stateful_bind_error (requireScope_none hlive)]
    exact ⟨s, hs, refl_of (T k) s⟩
  | some owner =>
    have hnew : k ≠ e.nextScope := fun heq => absurd (he.lt_nextScope hs) (heq ▸ lt_irrefl _)
    rw [scope?_addNested he hlive, if_neg hnew]
    split
    · next hk =>
      subst hk
      cases hs.symm.trans hlive
      exact ⟨_, rfl, hT s _⟩
    · exact ⟨s, hs, refl_of (T k) s⟩

/-- A definition has declared its rules, and what its script keeps is kept of the old scopes. -/
theorem declared {U : ScopeId → Scope → Scope → Prop} {e₁ : Engine} (d : Definition μ)
    (hs : Sound roots e) (h : Carries U (Engine.opened d e) e₁)
    (hU : ∀ k s s', k < e.nextScope → U k s s' → T k s s') : Carries T e e₁ := fun k s hk => by
  obtain ⟨s', hs', hT⟩ := opened (T := T) d hs k s hk
  obtain ⟨s'', hs'', hT'⟩ := h k s' hs'
  exact ⟨s'', hs'', trans_of (T k) hT (hU k s' s'' (hs.linked.lt_nextScope hk) hT')⟩

end Carries

/-- **What is kept across scripts and across processing is kept across building.** It may depend on
    the builder; where a definition declares, the old scopes are kept as they are elsewhere. -/
theorem carries_stepwise {T : ScopeId → Scope → Scope → Prop}
    {U : Builder → ScopeId → Scope → Scope → Prop} [∀ k, IsPreorder Scope (T k)]
    (hscript : Scripted (fun _ => Carries T) (fun _ b => Carries (U b)))
    (hnew : ∀ id k s s', k < id → U ⟨id, 0⟩ k s s' → T k s s')
    (hprocess : ∀ {id roots e}, Sound (id :: roots) e → Carries T e (processScope id e).2) :
    Stepwise (fun _ => Carries T) (fun _ b => Carries (U b)) where
  toScripted := hscript
  idle := .refl _
  -- In each of the three outcomes the script has run in a scope of its own. Old scopes are kept
  -- there as elsewhere, and giving up takes none of them away.
  processed {roots e e₁ e' ν} d hs hs₁ _ h hrun := by
    have hdeclared : Carries T e e₁.endConstruction := .declared d hs h (hnew e.nextScope)
    have hprocessed := hprocess hs₁.endConstruction
    rw [hrun] at hprocessed
    exact hdeclared.trans hprocessed
  unprocessed {roots e e₁ e₂ err ν} d hs hs₁ _ h hrun := by
    have hdeclared : Carries T e e₁.endConstruction := .declared d hs h (hnew e.nextScope)
    have hprocessed := hprocess hs₁.endConstruction
    have hproc := hs₁.endConstruction.pending.processScope hs₁.endConstruction
    rw [hrun] at hprocessed hproc
    exact (hdeclared.trans hprocessed).abandoned hs.linked hproc.linked
      (abandon_abandoned hproc.linked _ _)
  failed {roots e e₁ ν} d event hs hs₁ _ h := by
    have hdeclared : Carries T e e₁.endConstruction := .declared d hs h (hnew e.nextScope)
    have hl := hs₁.endConstruction.linked
    have hleft : Carries T e (e₁.endConstruction.abandon e.nextScope d.key) :=
      hdeclared.abandoned hs.linked hl (abandon_abandoned hl _ d.key)
    exact hleft

end Engine

/-! ### Across calls -/

namespace Engine

/-- **A relation that holds across calls if it holds across what calls do.** Before and after a call
    no definition is declaring. -/
structure Callwise (R : Engine → Engine → Prop) : Prop
    extends Stepwise (fun _ => R) (fun _ _ => R) where
  /-- Scopes get users, or lose some. -/
  reused {e e' : Engine} : Sound [] e → Sound [] e' → Rescoped (fun _ => Scope.Reused True) e e' →
    Touched e e' → R e e'
  /-- A slot is asked for its name. -/
  named {e e' : Engine} {id : ScopeId} {slot : String} {r : Except Error String} : Sound [] e →
    Sound [] e' → nameFor id slot e = (r, e') → R e e'
  /-- Settings are changed. -/
  configured {e e' : Engine} {naming : Naming} {supports : String → Bool} {ambient : Ambient} :
    Sound [] e → Sound [] e' → e' = { e with naming, supports, ambient } → R e e'

end Engine

open Engine

variable {μ σ : Type} [Sink σ] {library : Library μ} {R : Engine → Engine → Prop}

/-- **The relation holds across a call.** -/
theorem Performed.callwise {request : Request μ} {s s' : Session μ σ} {r : Answer} (hR : Callwise R)
    (h : Performed library request s r s') (hs : Sound [] s.engine) : R s.engine s'.engine := by
  have hs' := h.sound hs
  cases h with
  | process h | unprocessed h => exact process_stepwise hR.toStepwise hs h
  | processInstance h => exact processInstance_stepwise hR.toStepwise hs h
  | @activate id s r e sink h =>
    have hreused := activate_reused hs.linked id s.sink
    have htouched := activate_touched id (s.engine, s.sink)
    rw [h] at hreused htouched
    exact hR.reused hs hs' hreused htouched
  -- The definition is processed first, and its scope is activated then.
  | @activateDefinition limit key s id e m r e' sink h h' =>
    have hs₁ := ((process_builds hs h).1.sound hs).1
    have hreused := activate_reused hs₁.linked id s.sink
    have htouched := activate_touched id (e, s.sink)
    rw [h'] at hreused htouched
    exact @Scripted.trans _ _ hR.toScripted [] ⟨0, 0⟩ _ _ _
      (process_stepwise hR.toStepwise hs h) (hR.reused hs₁ hs' hreused htouched)
  | @deactivate id s r e sink h =>
    have hreused := deactivate_reused hs.linked id s.sink
    have htouched := deactivate_touched id (s.engine, s.sink)
    rw [h] at hreused htouched
    exact hR.reused hs hs' hreused htouched
  | nameFor h => exact hR.named hs hs' h
  | configure h => exact hR.configured hs hs' h

omit [Sink σ] in
/-- **The relation holds across a run.** -/
theorem Run.callwise {start s : Engine × μ} {steps : List (Request μ × Answer)} (hR : Callwise R)
    (h : Run library start steps s) (hs : Sound [] start.1) : R start.1 s.1 := by
  induction h with
  | start => exact @Scripted.refl _ _ hR.toScripted [] ⟨0, 0⟩ _
  | call before request sink h ih =>
    exact @Scripted.trans _ _ hR.toScripted [] ⟨0, 0⟩ _ _ _ ih
      ((Request.performed h).callwise hR (before.sound hs))

end StyleBook
