import StyleBook.Proofs.Engine.Frames
import StyleBook.Proofs.Rule.Parents
import StyleBook.Proofs.Script.Stepwise

namespace StyleBook

/-!
# Definitions that are bound to fail

A definition that has to reach itself before it succeeds never does: while it declares it is told
that it depends on itself, and it has no scope that another definition could find. So it is for
definitions that have to reach each other.

* `Script.Within` — which definitions a script may extend and use; `Script.Needs` — which one it has
  to reach before it succeeds;
* `Engine.Barren torn` — no definition in `torn` has a processed scope;
* `Script.run_needs` — a script fails if what it needs does;
* `Engine.calls_barred` — definitions that need each other fail, and stay without a scope.
-/

variable {μ α : Type}

namespace Script

/-- The definitions that the script may extend are in `E`, and those that it may use in `U`. -/
def Within (E U : Nat → Prop) : Script μ → Prop
  | .done => True
  | .fail _ => True
  | .add _ _ next => ∀ r, (next r).Within E U
  | .addUnnamed _ next => ∀ r, (next r).Within E U
  | .find _ next => ∀ r, (next r).Within E U
  | .scope next => ∀ id, (next id).Within E U
  | .extend definition next => E definition ∧ ∀ answer, (next answer).Within E U
  | .use definition next => U definition ∧ ∀ answer, (next answer).Within E U
  | .group _ body next => body.Within E U ∧ ∀ answer, (next answer).Within E U
  | .nameOf _ next => ∀ name, (next name).Within E U
  | .report _ next => next.Within E U
  | .look next => ∀ memory, (next memory).Within E U
  | .remember _ next => next.Within E U

/-- It may reach less. -/
theorem Within.mono {E E' U U' : Nat → Prop} (hE : ∀ d, E d → E' d) (hU : ∀ d, U d → U' d)
    {script : Script μ} (h : script.Within E U) : script.Within E' U' := by
  induction script with
  | done => trivial
  | fail err => trivial
  | add slot rule next ih => exact fun r => ih r (h r)
  | addUnnamed rule next ih => exact fun r => ih r (h r)
  | find slot next ih => exact fun r => ih r (h r)
  | scope next ih => exact fun id => ih id (h id)
  | extend definition next ih => exact ⟨hE _ h.1, fun answer => ih answer (h.2 answer)⟩
  | use definition next ih => exact ⟨hU _ h.1, fun answer => ih answer (h.2 answer)⟩
  | group condition body next ihb ih => exact ⟨ihb h.1, fun answer => ih answer (h.2 answer)⟩
  | nameOf cell next ih => exact fun name => ih name (h name)
  | report event next ih => exact ih h
  | look next ih => exact fun memory => ih memory (h memory)
  | remember change next ih => exact ih h

/-- **The script does not succeed before it has reached the definition with success,** whatever the
    answers to its other steps are. -/
def Needs (d : Nat) : Script μ → Prop
  | .done => False
  | .fail _ => True
  | .add _ _ next => ∀ r, (next r).Needs d
  | .addUnnamed _ next => ∀ r, (next r).Needs d
  | .find _ next => ∀ r, (next r).Needs d
  | .scope next => ∀ id, (next id).Needs d
  | .extend definition next =>
    (∀ err, (next (.error err)).Needs d) ∧ (definition = d ∨ ∀ id, (next (.ok id)).Needs d)
  | .use definition next =>
    (∀ err, (next (.error err)).Needs d) ∧ (definition = d ∨ ∀ refs, (next (.ok refs)).Needs d)
  | .group _ body next =>
    (∀ err, (next (.error err)).Needs d) ∧ (body.Needs d ∨ ∀ r, (next (.ok r)).Needs d)
  | .nameOf _ next => ∀ name, (next name).Needs d
  | .report _ next => next.Needs d
  | .look next => ∀ memory, (next memory).Needs d
  | .remember _ next => next.Needs d

end Script

namespace Engine

variable {torn : Nat → Prop} {e e' : Engine} {roots : List ScopeId} {root : ScopeId}

/-! ### Engines in which some definitions have no processed scope -/

/-- No definition in `torn` has a processed scope. -/
def Barren (torn : Nat → Prop) (e : Engine) : Prop :=
  ∀ d id, torn d → e.scopeOf? d = some id → ¬ e.Settles id

namespace Barren

/-- Scopes are declared. -/
theorem extended (h : Barren torn e) (hs : Sound roots e) (hx : Extends e e')
    (hsingletons : e'.singletons = e.singletons) : Barren torn e' := by
  intro d id hd hid
  unfold scopeOf? at hid
  rw [hsingletons] at hid
  rintro ⟨t', ht', hsettled⟩
  obtain ⟨t, ht, -⟩ := hs.linked.singleton_live hid
  obtain ⟨u, hu, hiff, -⟩ := hx.scope ht
  cases ht'.symm.trans hu
  exact h _ _ hd hid ⟨t, ht, hiff.mp hsettled⟩

/-- A definition gets a scope, which is not processed. -/
theorem opened (h : Barren torn e) (d : Definition μ) (hs : Sound roots e) :
    Barren torn (Engine.opened d e) := by
  have ho := opened_spec d hs
  intro d' id hd hid
  rintro ⟨t', ht', hsettled⟩
  rcases ho.back ht' with ⟨-, hfresh⟩ | hold
  · exact hfresh.not_settled hsettled
  · rcases ho.leaves.singletons hid with hid' | hle
    · exact h _ _ hd hid' ⟨t', hold, hsettled⟩
    · exact absurd (hs.linked.lt_nextScope hold) (Nat.not_lt.mpr hle)

/-- A definition is discarded. -/
theorem abandoned {id : ScopeId} {key : Nat} (h : Barren torn e) (ha : Abandoned id key e e') :
    Barren torn e' := by
  intro d k hd hk
  rintro ⟨t, ht, hsettled⟩
  exact h _ _ hd (ha.singletons hk).1 ⟨t, (ha.back ht).2, hsettled⟩

/-- The scope of a definition is processed, as far as that goes. The other definitions still have
    no processed scopes. -/
theorem processes {id : ScopeId} {r : Except Error Unit} (h : Barren torn e)
    (hp : Processes (e.Inside id) e r e') (hsingletons : e'.singletons = e.singletons)
    {d : Nat} {k : ScopeId} (hd : torn d) (hk : e'.scopeOf? d = some k) (hnot : ¬ e.Inside id k) :
    ¬ e'.Settles k := by
  rintro ⟨t', ht', hsettled⟩
  unfold scopeOf? at hk
  rw [hsingletons] at hk
  obtain ⟨t, ht, hstep⟩ := hp.progressed.back ht'
  exact h _ _ hd hk ⟨t, ht, (hstep.relinked hnot).settled.mp hsettled⟩

end Barren

/-! ### What scripts keep -/

/-- The same definitions are declaring, and those in `torn` get no processed scope. -/
structure Spares (torn : Nat → Prop) (e e' : Engine) : Prop where
  constructing : e'.constructing = e.constructing
  barren : Barren torn e → Barren torn e'

namespace Spares

/-- Nothing has happened. -/
theorem refl (e : Engine) : Spares torn e e := ⟨rfl, fun h => h⟩

/-- One change after the other. -/
theorem trans {e'' : Engine} (h : Spares torn e e') (h' : Spares torn e' e'') : Spares torn e e'' :=
  ⟨h'.constructing.trans h.constructing, fun hb => h'.barren (h.barren hb)⟩

/-- Scopes are declared. -/
theorem extended (hs : Sound roots e) (hx : Extends e e') (hu : Undisturbed e e') :
    Spares torn e e' := ⟨hu.constructing, fun hb => hb.extended hs hx hu.singletons⟩

end Spares

/-- **The steps of a script keep definitions in `torn` without a processed scope.** -/
theorem spares_scripted (torn : Nat → Prop) :
    Scripted (fun _ => Spares torn) (fun _ _ => Spares torn) where
  refl := .refl _
  trans := .trans
  report event := ⟨rfl, fun h => h⟩
  -- Steps of a script give no definition a scope; what is reached is dealt with by the hypothesis.
  addRule hs hb slot rule :=
    .extended hs (((addRule_builds (P := anything) hb (fun _ _ => trivial) slot).sound hs).2)
      (addRule_undisturbed _ slot rule _)
  addUnnamedRule hs hb rule :=
    .extended hs (((addUnnamedRule_builds (P := anything) hb fun _ _ => trivial).sound hs).2)
      (addUnnamedRule_undisturbed _ rule _)
  setBase {root roots b e base} hs hb _ _ :=
    have hbuilds : Builds anything (root :: roots) e
        (e.modifyScope b.scope fun s => { s with base := some base }) :=
      .declare (C := fun _ => False) hb (fun _ _ hc => hc.elim) (setBase_declared b.scope base e)
    .extended hs (hbuilds.sound hs).2 (Touched.modifyScope _).undisturbed
  addReference {root roots b e used} hs hb hused :=
    have hbuilds : Builds anything (root :: roots) e (e.addReference b.scope used) :=
      .refer hb hused (addReference_referenced b.scope used e)
    .extended hs (hbuilds.sound hs).2 (Touched.modifyScope _).undisturbed
  process _ _ h := h
  declare h := h
  group {root roots b e e'} hs hb h := by
    obtain ⟨child, e₁, hnest, hbuilds, -⟩ := addNested_builds (P := anything) hs.linked hb
    have hu := addNested_undisturbed b.scope e
    unfold Steps at hu
    rw [hnest] at hu h
    exact Spares.trans (.extended hs ((hbuilds roots).sound hs).2 hu) h

/-- A script may run: it declares in a scope of a definition that is declaring, and no definition
    in `torn` has a processed scope. -/
structure Fit (torn : Nat → Prop) (root : ScopeId) (roots : List ScopeId) (b : Builder)
    (e : Engine) : Prop where
  sound : Sound (root :: roots) e
  inside : e.Inside root b.scope
  barren : Barren torn e

/-- Run in `s`, the computation leaves an engine in which the script may run on. -/
def Fits (torn : Nat → Prop) (root : ScopeId) (roots : List ScopeId) (b : Builder)
    (c : BuildM μ α) (s : Engine × μ) : Prop :=
  ∀ r s', c s = some (r, s') →
    Fit torn root roots b s'.1 ∧ s'.1.constructing = s.1.constructing

namespace Fit

variable {b : Builder} {calls : Calls μ} {s : Engine × μ}

open Script BuildM

/-- A computation that builds and keeps definitions in `torn` without a processed scope. -/
theorem fits {c : BuildM μ α} (h : Fit torn root roots b s.1)
    (hbuilds : Moves (BuildsState anything (root :: roots)) c s)
    (hspares : Moves (StepwiseState (fun _ _ => Spares torn) (root :: roots) b) c s) :
    Fits torn root roots b c s := fun r s' hrun => by
  obtain ⟨hs, hx⟩ := Builds.sound (hbuilds r s' hrun) h.sound
  have hsp := hspares r s' hrun
  exact ⟨⟨hs, hx.inside h.inside, hsp.barren h.barren⟩, hsp.constructing⟩

/-- A rule is declared, and the builder still fits. -/
theorem addRule (h : Fit torn root roots b s.1) (slot : String) (rule : Rule) :
    Fits torn root roots b (BuildM.onEngine (Engine.addRule b.scope slot rule)) s :=
  h.fits (moves_onEngine (addRule_builds h.inside (fun _ _ => trivial) slot))
    (moves_onEngine ((spares_scripted torn).addRule h.sound h.inside slot rule))

/-- So it does after a rule without a slot. -/
theorem addUnnamedRule (h : Fit torn root roots b s.1) (rule : Rule) :
    Fits torn root roots b (BuildM.onEngine (Engine.addUnnamedRule b.scope rule)) s :=
  h.fits (moves_onEngine (addUnnamedRule_builds h.inside fun _ _ => trivial))
    (moves_onEngine ((spares_scripted torn).addUnnamedRule h.sound h.inside rule))

/-- And after a definition was extended, if that did what calls do. -/
theorem extension (h : Fit torn root roots b s.1)
    (hcalls : Stepped (fun _ => Spares torn) (fun _ _ => Spares torn) calls) (definition : Nat) :
    Fits torn root roots b (attempt (Script.extension calls definition b)) s :=
  h.fits (moves_attempt (extension_builds hcalls.builds h.sound h.inside trivial
      fun _ _ _ => trivial))
    (moves_attempt (extension_stepwise (spares_scripted torn) hcalls h.sound h.inside definition))

/-- And after one was used. -/
theorem usage (h : Fit torn root roots b s.1)
    (hcalls : Stepped (fun _ => Spares torn) (fun _ _ => Spares torn) calls) (definition : Nat) :
    Fits torn root roots b (attempt (Script.usage calls definition b)) s :=
  h.fits (moves_attempt (usage_builds hcalls.builds h.sound h.inside trivial))
    (moves_attempt (usage_stepwise (spares_scripted torn) hcalls h.sound h.inside definition))

/-- And after a group. -/
theorem grouping (h : Fit torn root roots b s.1)
    (hcalls : Stepped (fun _ => Spares torn) (fun _ _ => Spares torn) calls)
    (condition : GroupCondition) (body : Script μ) :
    Fits torn root roots b (attempt (Script.grouping calls condition body b)) s :=
  h.fits (moves_attempt (grouping_builds h.sound h.inside condition fun child _ _ hs₁ hin =>
      run_builds_anything (b := ⟨child, 0⟩) hcalls.builds body hs₁ hin))
    (moves_attempt (grouping_stepwise (spares_scripted torn) hcalls h.sound h.inside condition
      fun b s hs hb => body.run_stepwise (spares_scripted torn) hcalls b s hs hb))

/-- A report changes nothing that has to fit. -/
theorem report (h : Fit torn root roots b s.1) (event : Event) :
    Fits torn root roots b (BuildM.changeEngine (·.report event)) s :=
  h.fits (moves_changeEngine (.aside rfl rfl rfl)) (moves_changeEngine ⟨rfl, fun hb => hb⟩)

/-- Nor does extending a scope that is ready. -/
theorem setBase (h : Fit torn root roots b s.1) {base : ScopeId} (hbase : s.1.Ready base) :
    Fits torn root roots b (Script.setBase b base) s := by
  unfold Script.setBase
  split
  · exact h.fits (moves_changeEngine (.declare (C := fun _ => False) h.inside
        (fun _ _ hc => hc.elim) (setBase_declared b.scope base s.1)))
      (moves_changeEngine ((spares_scripted torn).setBase h.sound h.inside ‹_› hbase))
  · intro r s' hrun
    cases hrun
    exact ⟨h, rfl⟩

/-- A script may run in a new nested scope. -/
theorem addNested (h : Fit torn root roots b e) : ∃ child e₁,
    Engine.addNested b.scope e = (.ok child, e₁) ∧ Fit torn root roots ⟨child, 0⟩ e₁ ∧
      e₁.constructing = e.constructing := by
  obtain ⟨child, e₁, hnest, hbuilds, hin⟩ :=
    addNested_builds (P := anything) h.sound.linked h.inside
  have hu := addNested_undisturbed b.scope e
  unfold Steps at hu
  rw [hnest] at hu
  obtain ⟨hs, hx⟩ := (hbuilds roots).sound h.sound
  exact ⟨child, e₁, hnest, ⟨hs, hin, h.barren.extended h.sound hx hu.singletons⟩, hu.constructing⟩

end Fit

end Engine

/-! ### What scripts need -/

namespace Script

open BuildM
open Engine hiding onEngine changeEngine

variable {torn : Nat → Prop} {root : ScopeId} {roots : List ScopeId} {b : Builder}
  {calls : Calls μ} {s s' : Engine × μ} {definition d : Nat}

/-- An extension that succeeds has reached the definition. -/
theorem extension_reached {id : ScopeId}
    (h : attempt (extension calls definition b) s = some (.ok (.ok id), s')) :
    ∃ id s₁, calls.process definition s = some (.ok id, s₁) := by
  obtain ⟨r, hrun, hr⟩ := attempt_eq_some h
  cases hr
  rcases partial_bind_eq_some hrun with ⟨base, s₁, h₁, -⟩ | ⟨err, -, hr⟩
  · exact ⟨base, s₁, h₁⟩
  · cases hr

/-- So has a use that succeeds. -/
theorem usage_reached {refs : ScopeRefs}
    (h : attempt (usage calls definition b) s = some (.ok (.ok refs), s')) :
    ∃ id s₁, calls.process definition s = some (.ok id, s₁) := by
  obtain ⟨r, hrun, hr⟩ := attempt_eq_some h
  cases hr
  rcases partial_bind_eq_some hrun with ⟨used, s₁, h₁, -⟩ | ⟨err, -, hr⟩
  · exact ⟨used, s₁, h₁⟩
  · cases hr

/-- A script fails if what comes next does. -/
theorem fails_next {c : BuildM μ α} {f : α → Script μ} (hc : Fits torn root roots b c s)
    (hf : ∀ a s₁, c s = some (.ok a, s₁) → Fit torn root roots b s₁.1 →
      ∀ s', (f a).run calls b s₁ ≠ some (.ok (), s')) (s' : Engine × μ) :
    (do let a ← c; (f a).run calls b) s ≠ some (.ok (), s') := by
  intro h
  rcases partial_bind_eq_some h with ⟨a, s₁, h₁, h₂⟩ | ⟨err, -, hr⟩
  · exact hf a s₁ h₁ (hc _ s₁ h₁).1 s' h₂
  · cases hr

/-- **A script fails if what it needs does.** -/
theorem run_needs (hcalls : Stepped (fun _ => Spares torn) (fun _ _ => Spares torn) calls)
    (hfails : ∀ s, Sound (root :: roots) s.1 → Barren torn s.1 →
      ∀ id s', calls.process d s ≠ some (.ok id, s'))
    (script : Script μ) (b : Builder) (s : Engine × μ) (hfit : Fit torn root roots b s.1)
    (hneeds : script.Needs d) : ∀ s', script.run calls b s ≠ some (.ok (), s') := by
  induction script generalizing b s with
  -- A script that needs the definition does not end well before it comes to it. A call that fails
  -- is answered, and the rest needs it then; one that succeeds reaches it, or the rest does.
  | done => exact hneeds.elim
  | fail err => exact fun _ h => by cases h
  | add slot rule next ih =>
    exact fails_next (hfit.addRule slot rule) fun r s₁ _ hfit₁ => ih r b s₁ hfit₁ (hneeds r)
  | addUnnamed rule next ih =>
    exact fails_next (hfit.addUnnamedRule rule) fun r s₁ _ hfit₁ => ih r b s₁ hfit₁ (hneeds r)
  | find slot next ih => exact ih _ b s hfit (hneeds _)
  | scope next ih => exact ih _ b s hfit (hneeds _)
  | extend definition next ih =>
    rw [run_extend]
    refine fails_next (hfit.extension hcalls definition) fun answer s₁ h₁ hfit₁ => ?_
    rcases answer with err | id
    · exact ih _ b s₁ hfit₁ (hneeds.1 err)
    · rcases hneeds.2 with rfl | hnext
      · obtain ⟨id, s₂, hreached⟩ := extension_reached h₁
        exact absurd hreached (hfails s hfit.sound hfit.barren id s₂)
      · exact ih _ b s₁ hfit₁ (hnext id)
  | use definition next ih =>
    rw [run_use]
    refine fails_next (hfit.usage hcalls definition) fun answer s₁ h₁ hfit₁ => ?_
    rcases answer with err | refs
    · exact ih _ b s₁ hfit₁ (hneeds.1 err)
    · rcases hneeds.2 with rfl | hnext
      · obtain ⟨id, s₂, hreached⟩ := usage_reached h₁
        exact absurd hreached (hfails s hfit.sound hfit.barren id s₂)
      · exact ih _ b s₁ hfit₁ (hnext refs)
  | group condition body next ihb ih =>
    rw [run_group]
    refine fails_next (hfit.grouping hcalls condition body) fun answer s₁ h₁ hfit₁ => ?_
    rcases answer with err | r
    · exact ih _ b s₁ hfit₁ (hneeds.1 err)
    · rcases hneeds.2 with hbody | hnext
      · -- The group succeeds only if its rules are declared.
        obtain ⟨answer, hgroup, hanswer⟩ := attempt_eq_some h₁
        cases hanswer
        obtain ⟨child, e₁, hnest, hchild, -⟩ := hfit.addNested
        unfold grouping at hgroup
        rw [partial_bind, BuildM.onEngine_apply, hnest] at hgroup
        rcases partial_bind_eq_some hgroup with ⟨_, s₂, h₂, -⟩ | ⟨err, -, hr⟩
        · exact absurd h₂ (ihb ⟨child, 0⟩ (e₁, s.2) hchild hbody s₂)
        · cases hr
      · exact ih _ b s₁ hfit₁ (hnext r)
  | nameOf cell next ih => exact ih _ b s hfit (hneeds _)
  | report event next ih =>
    exact fails_next (f := fun _ => next) (hfit.report event) fun _ s₁ _ hfit₁ =>
      ih b s₁ hfit₁ hneeds
  | look next ih => exact ih _ b s hfit (hneeds _)
  | remember change next ih => exact ih b (s.1, change s.2) hfit hneeds

end Script

/-! ### Definitions that need each other -/

namespace Engine

variable {torn : Nat → Prop} {roots : List ScopeId} {calls : Calls μ} {d : Definition μ}
  {s s' : Engine × μ} {r : Except Error ScopeId}

/-- A definition in `torn` has to reach one in `torn`. -/
def Torn (torn : Nat → Prop) (d : Definition μ) : Prop :=
  torn d.key → ∃ needed, torn needed ∧ d.script.Needs needed

/-- How scripts reach definitions keeps those in `torn` without a processed scope, because they
    fail. -/
structure Barred (torn : Nat → Prop) (calls : Calls μ) : Prop where
  stepped : Stepped (fun _ => Spares torn) (fun _ _ => Spares torn) calls
  fails {roots : List ScopeId} {key : Nat} {s : Engine × μ} : torn key → Sound roots s.1 →
    Barren torn s.1 → ∀ id s', calls.process key s ≠ some (.ok id, s')

/-- **A definition that gets a new scope** keeps those in `torn` without a processed one, and fails
    if it is one of them. -/
theorem construct_spares (hcalls : Barred torn calls) (hd : Torn torn d) (hs : Sound roots s.1)
    (h : construct calls d s = some (r, s')) :
    Spares torn s.1 s'.1 ∧ (torn d.key → Barren torn s.1 → ∀ id, r ≠ .ok id) := by
  have ho := opened_spec d hs
  obtain ⟨t, ht, -⟩ := ho.sound.root_owner List.mem_cons_self
  obtain ⟨declared, s₁, hscript, hend⟩ := construct_cases h
  have hrun : Spares torn (opened d s.1) s₁.1 := d.script.run_stepwise (spares_scripted torn)
    hcalls.stepped ⟨s.1.nextScope, 0⟩ (opened d s.1, s.2) ho.sound (.root ht) _ _ hscript
  obtain ⟨hs₁, hx₁⟩ := Builds.sound (Script.run_builds_anything (b := ⟨s.1.nextScope, 0⟩)
    hcalls.stepped.builds d.script ho.sound (.root ht) _ _ hscript) ho.sound
  have hopened : Barren torn s.1 → Barren torn s₁.1.endConstruction := fun hb =>
    hrun.barren (hb.opened d hs)
  have hconstructing : s₁.1.endConstruction.constructing = s.1.constructing :=
    congrArg (List.drop 1) hrun.constructing
  -- A definition in `torn` does not get to the end of its script.
  have hfails : torn d.key → Barren torn s.1 → declared ≠ .ok () := by
    rintro htorn hb rfl
    obtain ⟨needed, hneeded, hneeds⟩ := hd htorn
    exact d.script.run_needs hcalls.stepped (fun _ => hcalls.fails hneeded) _ _
      ⟨ho.sound, .root ht, hb.opened d hs⟩ hneeds _ hscript
  have hlinked : s₁.1.endConstruction.Linked := hs₁.endConstruction.linked
  rcases hend with ⟨err, err', -, rfl, heq⟩ | ⟨err, e₂, -, rfl, hproc, heq⟩ | ⟨hok, -, hproc⟩
  · refine ⟨⟨?_, fun hb => ?_⟩, fun _ _ id hr => by cases hr⟩
    · rw [heq]
      exact (abandon_constructing _ _ _).trans hconstructing
    · have ha := abandon_abandoned hlinked s.1.nextScope d.key
      have hb' : Barren torn (abandon s.1.nextScope d.key s₁.1.endConstruction) :=
        (hopened hb).abandoned ha
      rw [heq]
      exact hb'
  · have hp := hs₁.endConstruction.pending.processScope hs₁.endConstruction
    have hu := processScope_undisturbed s.1.nextScope s₁.1.endConstruction
    rw [hproc] at hp hu
    have ha := abandon_abandoned hp.linked s.1.nextScope d.key
    refine ⟨⟨?_, fun hb => ?_⟩, fun _ _ id hr => by cases hr⟩
    · rw [heq, abandon_constructing]
      exact hu.constructing.trans hconstructing
    · intro k id hk hid
      rw [heq] at hid ⊢
      rintro ⟨t', ht', hsettled⟩
      obtain ⟨hnot, ht₂⟩ := ha.back ht'
      exact (hopened hb).processes hp hu.singletons hk (ha.singletons hid).1
        (fun hin => hnot (hp.inside_iff.mpr hin)) ⟨t', ht₂, hsettled⟩
  · have hp := hs₁.endConstruction.pending.processScope hs₁.endConstruction
    have hu := processScope_undisturbed s.1.nextScope s₁.1.endConstruction
    rw [hproc] at hp hu
    refine ⟨⟨hu.constructing.trans hconstructing, fun hb k id hk hid => ?_⟩,
      fun htorn hb => absurd hok (hfails htorn hb)⟩
    refine (hopened hb).processes hp hu.singletons hk hid fun hin => ?_
    -- A definition in `torn` would have the scope that was opened.
    unfold scopeOf? at hid
    rw [hu.singletons] at hid
    obtain rfl := hin.eq_of_owner (hlinked.singleton_live hid)
    have hkey : k = d.key := (ho.pending hs₁ hx₁).2.2 hid
    exact hfails (hkey ▸ hk) hb hok

/-- The scope that a definition has is processed, if it is the result. -/
theorem existing_ok {title : String} {id id' : ScopeId} {e e' : Engine}
    (h : existing title id e = (.ok id', e')) : e.Settles id := by
  unfold existing at h
  cases ht : e.scope? id with
  | none =>
    rw [stateful_bind_error (requireScope_none ht)] at h
    cases h
  | some t =>
    rw [stateful_bind_ok (requireScope_some ht)] at h
    by_cases hstate : t.state = .unprocessed
    · rw [if_pos hstate] at h
      cases h
    · exact ⟨t, ht, hstate⟩

/-- So it is for a definition that has a scope. -/
theorem existing_spares {id : ScopeId} (hid : s.1.scopeOf? d.key = some id)
    (h : BuildM.onEngine (existing d.title id) s = some (r, s')) :
    Spares torn s.1 s'.1 ∧ (torn d.key → Barren torn s.1 → ∀ id, r ≠ .ok id) := by
  rw [BuildM.onEngine_apply] at h
  cases h
  refine ⟨?_, fun htorn hb id' hr => hb _ _ htorn hid (existing_ok (Prod.ext hr rfl))⟩
  rw [existing_snd]
  exact .refl s.1

/-- And for an instance of a definition. -/
theorem processInstanceWith_spares (hcalls : Barred torn calls) (hd : Torn torn d)
    (hs : Sound roots s.1) (h : processInstanceWith calls d s = some (r, s')) :
    Spares torn s.1 s'.1 ∧ (torn d.key → Barren torn s.1 → ∀ id, r ≠ .ok id) := by
  unfold processInstanceWith at h
  rw [partial_bind, partial_get] at h
  simp only at h
  by_cases hkey : d.key ∈ s.1.constructing
  · rw [if_pos hkey] at h
    cases h
    exact ⟨.refl s.1, fun _ _ id hr => by cases hr⟩
  · rw [if_neg hkey] at h
    rcases hm : d.multiplex with _ | _ <;> rcases hid : s.1.scopeOf? d.key with _ | id <;>
      simp only [hm, hid] at h
    · exact construct_spares hcalls hd hs h
    · exact existing_spares hid h
    · exact construct_spares hcalls hd hs h
    · exact construct_spares hcalls hd hs h

/-- And for a definition. -/
theorem processWith_spares (hcalls : Barred torn calls) (hd : Torn torn d)
    (hs : Sound roots s.1) (h : processWith calls d s = some (r, s')) :
    Spares torn s.1 s'.1 ∧ (torn d.key → Barren torn s.1 → ∀ id, r ≠ .ok id) := by
  unfold processWith at h
  rw [partial_bind, partial_get] at h
  simp only at h
  rcases hid : s.1.scopeOf? d.key with _ | id <;> simp only [hid] at h
  · exact processInstanceWith_spares hcalls hd hs h
  · exact existing_spares hid h

/-- **Definitions of a library that need each other fail,** to any limit, and stay without a
    processed scope. -/
theorem calls_barred {library : Library μ} (hkey : ∀ key, (library key).key = key)
    (htorn : ∀ key, Torn torn (library key)) (limit : Nat) :
    Barred torn (Engine.calls library limit) := by
  induction limit with
  | zero =>
    refine ⟨⟨calls_build_anything library 0, fun _ h => ?_, fun _ _ h => ?_⟩, fun _ _ _ _ _ h => ?_⟩
    · cases h
    · cases h
    · cases h
  | succ limit ih =>
    refine ⟨⟨calls_build_anything library (limit + 1), fun hs h => ?_, fun hs hb h => ?_⟩, ?_⟩
    · exact (processWith_spares ih (htorn _) hs h).1
    · exact Script.run_stepwise (spares_scripted torn) ih.stepped _ _ _ hs hb _ _ h
    · intro roots key s hk hs hb id s' h
      exact (processWith_spares ih (htorn key) hs h).2 ((hkey key).symm ▸ hk) hb id rfl

end Engine

end StyleBook
