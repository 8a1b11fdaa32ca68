import StyleBook.Proofs.Name.NameCredits
import StyleBook.Proofs.Script.Spots
import StyleBook.Proofs.Script.Stepwise

namespace StyleBook

/-!
# What a script extends

A scope extends one other scope: each step of its script that extends a definition puts the scope of
that definition in place of the one before. The scripts of the extended definitions, which run in
the same scope, put none there, and those of groups declare in scopes of their own.

* `Engine.Rebases` — a step changes what a scope extends only where a script runs for itself;
  `Engine.rebases_stepwise` — this holds across building;
* `Spot.Extending` — a script stands before a step that extends a scope;
* `Spot.ExtendsLast` — the last such step of the script itself, and the scope it extends;
* `Engine.process_base` — then the scope of the definition extends that scope.
-/

variable {μ : Type}

/-- The scope is changed. What it extends is changed under `P` only. -/
structure Scope.Rebased (P : Prop) (s s' : Scope) : Prop where
  base : ¬ P → s'.base = s.base

namespace Scope

variable {P Q : Prop} {s s' : Scope}

instance : IsPreorder Scope (Rebased P) where
  refl _ := ⟨fun _ => rfl⟩
  trans _ _ _ h h' := ⟨fun hP => (h'.base hP).trans (h.base hP)⟩

/-- A weaker condition for another base. -/
theorem Rebased.mono (h : Rebased P s s') (hPQ : P → Q) : Rebased Q s s' :=
  ⟨fun hQ => h.base fun hP => hQ (hPQ hP)⟩

/-- Declaring in a scope leaves what it extends in place. -/
theorem Redeclared.rebased (h : Redeclared (fun _ => False) s s') : Rebased P s s' :=
  ⟨fun _ => h.base.resolve_right fun ⟨_, _, hf⟩ => hf⟩

end Scope

namespace Engine

variable {e e' : Engine} {root : ScopeId} {roots : List ScopeId} {b : Builder}

/-- Scopes stay, and what they extend is changed only in the scope of the builder, if a script runs
    there for itself. -/
abbrev Rebases (b : Builder) : Engine → Engine → Prop :=
  Carries fun k => Scope.Rebased (k = b.scope ∧ b.depth = 0)

/-- Scopes stay, with what they extend. -/
abbrev KeepsBases : Engine → Engine → Prop := Carries fun _ => Scope.Rebased False

/-- The same for a builder that may change bases where this one may. -/
theorem Rebases.mono {b' : Builder} (h : Rebases b e e')
    (hb : ∀ k, k = b.scope → b.depth = 0 → k = b'.scope ∧ b'.depth = 0) : Rebases b' e e' :=
  fun k s hs => (h k s hs).imp fun _ hs' => ⟨hs'.1, hs'.2.mono fun hk => hb k hk.1 hk.2⟩

/-- What keeps all bases changes none of others. -/
theorem KeepsBases.rebases (h : KeepsBases e e') : Rebases b e e' :=
  fun k s hs => (h k s hs).imp fun _ hs' => ⟨hs'.1, hs'.2.mono False.elim⟩

/-- No step of a script changes what other scopes extend. -/
theorem rebases_scripted : Scripted (fun _ => KeepsBases) (fun _ b => Rebases b) where
  refl := .refl _
  trans := .trans
  -- Only one step sets a base, and it does so in its builder's own scope at depth zero.
  report event := .rescoped (.report event) fun _ _ _ hR => hR
  addRule hs hb slot rule :=
    .rescoped (addRule_redeclared (hs.unsettled List.mem_cons_self hb) slot rule).1
      fun _ _ _ hR => hR.rebased
  addUnnamedRule hs hb rule :=
    .rescoped (addUnnamedRule_redeclared (hs.unsettled List.mem_cons_self hb) rule).1
      fun _ _ _ hR => hR.rebased
  setBase _ _ hdepth _ :=
    .rescoped (.modifyScope fun _ _ => ⟨fun hk => absurd ⟨rfl, hdepth⟩ hk⟩) fun _ _ _ hR => hR
  addReference hs hb _ :=
    .rescoped (addReference_redeclared (hs.unsettled List.mem_cons_self hb) _).1
      fun _ _ _ hR => hR.rebased
  process _ _ h := KeepsBases.rebases h
  declare h := Rebases.mono h fun _ _ hdepth => absurd hdepth (Nat.succ_ne_zero _)
  -- A group's own builder stands in a new scope, so it changes no base of scopes that were there.
  group {root roots b e e'} hs _ h := fun k s hs₀ => by
    have hnested : Carries (fun _ => Scope.Rebased False) e (addNested b.scope e).2 :=
      .nested hs.linked fun _ _ => ⟨fun _ => rfl⟩
    obtain ⟨s₁, hs₁, hR⟩ := hnested k s hs₀
    obtain ⟨s', hs', hR'⟩ := h k s₁ hs₁
    refine ⟨s', hs', ⟨fun _ => (hR'.base fun hk => ?_).trans (hR.base id)⟩⟩
    exact absurd (hs.linked.lt_nextScope hs₀) (hk.1 ▸ lt_irrefl _)

/-- **No step of building changes what scopes extend that are there.** -/
theorem rebases_stepwise : Stepwise (fun _ => KeepsBases) (fun _ b => Rebases b) :=
  carries_stepwise rebases_scripted
    (fun _ _ _ _ hk hR => ⟨fun _ => hR.base fun hc => absurd hk (hc.1 ▸ lt_irrefl _)⟩)
    fun {_ _ e} hs => .rescoped
      (processWithin_sourced e.naming e.walkLimit hs.among).rescoped fun _ _ _ hR =>
      ⟨fun _ => hR.base⟩

end Engine

/-- Neither the script nor those of its groups have a step that extends a definition. -/
def Script.ExtendsNothing : Script μ → Prop
  | .done => True
  | .fail _ => True
  | .add _ _ next => ∀ r, (next r).ExtendsNothing
  | .addUnnamed _ next => ∀ r, (next r).ExtendsNothing
  | .find _ next => ∀ r, (next r).ExtendsNothing
  | .scope next => ∀ id, (next id).ExtendsNothing
  | .extend _ _ => False
  | .use _ next => ∀ answer, (next answer).ExtendsNothing
  | .group _ body next => body.ExtendsNothing ∧ ∀ answer, (next answer).ExtendsNothing
  | .nameOf _ next => ∀ name, (next name).ExtendsNothing
  | .report _ next => next.ExtendsNothing
  | .look next => ∀ memory, (next memory).ExtendsNothing
  | .remember _ next => next.ExtendsNothing

namespace Spot

open BuildM
open Engine hiding onEngine changeEngine

variable {library : Library μ} {p q : Spot μ} {root : ScopeId} {roots : List ScopeId}
  {r : Except Error Unit} {s s' : Engine × μ} {base : ScopeId}

/-- **The script stands before a step that extends a definition,** which has
    the scope `base` then. -/
def Extending (library : Library μ) (p : Spot μ) (base : ScopeId) : Prop :=
  ∃ definition next s, p.script = .extend definition next ∧
    (calls library p.limit).process definition p.state = some (.ok base, s)

/-- Where the script stands next behind its step, declaring where it did. -/
def Behind (library : Library μ) (p q : Spot μ) : Prop := Next library p q ∧ q.builder = p.builder

/-- The script itself extends no scope from here on. -/
def ExtendsNoMore (library : Library μ) (p : Spot μ) : Prop :=
  ∀ q base, Relation.ReflTransGen (Behind library) p q → ¬ q.Extending library base

/-- **The last step of the script itself** that extends a scope extends `base`. -/
def ExtendsLast (library : Library μ) (p : Spot μ) (base : ScopeId) : Prop :=
  ∃ q, Relation.ReflTransGen (Behind library) p q ∧ q.Extending library base ∧
    ∀ q', Behind library q q' → q'.ExtendsNoMore library

/-- It does not either behind its next step. -/
theorem ExtendsNoMore.behind (h : p.ExtendsNoMore library) (hnext : Next library p q)
    (hb : q.builder = p.builder) : q.ExtendsNoMore library := fun q' base hlater =>
  h q' base (.head ⟨hnext, hb⟩ hlater)

/-- A script that extends nothing does not either further on. -/
theorem ExtendsNoMore.of_script (h : p.script.ExtendsNothing) : p.ExtendsNoMore library := by
  intro q base hlater hext
  have hq : q.script.ExtendsNothing := by
    clear hext
    induction hlater with
    | refl => exact h
    | @tail q q' _ hnext ih =>
      obtain ⟨hnext, hb⟩ := hnext
      cases hnext with
      | add | addUnnamed | find | scope | use | nameOf | look => exact ih _
      | extend | extended => exact ih.elim
      | group => exact ih.2 _
      | grouped => exact ih.1
      | report | remember => exact ih
  obtain ⟨definition, next, s, hscript, -⟩ := hext
  rw [hscript] at hq
  exact hq

/-- A step that extends a scope is the last one, if nothing behind it extends another one. -/
theorem Extending.extendsLast {limit definition : Nat} {next : Except Error ScopeId → Script μ}
    {b : Builder} (h : Extending library ⟨limit, .extend definition next, b, s⟩ base)
    (hrest : ∀ answer, (next answer).ExtendsNothing) :
    ExtendsLast library ⟨limit, .extend definition next, b, s⟩ base := by
  refine ⟨_, .refl, h, fun q ⟨hnext, hb⟩ => ?_⟩
  cases hnext with
  | extend => exact .of_script (hrest _)
  | extended => exact absurd (congrArg Builder.depth hb) (Nat.succ_ne_self _)

/-- What the script extends last from behind its step on, it extends last. -/
theorem ExtendsLast.behind (h : q.ExtendsLast library base) (hnext : Behind library p q) :
    p.ExtendsLast library base := by
  obtain ⟨q', hlater, hrest⟩ := h
  exact ⟨q', .head hnext hlater, hrest⟩

/-- **What the scope of the script extends stays,** if the script extends
    nothing itself any more. -/
theorem run_rebases {limit : Nat} (script : Script μ) (s : Engine × μ)
    (hp : Placed root roots ⟨limit, script, ⟨root, 0⟩, s⟩)
    (hnone : ExtendsNoMore library ⟨limit, script, ⟨root, 0⟩, s⟩) :
    Moves (StepwiseState (fun _ b => Rebases b) (root :: roots) ⟨root, 1⟩)
      (script.run (calls library limit) ⟨root, 0⟩) s := by
  have hR := rebases_stepwise
  have hcalls := calls_stepped hR library limit
  have := hR.isPreorder (μ := μ) (root :: roots) ⟨root, 1⟩
  -- As no step of the script itself sets what the scope extends, it might run in another one.
  induction script generalizing s with
  | done => exact .pure _ s
  | fail err => exact .throw err s
  | add slot rule next ih =>
    exact .bind (moves_onEngine (hR.addRule (b := ⟨root, 1⟩) hp.sound hp.inside slot rule))
      fun r s₁ h₁ => ih r s₁ (hp.next library (.add h₁)) (hnone.behind (.add h₁) rfl)
  | addUnnamed rule next ih =>
    exact .bind (moves_onEngine (hR.addUnnamedRule (b := ⟨root, 1⟩) hp.sound hp.inside rule))
      fun r s₁ h₁ => ih r s₁ (hp.next library (.addUnnamed h₁)) (hnone.behind (.addUnnamed h₁) rfl)
  | find slot next ih => exact ih _ s ⟨hp.sound, hp.inside⟩ (hnone.behind .find rfl)
  | scope next ih => exact ih _ s ⟨hp.sound, hp.inside⟩ (hnone.behind .scope rfl)
  | extend definition next ih =>
    rw [Script.run_extend]
    refine .bind (moves_attempt fun r s₁ h₁ => ?_)
      fun answer s₁ h₁ => ih answer s₁ (hp.next library (.extend h₁))
        (hnone.behind (.extend h₁) rfl)
    rcases partial_bind_eq_some h₁ with ⟨base, s₂, h₂, -⟩ | ⟨err, h₂, -⟩
    · exact absurd ⟨definition, next, s₂, rfl, h₂⟩ (hnone _ base .refl)
    · exact hR.process (b := ⟨root, 1⟩) hp.sound hp.inside (hcalls.process hp.sound h₂)
  | use definition next ih =>
    rw [Script.run_use]
    exact .bind (moves_attempt (Script.usage_stepwise (b := ⟨root, 1⟩) hR.toScripted hcalls
      hp.sound hp.inside definition)) fun answer s₁ h₁ =>
        ih answer s₁ (hp.next library (.use h₁)) (hnone.behind (.use h₁) rfl)
  | group condition body next _ ih =>
    rw [Script.run_group]
    exact .bind (moves_attempt (Script.grouping_stepwise (b := ⟨root, 1⟩) hR.toScripted hcalls
      hp.sound hp.inside condition fun b s hs hb =>
        body.run_stepwise hR.toScripted hcalls b s hs hb)) fun answer s₁ h₁ =>
          ih answer s₁ (hp.next library (.group h₁)) (hnone.behind (.group h₁) rfl)
  | nameOf cell next ih => exact ih _ s ⟨hp.sound, hp.inside⟩ (hnone.behind .nameOf rfl)
  | report event next ih =>
    have hreport : Rebases ⟨root, 1⟩ s.1 (s.1.report event) := .refl s.1
    refine .bind (moves_changeEngine hreport) fun _ s₁ h₁ => ?_
    cases h₁
    exact ih _ (hp.next library .report) (hnone.behind .report rfl)
  | look next ih => exact ih _ s ⟨hp.sound, hp.inside⟩ (hnone.behind .look rfl)
  | remember change next ih =>
    exact ih (s.1, change s.2) ⟨hp.sound, hp.inside⟩ (hnone.behind .remember rfl)

/-- A script ends as it does from behind its step. -/
theorem Behind.run (h : Behind library p q) (hp : p.Placed root roots)
    (hrun : p.run library = some (r, s')) : q.run library = some (r, s') := by
  obtain ⟨hnext, hb⟩ := h
  cases hnext with
  | add h | addUnnamed h | use h | group h =>
    have hrest := run_after hrun h
    exact hrest
  | @extend limit definition next b s answer s₁ h =>
    have hrun' : (Script.extend definition next).run (calls library limit) b s =
      some (r, s') := hrun
    rw [Script.run_extend] at hrun'
    have hrest := run_after hrun' h
    exact hrest
  | extended h h' => exact absurd (congrArg Builder.depth hb) (Nat.succ_ne_self _)
  | grouped h =>
    -- A nested scope is new.
    obtain ⟨t, ht⟩ := hp.inside.live
    have hold := hp.sound.linked.lt_nextScope ht
    rw [← hb] at hold
    exact absurd hold (addNested_ok (onEngine_eq_some h) ▸ lt_irrefl _)
  | find | scope | nameOf | report | look | remember => exact hrun

/-- **So it does from wherever it stands itself later.** -/
theorem run_behind (h : Relation.ReflTransGen (Behind library) p q) (hp : p.Placed root roots)
    (hrun : p.run library = some (r, s')) :
    q.Placed root roots ∧ q.builder = p.builder ∧ q.run library = some (r, s') := by
  induction h with
  | refl => exact ⟨hp, rfl, hrun⟩
  | tail _ hnext ih =>
    obtain ⟨hq, hb, hrunq⟩ := ih
    exact ⟨(hnext.1.placed hq hrunq).1, hnext.2.trans hb, hnext.run hq hrunq⟩

/-- **The last step that extends a scope has put it in place.** -/
theorem Extending.last (hext : p.Extending library base) (hp : p.Placed root roots)
    (hb : p.builder = ⟨root, 0⟩)
    (hlast : ∀ q, Behind library p q → q.ExtendsNoMore library)
    (hrun : p.run library = some (r, s')) :
    ∃ t, s'.1.scope? root = some t ∧ t.base = some base := by
  obtain ⟨limit, script, b, s⟩ := p
  obtain ⟨definition, next, s₁, hscript, hprocess⟩ := hext
  simp only at hb hscript hprocess
  subst hb hscript
  have hbuild := calls_build_anything library limit
  replace hrun : (Script.extend definition next).run (calls library limit) ⟨root, 0⟩ s =
    some (r, s') := hrun
  rw [Script.run_extend] at hrun
  rcases partial_bind_eq_some hrun with ⟨answer, s₃, hattempt, hrest⟩ | ⟨err, hattempt, -⟩
  · obtain ⟨r₃, hextension, -⟩ := attempt_eq_some hattempt
    unfold Script.extension at hextension
    have hbehind := run_after hextension hprocess
    obtain ⟨hs₁, hx₁⟩ := (hbuild.process hp.sound trivial hprocess).1.sound hp.sound
    have hin₁ := hx₁.inside hp.inside
    obtain ⟨t, ht⟩ := hin₁.live
    -- The scope is in place before the script of the definition runs, and that puts none there.
    let s₂ : Engine × μ := (s₁.1.modifyScope root fun s => { s with base := some base }, s₁.2)
    have hset : Script.setBase ⟨root, 0⟩ base s₁ = some (.ok (), s₂) := rfl
    have hscope : s₂.1.scope? root = some { t with base := some base } :=
      scope?_modifyScope_self _ ht
    obtain ⟨hs₂, hx₂⟩ :=
      Builds.sound (Script.setBase_builds (P := anything) hin₁ base _ s₂ hset) hs₁
    have hdeclared : Rebases ⟨root, 1⟩ s₂.1 s₃.1 := by
      have hdeclare : ∀ {a}, (calls library limit).declare definition ⟨root, 1⟩ s₂ = some (a, s₃) →
          Rebases ⟨root, 1⟩ s₂.1 s₃.1 := fun hd =>
        (calls_stepped rebases_stepwise library limit).declare hs₂ (hx₂.inside hin₁) hd
      have hrun' := run_after hbehind hset
      rcases partial_bind_eq_some hrun' with ⟨_, s₄, hd, hpure⟩ | ⟨err, hd, -⟩
      · cases hpure
        exact hdeclare hd
      · exact hdeclare hd
    have hp₃ : Placed root roots ⟨limit, next answer, ⟨root, 0⟩, s₃⟩ :=
      hp.next library (.extend hattempt)
    have hkept : Rebases ⟨root, 1⟩ s₂.1 s'.1 :=
      hdeclared.trans
      (run_rebases (next answer) s₃ hp₃ (hlast _ ⟨.extend hattempt, rfl⟩) r s' hrest)
    obtain ⟨t', ht', hR⟩ := hkept root _ hscope
    exact ⟨t', ht', hR.base fun hc => Nat.one_ne_zero hc.2⟩
  · obtain ⟨_, -, hr⟩ := attempt_eq_some hattempt
    cases hr

/-- Where the script of a definition starts that gets a new scope. -/
def start (library : Library μ) (limit key : Nat) (s : Engine × μ) : Spot μ :=
  ⟨limit, (library key).script, ⟨s.1.nextScope, 0⟩, (opened (library key) s.1, s.2)⟩

end Spot

namespace Engine

variable {library : Library μ} {limit key : Nat} {roots : List ScopeId} {s s' : Engine × μ}
  {id base : ScopeId}

/-- **The scope of a definition extends what its script extends last itself.** -/
theorem process_base (hs : Sound roots s.1) (hnew : s.1.scopeOf? (library key).key = none)
    (h : process library limit key s = some (.ok id, s'))
    (hext : (Spot.start library limit key s).ExtendsLast library base) :
    ∃ t, s'.1.scope? id = some t ∧ t.owner = none ∧ t.base = some base := by
  obtain ⟨declared, s₁, hscript, hend⟩ := construct_cases (process_construct hnew h)
  have ho := opened_spec (library key) hs
  obtain ⟨t₀, ht₀, -⟩ := ho.sound.root_owner List.mem_cons_self
  have hstart : (Spot.start library limit key s).Placed s.1.nextScope roots := ⟨ho.sound, .root ht₀⟩
  -- After its last extension at depth zero the script leaves the base alone, and so does
  -- processing.
  obtain ⟨p, hlater, hextending, hlast⟩ := hext
  obtain ⟨hp, hb, hrun⟩ := Spot.run_behind hlater hstart hscript
  obtain ⟨t₁, ht₁, hbase⟩ := hextending.last hp hb hlast hrun
  obtain ⟨hs₁, -⟩ := Builds.sound (Script.run_builds_anything (b := ⟨s.1.nextScope, 0⟩)
    (calls_build_anything library limit) _ ho.sound (.root ht₀) _ s₁ hscript) ho.sound
  obtain ⟨u, hu, howner⟩ := hs₁.root_owner List.mem_cons_self
  cases ht₁.symm.trans hu
  rcases hend with ⟨_, _, -, hr, -⟩ | ⟨_, _, -, hr, -⟩ | ⟨-, hr, hproc⟩
  · cases hr
  · cases hr
  · cases hr
    have hsourced := processWithin_sourced s₁.1.naming s₁.1.endConstruction.walkLimit
      hs₁.endConstruction.among
    have hrun' : processWithin s₁.1.endConstruction.walkLimit s.1.nextScope s₁.1.endConstruction =
      (.ok (), s'.1) := hproc
    rw [hrun'] at hsourced
    obtain ⟨t, ht, hR⟩ := hsourced.rescoped.scope ht₁
    exact ⟨t, ht, hR.owner.trans howner, hR.base.trans hbase⟩

end Engine

end StyleBook
