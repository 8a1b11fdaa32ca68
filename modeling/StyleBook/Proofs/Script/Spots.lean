import StyleBook.Proofs.Script.Stepwise

namespace StyleBook

/-!
# Where a script stands

A limit says how many definitions may be reached inside each other. It only decides whether there
is a result, never which one.

A script that runs stands at one spot after the other: before each of its own steps, and before each
step of the scripts of its groups and of the definitions that it extends.

* `BuildM.Below` — what one computation results in, the other one results in, too;
* `Script.run_below` — so it is for a script, if it is for the definitions that it reaches;
* `Engine.processInstance_mono` — a larger limit keeps the result;
* `Spot`, `Spot.run` — what is left of a script, and what comes of it;
* `Spot.Next`, `Spot.Later` — where it stands next, and where it stands at some time;
* `Spot.Later.across` — what holds across each step holds up to each spot where a script stands;
* `Spot.Later.runs` — a script that ends has run on from each spot where it stood, and what holds
  across each step holds from there to its end.
-/

variable {μ α β : Type}

namespace BuildM

/-- What the first computation results in, the second one results in. -/
def Below (c d : BuildM μ α) : Prop := ∀ s out, c s = some out → d s = some out

namespace Below

/-- A computation results in what it does. -/
theorem refl (c : BuildM μ α) : Below c c := fun _ _ h => h

/-- A computation that reaches the limit results in nothing. -/
theorem exhausted (c : BuildM μ α) : Below BuildM.exhausted c := fun _ _ h => by cases h

/-- One computation after the other. -/
theorem bind {c d : BuildM μ α} {f g : α → BuildM μ β} (h : Below c d)
    (hf : ∀ a, Below (f a) (g a)) : Below (c >>= f) (d >>= g) := by
  rintro s ⟨r, s'⟩ hrun
  rw [partial_bind]
  rcases partial_bind_eq_some hrun with ⟨a, s₁, h₁, h₂⟩ | ⟨err, h₁, rfl⟩
  · rw [h s _ h₁]
    exact hf a s₁ _ h₂
  · rw [h s _ h₁]

/-- The same computation first. -/
theorem next {c : BuildM μ α} {f g : α → BuildM μ β} (hf : ∀ a, Below (f a) (g a)) :
    Below (c >>= f) (c >>= g) := bind (refl c) hf

/-- An attempt, if what is attempted does. -/
theorem attempt {c d : BuildM μ α} (h : Below c d) :
    Below (BuildM.attempt c) (BuildM.attempt d) := by
  rintro s ⟨r, s'⟩ hrun
  obtain ⟨r', hc, rfl⟩ := attempt_eq_some hrun
  unfold BuildM.attempt
  rw [h s _ hc]

end Below

end BuildM

open BuildM

/-- So it is for all definitions that are reached. -/
structure Calls.Below (calls calls' : Calls μ) : Prop where
  process (key : Nat) : BuildM.Below (calls.process key) (calls'.process key)
  declare (key : Nat) (b : Builder) : BuildM.Below (calls.declare key b) (calls'.declare key b)

/-- **A script results in the same, if the definitions that it reaches do.** -/
theorem Script.run_below {calls calls' : Calls μ} (h : calls.Below calls') (script : Script μ)
    (b : Builder) : Below (script.run calls b) (script.run calls' b) := by
  -- Only the calls that reach definitions depend on the limit; every other step is the same.
  induction script generalizing b with
  | done => exact .refl _
  | fail err => exact .refl _
  | add slot rule next ih => exact .next fun r => ih r b
  | addUnnamed rule next ih => exact .next fun r => ih r b
  | find slot next ih => exact .next fun s => ih _ b
  | scope next ih => exact ih _ b
  | extend definition next ih =>
    rw [run_extend, run_extend]
    refine .bind (.attempt ?_) fun answer => ih answer b
    exact .bind (h.process definition) fun base => .next fun _ =>
      .bind (h.declare definition _) fun _ => .refl _
  | use definition next ih =>
    rw [run_use, run_use]
    refine .bind (.attempt ?_) fun answer => ih answer b
    exact .bind (h.process definition) fun used => .refl _
  | group condition body next ihb ih =>
    rw [run_group, run_group]
    refine .bind (.attempt ?_) fun answer => ih answer b
    exact .next fun child => .bind (ihb ⟨child, 0⟩) fun _ => .refl _
  | nameOf cell next ih => exact .next fun s => ih _ b
  | report event next ih => exact .next fun _ => ih b
  | look next ih => exact .next fun s => ih _ b
  | remember change next ih => exact .next fun _ => ih b

namespace Engine

variable {calls calls' : Calls μ}

/-- An instance of a definition, if the definitions that it reaches do. -/
theorem processInstanceWith_below (h : calls.Below calls') (d : Definition μ) :
    Below (processInstanceWith calls d) (processInstanceWith calls' d) := by
  have hconstruct : Below (construct calls d) (construct calls' d) := by
    unfold construct
    exact .next fun id => .bind (.attempt (d.script.run_below h ⟨id, 0⟩)) fun _ => .refl _
  unfold processInstanceWith
  refine .next fun ⟨e, memory⟩ => ?_
  by_cases hkey : d.key ∈ e.constructing
  · simp only [if_pos hkey]
    exact .refl _
  · simp only [if_neg hkey]
    split
    · exact .refl _
    · exact hconstruct

/-- A definition, likewise. -/
theorem processWith_below (h : calls.Below calls') (d : Definition μ) :
    Below (processWith calls d) (processWith calls' d) := by
  unfold processWith
  refine .next fun ⟨e, memory⟩ => ?_
  simp only
  cases e.scopeOf? d.key with
  | some id => exact .refl _
  | none => exact processInstanceWith_below h d

/-- **The definitions of a library result in the same under a larger limit.** -/
theorem calls_below (library : Library μ) {limit limit' : Nat} (h : limit ≤ limit') :
    (Engine.calls library limit).Below (Engine.calls library limit') := by
  induction limit generalizing limit' with
  | zero => exact ⟨fun _ => .exhausted _, fun _ _ => .exhausted _⟩
  | succ limit ih =>
    obtain ⟨more, rfl⟩ : ∃ more, limit' = more + 1 := ⟨limit' - 1, by omega⟩
    have hcalls := ih (Nat.le_of_succ_le_succ h)
    exact ⟨fun key => processWith_below hcalls (library key),
      fun key b => (library key).script.run_below hcalls b⟩

/-- **A larger limit keeps the result** for an instance of a definition. -/
theorem processInstance_mono (library : Library μ) {limit limit' : Nat} (h : limit ≤ limit')
    (d : Definition μ) :
    Below (processInstance library limit d) (processInstance library limit' d) :=
  processInstanceWith_below (calls_below library h) d

end Engine

/-! ### Spots -/

/-- What is left of a script that declares with a builder, in the state that it finds. -/
structure Spot (μ : Type) where
  /-- How many definitions are reached inside each other at most. -/
  limit : Nat
  /-- What is left. -/
  script : Script μ
  /-- Where it declares. -/
  builder : Builder
  /-- What it finds. -/
  state : Engine × μ

namespace Spot

open BuildM
open Engine hiding onEngine changeEngine

/-- What comes of the script from here on. -/
def run (library : Library μ) (p : Spot μ) : Option (Except Error Unit × (Engine × μ)) :=
  p.script.run (calls library p.limit) p.builder p.state

/-- **Where a script stands next:** behind its step; or at the start of the group or of the extended
    definition that the step is about. -/
inductive Next (library : Library μ) : Spot μ → Spot μ → Prop
  | add {limit slot rule next b s r s'}
    (h : onEngine (addRule b.scope slot rule) s = some (.ok r, s')) :
    Next library ⟨limit, .add slot rule next, b, s⟩ ⟨limit, next r, b, s'⟩
  | addUnnamed {limit rule next b s r s'}
    (h : onEngine (addUnnamedRule b.scope rule) s = some (.ok r, s')) :
    Next library ⟨limit, .addUnnamed rule next, b, s⟩ ⟨limit, next r, b, s'⟩
  | find {limit slot next b s} :
    Next library ⟨limit, .find slot next, b, s⟩ ⟨limit, next (s.1.findRule b.scope slot), b, s⟩
  | scope {limit next b s} :
    Next library ⟨limit, .scope next, b, s⟩ ⟨limit, next b.scope, b, s⟩
  | extend {limit definition next b s answer s'}
    (h : attempt (Script.extension (calls library limit) definition b) s =
      some (.ok answer, s')) :
    Next library ⟨limit, .extend definition next, b, s⟩ ⟨limit, next answer, b, s'⟩
  /-- The extended definition has a processed scope, and its script starts. -/
  | extended {limit definition next b s base s₁ s'}
    (h : (calls library (limit + 1)).process definition s = some (.ok base, s₁))
    (h' : Script.setBase b base s₁ = some (.ok (), s')) :
    Next library ⟨limit + 1, .extend definition next, b, s⟩
      ⟨limit, (library definition).script, { b with depth := b.depth + 1 }, s'⟩
  | use {limit definition next b s answer s'}
    (h : attempt (Script.usage (calls library limit) definition b) s = some (.ok answer, s')) :
    Next library ⟨limit, .use definition next, b, s⟩ ⟨limit, next answer, b, s'⟩
  | group {limit condition body next b s answer s'}
    (h : attempt (Script.grouping (calls library limit) condition body b) s =
      some (.ok answer, s')) :
    Next library ⟨limit, .group condition body next, b, s⟩ ⟨limit, next answer, b, s'⟩
  /-- The group has a nested scope, and its script starts. -/
  | grouped {limit condition body next b s child s'}
    (h : onEngine (addNested b.scope) s = some (.ok child, s')) :
    Next library ⟨limit, .group condition body next, b, s⟩ ⟨limit, body, ⟨child, 0⟩, s'⟩
  | nameOf {limit cell next b s} :
    Next library ⟨limit, .nameOf cell next, b, s⟩ ⟨limit, next (cell.name? s.1.names), b, s⟩
  | report {limit event next b s} :
    Next library ⟨limit, .report event next, b, s⟩ ⟨limit, next, b, (s.1.report event, s.2)⟩
  | look {limit next b s} :
    Next library ⟨limit, .look next, b, s⟩ ⟨limit, next s.2, b, s⟩
  | remember {limit change next b s} :
    Next library ⟨limit, .remember change next, b, s⟩ ⟨limit, next, b, (s.1, change s.2)⟩

/-- **Where a script stands now or later.** -/
abbrev Later (library : Library μ) : Spot μ → Spot μ → Prop :=
  Relation.ReflTransGen (Next library)

/-- The script declares in a scope of the definition that declares. -/
structure Placed (root : ScopeId) (roots : List ScopeId) (p : Spot μ) : Prop where
  sound : Sound (root :: roots) p.state.1
  inside : p.state.1.Inside root p.builder.scope

variable {library : Library μ} {p q : Spot μ} {root : ScopeId} {roots : List ScopeId}
  {R : Engine → Engine → Prop} {r : Except Error Unit} {s' : Engine × μ}

/-- It still does so after a computation that builds. -/
theorem Placed.after {limit : Nat} {script : Script μ} {c : BuildM μ α} {a : Except Error α}
    {s₁ : Engine × μ} (hp : p.Placed root roots)
    (hbuilds : Moves (BuildsState anything (root :: roots)) c p.state)
    (h : c p.state = some (a, s₁)) : Placed root roots ⟨limit, script, p.builder, s₁⟩ := by
  obtain ⟨hs, hx⟩ := Builds.sound (hbuilds a s₁ h) hp.sound
  exact ⟨hs, hx.inside hp.inside⟩

/-- What is left after a step. -/
theorem run_after {β : Type} {c : BuildM μ α} {f : α → BuildM μ β} {s s₁ s' : Engine × μ} {a : α}
    {r : Except Error β} (h : (c >>= f) s = some (r, s')) (hc : c s = some (.ok a, s₁)) :
    f a s₁ = some (r, s') := by
  rw [partial_bind, hc] at h
  exact h

/-- A relation that says nothing of definitions that declare holds across no step at all. -/
theorem rel_refl (hR : Stepwise (fun _ => R) (fun _ _ => R)) (e : Engine) : R e e :=
  @Scripted.refl _ _ hR.toScripted [] ⟨0, 0⟩ e

/-- It holds across one step after the other. -/
theorem rel_trans (hR : Stepwise (fun _ => R) (fun _ _ => R)) {e e' e'' : Engine} (h : R e e')
    (h' : R e' e'') : R e e'' := @Scripted.trans _ _ hR.toScripted [] ⟨0, 0⟩ _ _ _ h h'

/-- A relation that holds across each step holds from what a computation has done to the end of
    the script. -/
theorem rest_stepwise (hR : Stepwise (fun _ => R) (fun _ _ => R)) {limit : Nat} {b : Builder}
    {c : BuildM μ α} {f : α → Script μ} {s s₁ : Engine × μ} {a : Except Error α}
    (h : (do let a ← c; (f a).run (calls library limit) b) s = some (r, s'))
    (hc : c s = some (a, s₁)) (hs : Sound (root :: roots) s₁.1)
    (hb : s₁.1.Inside root b.scope) : R s₁.1 s'.1 := by
  rw [partial_bind, hc] at h
  cases a with
  | error err =>
    cases h
    exact rel_refl hR _
  | ok a =>
    exact (f a).run_stepwise hR.toScripted (calls_stepped hR library limit) b s₁ hs hb r s' h

/-- **Where a script stands next it declares in a scope of the definition that declares.** -/
theorem Placed.next (library : Library μ) (hp : p.Placed root roots) (h : Next library p q) :
    q.Placed root roots := by
  have hcalls := fun limit => calls_build_anything library limit
  cases h with
  | add h => exact hp.after (moves_onEngine (addRule_builds hp.inside (fun _ _ => trivial) _)) h
  | addUnnamed h =>
    exact hp.after (moves_onEngine (addUnnamedRule_builds hp.inside fun _ _ => trivial)) h
  | find | scope | nameOf | look | remember => exact ⟨hp.sound, hp.inside⟩
  | @extend limit _ _ _ _ _ _ h =>
    exact hp.after (moves_attempt (Script.extension_builds (hcalls limit) hp.sound hp.inside
      trivial fun _ _ _ => trivial)) h
  | @extended limit definition next b s base s₁ s₂ h h' =>
    -- The definition is processed, and the scope may get it as what it extends.
    obtain ⟨hs₁, hx₁⟩ := ((hcalls (limit + 1)).process hp.sound trivial h).1.sound hp.sound
    have hb₁ := hx₁.inside hp.inside
    obtain ⟨hs₂, hx₂⟩ := Builds.sound (Script.setBase_builds (P := anything) hb₁ base _ s₂ h') hs₁
    exact ⟨hs₂, hx₂.inside hb₁⟩
  | @use limit _ _ _ _ _ _ h =>
    exact hp.after (moves_attempt (Script.usage_builds (hcalls limit) hp.sound hp.inside trivial)) h
  | @group limit condition body _ _ _ _ _ h =>
    exact hp.after (moves_attempt (Script.grouping_builds hp.sound hp.inside condition
      fun child s₁ _ hs₁ hin => Script.run_builds_anything (b := ⟨child, 0⟩) (hcalls limit) body
        hs₁ hin)) h
  | grouped h =>
    obtain ⟨child, e₁, hnest, hbuilds, hin⟩ := addNested_builds (P := anything) hp.sound.linked
      hp.inside
    rw [BuildM.onEngine_apply, hnest] at h
    cases h
    exact ⟨((hbuilds roots).sound hp.sound).1, hin⟩
  | report =>
    exact hp.after (moves_changeEngine (.aside rfl rfl rfl)) (c := changeEngine (·.report _)) rfl

/-- A relation that holds across each step holds up to there. -/
theorem Next.across (hR : Stepwise (fun _ => R) (fun _ _ => R)) (h : Next library p q)
    (hp : p.Placed root roots) : q.Placed root roots ∧ R p.state.1 q.state.1 := by
  have hcalls := fun limit => calls_stepped hR library limit
  have hsame := rel_refl hR p.state.1
  refine ⟨hp.next library h, ?_⟩
  cases h with
  | @add limit slot rule next b s a s₁ h =>
    exact moves_onEngine (R := fun s s' => R s.1 s'.1) (hR.addRule hp.sound hp.inside slot rule) _ _
      h
  | @addUnnamed limit rule next b s a s₁ h =>
    exact moves_onEngine (R := fun s s' => R s.1 s'.1)
      (hR.addUnnamedRule hp.sound hp.inside rule) _ _ h
  | find | scope | nameOf | look | remember => exact hsame
  | @extend limit definition next b s answer s₁ h =>
    exact moves_attempt (Script.extension_stepwise hR.toScripted (hcalls limit) hp.sound hp.inside
      definition) _ _ h
  | @extended limit definition next b s base s₁ s₂ h h' =>
    obtain ⟨hbuilds, hreached⟩ := (hcalls (limit + 1)).builds.process hp.sound trivial h
    obtain ⟨hs₁, hx₁⟩ := hbuilds.sound hp.sound
    have hb₁ := hx₁.inside hp.inside
    have hprocess : R s.1 s₁.1 :=
      hR.process hp.sound hp.inside ((hcalls (limit + 1)).process hp.sound h)
    refine rel_trans hR hprocess ?_
    unfold Script.setBase at h'
    split at h'
    · cases h'
      exact hR.setBase hs₁ hb₁ ‹_› (hreached base rfl)
    · cases h'
      exact rel_refl hR _
  | @use limit definition next b s answer s₁ h =>
    exact moves_attempt (Script.usage_stepwise hR.toScripted (hcalls limit) hp.sound hp.inside
      definition) _ _ h
  | @group limit condition body next b s answer s₁ h =>
    exact moves_attempt (Script.grouping_stepwise hR.toScripted (hcalls limit) hp.sound hp.inside
      condition fun b s hs hb => body.run_stepwise hR.toScripted (hcalls limit) b s hs hb) _ _ h
  | @grouped limit condition body next b s child s₁ h =>
    -- A group without a rule yet is a group across which the relation holds.
    have hnested : R s.1 (addNested b.scope s.1).2 :=
      hR.group hp.sound hp.inside (rel_refl hR _)
    rw [BuildM.onEngine_apply] at h
    rcases hnest : addNested b.scope s.1 with ⟨answer, e₁⟩
    rw [hnest] at h hnested
    cases h
    exact hnested
  | @report limit event next b s => exact @Scripted.report _ _ hR.toScripted [] ⟨0, 0⟩ _ event

/-- **So it is wherever it stands later.** -/
theorem Later.across (hR : Stepwise (fun _ => R) (fun _ _ => R)) (h : Later library p q)
    (hp : p.Placed root roots) : q.Placed root roots ∧ R p.state.1 q.state.1 := by
  induction h with
  | refl => exact ⟨hp, rel_refl hR _⟩
  | tail _ hnext ih =>
    obtain ⟨hq, h₁⟩ := ih
    obtain ⟨hq', h₂⟩ := hnext.across hR hq
    exact ⟨hq', rel_trans hR h₁ h₂⟩

/-- Running on from `q`, the script ends, and the relation holds from there to `s'`. -/
def RunsTo (library : Library μ) (R : Engine → Engine → Prop) (q : Spot μ) (s' : Engine × μ) :
    Prop := ∃ r s₁, q.run library = some (r, s₁) ∧ R s₁.1 s'.1

/-- The script of an extended definition runs to its end, and then the one that extends it. -/
theorem extended_runs (hR : Stepwise (fun _ => R) (fun _ _ => R)) {limit definition : Nat}
    {next : Except Error ScopeId → Script μ} {b : Builder} {base : ScopeId} {s s₁ s₂ : Engine × μ}
    (h : (calls library (limit + 1)).process definition s = some (.ok base, s₁))
    (h' : Script.setBase b base s₁ = some (.ok (), s₂)) (hs : Sound (root :: roots) s.1)
    (hb : s.1.Inside root b.scope)
    (hrun : (Script.extend definition next).run (calls library (limit + 1)) b s = some (r, s')) :
    RunsTo library R ⟨limit, (library definition).script, { b with depth := b.depth + 1 }, s₂⟩ s' :=
    by
  have hbuild := calls_build_anything library (limit + 1)
  rw [Script.run_extend] at hrun
  rcases partial_bind_eq_some hrun with ⟨answer, s₃, hattempt, -⟩ | ⟨err, hattempt, -⟩
  · obtain ⟨r₃, hext, -⟩ := attempt_eq_some hattempt
    obtain ⟨hs₃, hx₃⟩ := Builds.sound (moves_attempt (Script.extension_builds hbuild hs hb trivial
      fun _ _ _ => trivial) _ s₃ hattempt) hs
    have hrest := rest_stepwise hR hrun hattempt hs₃ (hx₃.inside hb)
    -- The extension ends as the script of the definition does.
    unfold Script.extension at hext
    have hbase := run_after hext h
    have hdeclare := run_after hbase h'
    rcases partial_bind_eq_some hdeclare with ⟨_, s₄, hd, hpure⟩ | ⟨err, hd, -⟩
    · cases hpure
      exact ⟨_, _, hd, hrest⟩
    · exact ⟨_, _, hd, hrest⟩
  · obtain ⟨_, -, hr⟩ := attempt_eq_some hattempt
    cases hr

/-- The script of a group runs to its end, and then the one that declares the group. -/
theorem grouped_runs (hR : Stepwise (fun _ => R) (fun _ _ => R)) {limit : Nat}
    {condition : GroupCondition} {body : Script μ} {next : Except Error RuleRef → Script μ}
    {b : Builder} {child : ScopeId} {s s₁ : Engine × μ}
    (h : onEngine (addNested b.scope) s = some (.ok child, s₁)) (hs : Sound (root :: roots) s.1)
    (hb : s.1.Inside root b.scope)
    (hrun : (Script.group condition body next).run (calls library limit) b s = some (r, s')) :
    RunsTo library R ⟨limit, body, ⟨child, 0⟩, s₁⟩ s' := by
  have hbuild := calls_build_anything library limit
  obtain ⟨child', e₁, hnest, hbuilds, hin⟩ := addNested_builds (P := anything) hs.linked hb
  have hfirst := h
  rw [BuildM.onEngine_apply, hnest] at hfirst
  cases hfirst
  obtain ⟨hs₁, hx₁⟩ := (hbuilds roots).sound hs
  have hbody := Script.run_builds_anything (b := ⟨child, 0⟩) (s := (e₁, s.2)) hbuild body hs₁ hin
  rw [Script.run_group] at hrun
  rcases partial_bind_eq_some hrun with ⟨answer, s₃, hattempt, -⟩ | ⟨err, hattempt, -⟩
  · obtain ⟨r₃, hgroup, -⟩ := attempt_eq_some hattempt
    obtain ⟨hs₃, hx₃⟩ := Builds.sound (moves_attempt (Script.grouping_builds hs hb condition
      fun child s₁ _ hs₁ hin => Script.run_builds_anything (b := ⟨child, 0⟩) hbuild body hs₁ hin)
      _ s₃ hattempt) hs
    have hrest := rest_stepwise hR hrun hattempt hs₃ (hx₃.inside hb)
    -- Behind the rules of the group comes the rule for it.
    unfold Script.grouping at hgroup
    have hbehind := run_after hgroup h
    rcases partial_bind_eq_some hbehind with ⟨_, s₂, hd, hadd⟩ | ⟨err, hd, -⟩
    · obtain ⟨hs₂, hx₂⟩ := Builds.sound (hbody _ s₂ hd) hs₁
      refine ⟨_, _, hd, rel_trans hR ?_ hrest⟩
      cases hadd
      exact hR.addUnnamedRule hs₂ (hx₂.inside (hx₁.inside hb)) _
    · exact ⟨_, _, hd, hrest⟩
  · obtain ⟨_, -, hr⟩ := attempt_eq_some hattempt
    cases hr

/-- **A script that ends runs on from where it stands next.** -/
theorem Next.runs (hR : Stepwise (fun _ => R) (fun _ _ => R)) (h : Next library p q)
    (hp : p.Placed root roots) (hrun : p.run library = some (r, s')) :
    RunsTo library R q s' := by
  have hsame := rel_refl hR s'.1
  -- Each way to go on leaves the rest of the run, behind the call that was made.
  cases h with
  | add h =>
    have hrest := run_after hrun h
    exact ⟨r, s', hrest, hsame⟩
  | addUnnamed h =>
    have hrest := run_after hrun h
    exact ⟨r, s', hrest, hsame⟩
  | @extend limit definition next b s answer s₁ h =>
    have hrun' : (Script.extend definition next).run (calls library limit) b s =
      some (r, s') := hrun
    rw [Script.run_extend] at hrun'
    have hrest := run_after hrun' h
    exact ⟨r, s', hrest, hsame⟩
  | extended h h' => exact extended_runs hR h h' hp.sound hp.inside hrun
  | use h =>
    have hrest := run_after hrun h
    exact ⟨r, s', hrest, hsame⟩
  | group h =>
    have hrest := run_after hrun h
    exact ⟨r, s', hrest, hsame⟩
  | grouped h => exact grouped_runs hR h hp.sound hp.inside hrun
  | find | scope | nameOf | report | look | remember => exact ⟨r, s', hrun, hsame⟩

/-- Where it stands next it declares in a scope of the definition that declares, and it ends. -/
theorem Next.placed (h : Next library p q) (hp : p.Placed root roots)
    (hrun : p.run library = some (r, s')) :
    q.Placed root roots ∧ ∃ r₁ s₁, q.run library = some (r₁, s₁) := by
  have hany : Stepwise (fun _ _ _ => True) (fun _ _ _ _ => True) := by
    constructor
    · constructor <;> intros <;> trivial
    all_goals intros; trivial
  obtain ⟨r₁, s₁, hrun₁, -⟩ := h.runs hany hp hrun
  exact ⟨(h.across hany hp).1, r₁, s₁, hrun₁⟩

/-- **So it does from each spot where it stands later.** -/
theorem Later.runs (hR : Stepwise (fun _ => R) (fun _ _ => R)) (h : Later library p q)
    (hp : p.Placed root roots) (hrun : p.run library = some (r, s')) :
    q.Placed root roots ∧ RunsTo library R q s' := by
  induction h with
  | refl => exact ⟨hp, r, s', hrun, rel_refl hR _⟩
  | tail _ hnext ih =>
    obtain ⟨hq, r₁, s₁, hrun₁, h₁⟩ := ih
    obtain ⟨r₂, s₂, hrun₂, h₂⟩ := hnext.runs hR hq hrun₁
    exact ⟨(hnext.across hR hq).1, r₂, s₂, hrun₂, rel_trans hR h₂ h₁⟩

end Spot

end StyleBook
