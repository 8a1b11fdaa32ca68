import StyleBook.Proofs.Script.Attempts
import StyleBook.Proofs.Script.Stepwise

namespace StyleBook

/-!
# What holds where a script goes on

A script goes on behind its steps, in its groups, in the definitions that it extends, and in the
scripts of definitions that get scopes on the way. A relation between engines may hold across a step
only because of what the script declares there. Then it holds across all that the script does, if so
it is at each spot where the script goes on.

* `Spot.Onward`, `Spot.Onwards` — where a script goes on
* `Spot.Spotwise At R` — `R` holds across the steps of scripts that stand at spots in `At`
* `Attempt.spotwise` — then it holds across definitions that get scopes, if it
  does across their scripts
* `Spot.run_spotwise` — and across scripts
-/

variable {μ : Type}

namespace Scope

/-- The scopes that are nested in the scope still are. -/
def Nests (s s' : Scope) : Prop := s.children ⊆ s'.children

instance : IsPreorder Scope Nests where
  refl s := List.Subset.refl s.children
  trans _ _ _ := List.Subset.trans

/-- A change of anything else. -/
theorem Nests.of_children {s s' : Scope} (h : s'.children = s.children) : s.Nests s' := by
  unfold Nests
  rw [h]
  exact List.Subset.refl _

end Scope

namespace Engine

variable {e : Engine} {id : ScopeId}

/-- Nesting one more scope takes no scope out of another one. -/
theorem addNested_nests (he : Linked e) (id : ScopeId) :
    Carries (fun _ => Scope.Nests) e (addNested id e).2 :=
  .nested he fun _ _ => List.subset_append_left _ _

/-- **What is about nested scopes only,** and holds when there is one more,
    holds whatever is built. -/
theorem children_stepwise {T : Scope → Scope → Prop} [IsPreorder Scope T]
    (hsame : ∀ {s s' : Scope}, s'.children = s.children → T s s')
    (hmore : ∀ s child, T s { s with children := s.children ++ [child] }) :
    Stepwise (fun _ => Carries fun _ => T) (fun _ _ => Carries fun _ => T) := by
  refine carries_stepwise ?_ (fun _ _ _ _ _ hR => hR) fun hs =>
    .rescoped (hs.pending.processScope hs).progressed fun _ _ _ hR => hsame hR.children
  -- Among the steps of a script only a group adds a child, and processing adds none.
  exact
    { refl := .refl _
      trans := .trans
      report := fun event => .rescoped (.report event) fun _ _ _ hR => hR
      addRule := fun _ _ slot rule =>
        .rescoped (addRule_declared _ slot rule _) fun _ _ _ hR => hsame hR.children
      addUnnamedRule := fun _ _ rule =>
        .rescoped (addUnnamedRule_declared _ rule _) fun _ _ _ hR => hsame hR.children
      setBase := fun _ _ _ _ =>
        .rescoped (setBase_declared (C := fun _ => False) _ _ _) fun _ _ _ hR => hsame hR.children
      addReference := fun {_ _ _ _ _} _ _ _ =>
        .rescoped (addReference_referenced _ _ _) fun _ _ _ hR => hsame (by rw [hR.eq_references])
      process := fun _ _ h => h
      declare := fun h => h
      group := fun hs _ h => .trans (.nested hs.linked hmore) h }

/-- **Nested scopes stay nested, whatever is built.** -/
theorem nests_stepwise :
    Stepwise (fun _ => Carries fun _ => Scope.Nests) (fun _ _ => Carries fun _ => Scope.Nests) :=
  children_stepwise .of_children fun _ _ => List.subset_append_left _ _

end Engine

namespace Spot

open BuildM
open Engine hiding onEngine changeEngine

/-- **Where a script goes on:** at the next spot, or where the script of a definition starts that
    gets a scope. -/
inductive Onward (library : Library μ) : Spot μ → Spot μ → Prop
  | next {p q} (h : Next library p q) : Onward library p q
  | reached {p a} (h : p.Attempts library a) : Onward library p a.start

/-- Now or later. -/
abbrev Onwards (library : Library μ) : Spot μ → Spot μ → Prop :=
  Relation.ReflTransGen (Onward library)

/-- **The relation holds across the steps of scripts that stand at certain spots,** and across the
    beginning and the end of definitions that get scopes on the way. -/
structure Spotwise (At : Spot μ → Prop) (R : Engine → Engine → Prop) : Prop where
  refl {e} : R e e
  trans {e e' e''} : R e e' → R e' e'' → R e e''
  report {e} (event : Event) : R e (e.report event)
  add {limit slot rule next b s root roots} : At ⟨limit, .add slot rule next, b, s⟩ →
    Sound (root :: roots) s.1 → s.1.Inside root b.scope → R s.1 (addRule b.scope slot rule s.1).2
  addUnnamed {limit rule next b s root roots} : At ⟨limit, .addUnnamed rule next, b, s⟩ →
    Sound (root :: roots) s.1 → s.1.Inside root b.scope → R s.1 (addUnnamedRule b.scope rule s.1).2
  setBase {root roots e id base} : Sound (root :: roots) e → e.Inside root id → e.Ready base →
    R e (e.modifyScope id fun s => { s with base := some base })
  addReference {root roots e id used} : Sound (root :: roots) e → e.Inside root id → e.Ready used →
    R e (e.addReference id used)
  /-- A group gets a scope. -/
  addNested {root roots e id} : Sound (root :: roots) e → e.Inside root id → R e (addNested id e).2
  /-- A group that is nested in the scope gets its rule. -/
  groupRule {root roots e id t child} (condition : GroupCondition) : Sound (root :: roots) e →
    e.Inside root id → e.scope? id = some t → child ∈ t.children →
    R e (addUnnamedRule id (.ofContent (.group condition child)) e).2
  processed {roots e e₁ e'} (d : Definition μ) : Sound roots e → Sound (e.nextScope :: roots) e₁ →
    Extends (opened d e) e₁ → R (opened d e) e₁ →
    processScope e.nextScope e₁.endConstruction = (.ok (), e') → R e e'
  unprocessed {roots e e₁ e₂ err} (d : Definition μ) : Sound roots e →
    Sound (e.nextScope :: roots) e₁ → Extends (opened d e) e₁ → R (opened d e) e₁ →
    processScope e.nextScope e₁.endConstruction = (.error err, e₂) →
    R e (e₂.abandon e.nextScope d.key)
  failed {roots e e₁} (d : Definition μ) (event : Event) : Sound roots e →
    Sound (e.nextScope :: roots) e₁ → Extends (opened d e) e₁ → R (opened d e) e₁ →
    R e ((e₁.endConstruction.abandon e.nextScope d.key).report event)

variable {library : Library μ} {At : Spot μ → Prop} {R : Engine → Engine → Prop} {p q : Spot μ}
  {root : ScopeId} {roots : List ScopeId} {limit definition : Nat} {b : Builder} {s s' : Engine × μ}

/-- **Across a definition that gets a scope,** if so it is across its script. -/
theorem Spotwise.attempt (hR : Spotwise At R) {a : Attempt μ} (hs : Sound roots a.state.1)
    (hscript : ∀ {r s₁}, a.start.run library = some (r, s₁) →
      R (opened a.definition a.state.1) s₁.1) {r : Except Error ScopeId}
    (h : a.run library = some (r, s')) : R a.state.1 s'.1 := by
  obtain ⟨declared, s₁, hrun, hend⟩ := construct_cases h
  have hp := Attempt.placed hs
  obtain ⟨hs₁, hx₁⟩ := Builds.sound (Script.run_builds_anything (b := ⟨a.state.1.nextScope, 0⟩)
    (calls_build_anything library a.limit) a.definition.script hp.sound hp.inside _ s₁ hrun)
    hp.sound
  rcases hend with ⟨err, err', -, -, heq⟩ | ⟨err, e₂, -, -, hproc, heq⟩ | ⟨-, -, hproc⟩
  · exact heq ▸ hR.failed a.definition _ hs hs₁ hx₁ (hscript hrun)
  · exact heq ▸ hR.unprocessed a.definition hs hs₁ hx₁ (hscript hrun) hproc
  · exact hR.processed a.definition hs hs₁ hx₁ (hscript hrun) hproc

/-- Across the definitions of a library that get a scope, if their scripts start at such spots. -/
def AcrossAttempts (library : Library μ) (At : Spot μ → Prop) (R : Engine → Engine → Prop)
    (limit : Nat) : Prop :=
  ∀ (a : Attempt μ) (roots : List ScopeId), a.limit = limit → Sound roots a.state.1 → At a.start →
    ∀ {r s'}, a.run library = some (r, s') → R a.state.1 s'.1

/-- Across a definition that a script reaches: it has a scope, or gets one, or fails. -/
theorem Spotwise.process (hR : Spotwise At R) (ha : AcrossAttempts library At R limit)
    (hs : Sound roots s.1) (hattempt : (library definition).key ∉ s.1.constructing →
      s.1.scopeOf? (library definition).key = none →
      At (Attempt.start ⟨limit, library definition, s⟩)) :
    Moves (fun s s' => R s.1 s'.1) ((calls library (limit + 1)).process definition) s := by
  intro r s' h
  rcases processWith_cases h with ⟨_, -, rfl⟩ | ⟨hnew, h⟩
  · exact hR.refl
  · rcases processInstanceWith_cases h with ⟨-, rfl⟩ | ⟨_, -, -, rfl⟩ | ⟨hkey, -, hconstruct⟩
    · exact hR.refl
    · exact hR.refl
    · exact ha ⟨limit, library definition, s⟩ roots rfl hs (hattempt hkey hnew) hconstruct

/-- **A relation that holds across the steps of scripts at certain spots** holds across what a
    script does from one of them on, if it only goes on at such spots. -/
theorem run_spotwise (hR : Spotwise At R)
    (honward : ∀ {p q}, At p → Onward library p q → At q) (limit : Nat)
    (script : Script μ) (b : Builder)
    (s : Engine × μ) (hp : Placed root roots ⟨limit, script, b, s⟩)
    (hat : At ⟨limit, script, b, s⟩) :
    Moves (fun s s' => R s.1 s'.1) (script.run (calls library limit) b) s := by
  have : IsPreorder (Engine × μ) fun s s' => R s.1 s'.1 :=
    { refl := fun _ => hR.refl, trans := fun _ _ _ => hR.trans }
  -- Definitions that are reached have a lower limit.
  induction limit using Nat.strong_induction_on generalizing root roots script b s with
  | _ limit ihl =>
  have hbuild := calls_build_anything library limit
  have hreached : ∀ n, limit = n + 1 → AcrossAttempts library At R n := by
    rintro n rfl a roots rfl hs hstart r s' hrun
    exact hR.attempt hs (fun {r s₁} hscript =>
      ihl a.limit (Nat.lt_succ_self _) _ _ _ (Attempt.placed hs) hstart r s₁ hscript) hrun
  induction script generalizing b s with
  | done => exact .pure _ s
  | fail err => exact .throw err s
  | add slot rule next ih =>
    exact .bind (moves_onEngine (hR.add hat hp.sound hp.inside)) fun r s₁ h₁ =>
      ih r b s₁ (hp.next library (.add h₁)) (honward hat (.next (.add h₁)))
  | addUnnamed rule next ih =>
    exact .bind (moves_onEngine (hR.addUnnamed hat hp.sound hp.inside)) fun r s₁ h₁ =>
      ih r b s₁ (hp.next library (.addUnnamed h₁)) (honward hat (.next (.addUnnamed h₁)))
  | find slot next ih => exact ih _ b s ⟨hp.sound, hp.inside⟩ (honward hat (.next .find))
  | scope next ih => exact ih _ b s ⟨hp.sound, hp.inside⟩ (honward hat (.next .scope))
  | extend definition next ih =>
    rw [Script.run_extend]
    refine .bind (moves_attempt ?_) fun answer s₁ h₁ =>
      ih answer b s₁ (hp.next library (.extend h₁)) (honward hat (.next (.extend h₁)))
    cases limit with
    | zero => exact fun _ _ h => by cases h
    | succ limit =>
      unfold Script.extension
      refine .bind (hR.process (hreached limit rfl) hp.sound fun hkey hnew =>
        honward hat (.reached (.extend hnew hkey))) fun base s₁ h₁ => ?_
      obtain ⟨hbuilds₁, hready⟩ := hbuild.process hp.sound trivial h₁
      obtain ⟨hs₁, hx₁⟩ := hbuilds₁.sound hp.sound
      have hin₁ := hx₁.inside hp.inside
      have hbase : Moves (fun s s' => R s.1 s'.1) (Script.setBase b base) s₁ := by
        unfold Script.setBase
        split
        · exact moves_changeEngine (hR.setBase hs₁ hin₁ (hready base rfl))
        · exact .pure _ s₁
      refine .bind hbase fun _ s₂ h₂ => ?_
      exact .bind (ihl limit (Nat.lt_succ_self _) (library definition).script
        { b with depth := b.depth + 1 } s₂ (hp.next library (.extended h₁ h₂))
        (honward hat (.next (.extended h₁ h₂)))) fun _ s₃ _ => .pure _ s₃
  | use definition next ih =>
    rw [Script.run_use]
    refine .bind (moves_attempt ?_) fun answer s₁ h₁ =>
      ih answer b s₁ (hp.next library (.use h₁)) (honward hat (.next (.use h₁)))
    cases limit with
    | zero => exact fun _ _ h => by cases h
    | succ limit =>
      unfold Script.usage
      refine .bind (hR.process (hreached limit rfl) hp.sound fun hkey hnew =>
        honward hat (.reached (.use hnew hkey))) fun used s₁ h₁ => ?_
      obtain ⟨hbuilds₁, hready⟩ := hbuild.process hp.sound trivial h₁
      obtain ⟨hs₁, hx₁⟩ := hbuilds₁.sound hp.sound
      refine .bind (moves_changeEngine
        (hR.addReference hs₁ (hx₁.inside hp.inside) (hready used rfl)))
        fun _ s₂ _ => moves_onEngine ?_
      rw [collectRefs_snd]
      exact hR.refl
  | group condition body next ihb ih =>
    rw [Script.run_group]
    refine .bind (moves_attempt ?_) fun answer s₁ h₁ =>
      ih answer b s₁ (hp.next library (.group h₁)) (honward hat (.next (.group h₁)))
    unfold Script.grouping
    refine .bind (moves_onEngine (hR.addNested hp.sound hp.inside)) fun child s₁ h₁ => ?_
    have hp₁ : Placed root roots ⟨limit, body, ⟨child, 0⟩, s₁⟩ := hp.next library (.grouped h₁)
    obtain ⟨child', e₁, hnest, hbuilds, -⟩ :=
      addNested_builds (P := anything) hp.sound.linked hp.inside
    have h₁' := h₁
    rw [BuildM.onEngine_apply, hnest] at h₁'
    cases h₁'
    obtain ⟨hs₁, hx₁⟩ := (hbuilds roots).sound hp.sound
    refine .bind (ihb ⟨child, 0⟩ (e₁, s.2) hp₁ (honward hat (.next (.grouped h₁))))
      fun _ s₂ h₂ => moves_onEngine ?_
    obtain ⟨hs₂, hx₂⟩ := Builds.sound (Script.run_builds_anything hbuild body hp₁.sound hp₁.inside
      _ s₂ h₂) hs₁
    -- The group is nested in the scope before its rules are declared, and still is afterwards.
    obtain ⟨t, ht⟩ := hp.inside.live
    have ht₁ : e₁.scope? b.scope = some { t with children := t.children ++ [s.1.nextScope] } := by
      have hne : b.scope ≠ s.1.nextScope := fun heq =>
        absurd (hp.sound.linked.lt_nextScope ht) (heq ▸ lt_irrefl _)
      have hscope := scope?_addNested (k := b.scope) hp.sound.linked ht
      rwa [hnest, if_neg hne, if_pos rfl] at hscope
    have hnests : Carries (fun _ => Scope.Nests) e₁ s₂.1 :=
      body.run_stepwise nests_stepwise.toScripted
      (calls_stepped nests_stepwise library limit) ⟨child, 0⟩
        (e₁, s.2) hp₁.sound hp₁.inside _ s₂ h₂
    obtain ⟨t₂, ht₂, hsubset⟩ := hnests b.scope _ ht₁
    have hchild : child ∈ t₂.children := hsubset <| by
      rw [addNested_ok hnest]
      exact List.mem_append_right _ (List.mem_singleton.mpr rfl)
    exact hR.groupRule condition hs₂ (hx₂.inside (hx₁.inside hp.inside)) ht₂ hchild
  | nameOf cell next ih => exact ih _ b s ⟨hp.sound, hp.inside⟩ (honward hat (.next .nameOf))
  | report event next ih =>
    refine .bind (moves_changeEngine (hR.report event)) fun _ s₁ h₁ => ?_
    cases h₁
    exact ih b _ (hp.next library .report) (honward hat (.next .report))
  | look next ih => exact ih _ b s ⟨hp.sound, hp.inside⟩ (honward hat (.next .look))
  | remember change next ih =>
    exact fun r s' h =>
      ih b (s.1, change s.2) ⟨hp.sound, hp.inside⟩ (honward hat (.next .remember)) r s' h

/-- So it holds across a definition that gets a scope, if its script starts at such a spot. -/
theorem Spotwise.attempt_run (hR : Spotwise At R)
    (honward : ∀ {p q}, At p → Onward library p q → At q) {a : Attempt μ}
    (hs : Sound roots a.state.1)
    (hat : At a.start) {r : Except Error ScopeId} (h : a.run library = some (r, s')) :
    R a.state.1 s'.1 :=
  hR.attempt hs (fun {r s₁} hscript =>
    run_spotwise hR honward a.limit _ _ _ (Attempt.placed hs) hat r s₁ hscript) h

end Spot

end StyleBook
