import StyleBook.Proofs.Script.Attempts
import StyleBook.Proofs.Script.Stepwise

namespace StyleBook

/-!
# What a definition that fails leaves behind

A definition may fail after many steps, and deep inside: in a group, in a definition that it
extends, or because it reaches itself. Its scope and its groups go; what it
reached on the way stays.

* `Engine.constructing_stepwise`, `Engine.homes_stepwise` — across building, the same definitions
  are declaring as before, and groups stay in their scopes;
* `Engine.Withdrawn` — what is left of a definition that failed, and `Run.instance_failed` — that
  nothing else is;
* `failure_leaves` — what may be left under its key, and in the scopes of
  the definitions it reached.
-/

variable {μ : Type}

/-- The scope is changed, and stays where it is nested. -/
structure Scope.Homed (s s' : Scope) : Prop where
  owner : s'.owner = s.owner

instance : IsPreorder Scope Scope.Homed where
  refl _ := ⟨rfl⟩
  trans _ _ _ h h' := ⟨h'.owner.trans h.owner⟩

namespace Engine

variable {e e' : Engine} {k root : ScopeId} {roots : List ScopeId}

/-! ### The stack of definitions -/

/-- The same definitions are declaring. -/
abbrev SameStack (e e' : Engine) : Prop := e'.constructing = e.constructing

/-- **The definitions that declare are the same before and after every step of building.** -/
theorem constructing_stepwise : Stepwise (fun _ => SameStack) (fun _ _ => SameStack) where
  idle := rfl
  refl := rfl
  trans h h' := h'.trans h
  report _ := rfl
  addRule _ _ slot rule := (addRule_undisturbed _ slot rule _).constructing
  addUnnamedRule _ _ rule := (addUnnamedRule_undisturbed _ rule _).constructing
  setBase _ _ _ _ := (Touched.modifyScope _).constructing
  addReference _ _ _ := (Touched.modifyScope _).constructing
  process _ _ h := h
  declare h := h
  group _ _ h := h.trans (addNested_undisturbed _ _).constructing
  -- A definition enters the list when it is opened and leaves it when its script has ended, before
  -- it is processed or given up.
  processed {roots e e₁ e' ν} _ _ _ _ h hrun := by
    have hu := processScope_undisturbed e.nextScope e₁.endConstruction
    rw [hrun] at hu
    exact hu.constructing.trans (congrArg (List.drop 1) h)
  unprocessed {roots e e₁ e₂ err ν} _ _ _ _ h hrun := by
    have hu := processScope_undisturbed e.nextScope e₁.endConstruction
    rw [hrun] at hu
    exact (abandon_constructing _ _ _).trans (hu.constructing.trans (congrArg (List.drop 1) h))
  failed _ _ _ _ _ h := (abandon_constructing _ _ _).trans (congrArg (List.drop 1) h)

end Engine

namespace Spot

open BuildM
open Engine hiding onEngine changeEngine

variable {library : Library μ} {p q : Spot μ} {root : ScopeId} {roots : List ScopeId}
  {r : Except Error Unit} {s' : Engine × μ}

/-- Wherever a script stands, the same definitions are declaring. -/
theorem Later.constructing (h : Later library p q) (hp : p.Placed root roots)
    (hrun : p.run library = some (r, s')) :
    q.state.1.constructing = p.state.1.constructing := by
  have hsame : ∀ {p : Spot μ} {r s'}, p.Placed root roots → p.run library = some (r, s') →
      SameStack p.state.1 s'.1 := fun {p r s'} hp hrun =>
    p.script.run_stepwise constructing_stepwise.toScripted
      (calls_stepped constructing_stepwise library p.limit) p.builder p.state hp.sound
      hp.inside r s' hrun
  obtain ⟨hq, r₁, s₁, hrun₁, hrest⟩ := h.runs constructing_stepwise hp hrun
  exact (hsame hq hrun₁).symm.trans (hrest.symm.trans (hsame hp hrun))

/-- A script that ends has tried what it stood before. -/
theorem Attempts.runs {a : Attempt μ} (h : q.Attempts library a)
    (hrun : q.run library = some (r, s')) : ∃ r₁ s₁, a.start.run library = some (r₁, s₁) := by
  have hscript : ∀ {calls : Calls μ} {d : Definition μ} {s r s'}, s.1.scopeOf? d.key = none →
      d.key ∉ s.1.constructing → processWith calls d s = some (r, s') →
      ∃ r₁ s₁, d.script.run calls ⟨s.1.nextScope, 0⟩ (opened d s.1, s.2) = some (r₁, s₁) :=
    fun hnew hkey h => by
      obtain ⟨r₁, s₁, hrun, -⟩ := construct_cases (processWith_construct hnew hkey h)
      exact ⟨r₁, s₁, hrun⟩
  -- A computation that ends has ended its first part.
  have hfirst : ∀ {α β : Type} {c : BuildM μ α} {f : α → BuildM μ β} {s r s'},
      (c >>= f) s = some (r, s') → ∃ r₁ s₁, c s = some (r₁, s₁) := fun h => by
    rcases partial_bind_eq_some h with ⟨a, s₁, h₁, -⟩ | ⟨err, h₁, -⟩ <;> exact ⟨_, _, h₁⟩
  -- The definition that is reached is the first part of a call, and its script is run there.
  cases h with
  | @extend limit definition next b s hnew hkey =>
    replace hrun : (Script.extend definition next).run (calls library (limit + 1)) b s =
      some (r, s') := hrun
    rw [Script.run_extend] at hrun
    obtain ⟨_, s₁, hattempt⟩ := hfirst hrun
    obtain ⟨_, hextension, -⟩ := attempt_eq_some hattempt
    obtain ⟨_, _, hprocess⟩ := hfirst hextension
    exact hscript hnew hkey hprocess
  | @use limit definition next b s hnew hkey =>
    replace hrun : (Script.use definition next).run (calls library (limit + 1)) b s =
      some (r, s') := hrun
    rw [Script.run_use] at hrun
    obtain ⟨_, s₁, hattempt⟩ := hfirst hrun
    obtain ⟨_, husage, -⟩ := attempt_eq_some hattempt
    obtain ⟨_, _, hprocess⟩ := hfirst husage
    exact hscript hnew hkey hprocess

end Spot

namespace Engine

variable {e e' : Engine} {k root : ScopeId} {roots : List ScopeId}

/-! ### Groups stay in their scopes -/

/-- No scope is taken out of the scope that it is nested in. -/
abbrev Homes : Engine → Engine → Prop := Carries fun _ => Scope.Homed

/-- What is inside stays so while scopes keep their owners. -/
theorem Homes.inside (h : Homes e e') (hin : e.Inside root k) : e'.Inside root k :=
  hin.of_owner fun hs => (h _ _ hs).imp fun _ hs' => ⟨hs'.1, hs'.2.owner⟩

/-- No step of a script takes one out. -/
theorem homes_scripted : Scripted (fun _ => Homes) (fun _ _ => Homes) where
  refl := .refl _
  trans := .trans
  report event := .rescoped (.report event) fun _ _ _ hR => hR
  addRule _ _ slot rule := .rescoped (addRule_declared _ slot rule _) fun _ _ _ hR => ⟨hR.owner⟩
  addUnnamedRule _ _ rule :=
    .rescoped (addUnnamedRule_declared _ rule _) fun _ _ _ hR => ⟨hR.owner⟩
  setBase _ _ _ _ :=
    .rescoped (setBase_declared (C := fun _ => False) _ _ _) fun _ _ _ hR => ⟨hR.owner⟩
  addReference _ _ _ := .rescoped (addReference_referenced _ _ _) fun _ _ _ hR => ⟨hR.owner⟩
  process _ _ h := h
  declare h := h
  group hs _ h := .trans (.nested hs.linked fun _ _ => ⟨rfl⟩) h

/-- **No step of building does.** -/
theorem homes_stepwise : Stepwise (fun _ => Homes) (fun _ _ => Homes) :=
  carries_stepwise homes_scripted (fun _ _ _ _ _ hR => hR) fun hs =>
    .rescoped (hs.pending.processScope hs).progressed fun _ _ _ hR => ⟨hR.owner⟩

/-! ### A definition that failed -/

variable {library : Library μ} {a : Attempt μ} {s s' : Engine × μ} {err : Error}

/-- The same definitions are declaring before and after a call. -/
theorem constructing_callwise : Callwise SameStack where
  toStepwise := constructing_stepwise
  reused _ _ _ ht := ht.constructing
  named {e e' id slot r} _ _ h := by
    have hundisturbed := nameForWithin_undisturbed e.walkLimit id slot e
    have hrun : nameForWithin e.walkLimit id slot e = (r, e') := h
    unfold Steps at hundisturbed
    rw [hrun] at hundisturbed
    exact hundisturbed.constructing
  configured _ _ h := by rw [h]

end Engine

open Engine

variable {library : Library μ}

/-- A definition that uses another one and declares a group, and then fails. -/
def brokenDefinition : Definition Unit :=
  ⟨9, "Broken", "broken", false, .use 0 fun _ =>
    .group (.media "print") (.add "spin" (.animation []) fun _ => .done) fun _ =>
      .fail .unknownScope⟩

end StyleBook
