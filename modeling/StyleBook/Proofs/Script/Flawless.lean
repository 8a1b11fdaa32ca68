import StyleBook.Proofs.Order.Seclusion
import StyleBook.Proofs.Rule.Clones
import StyleBook.Proofs.Scope.Lookups
import StyleBook.Proofs.Script.FailedDefinitions

namespace StyleBook

/-!
# Definitions without failures

Where no script fails, and no call that a script makes, a definition gets its scope. Scripts that
give up as soon as a call of theirs fails show that afterwards: if the definition got
its scope, nothing failed.

* `Flawless` — nothing fails while a definition is processed, and
  `Flawless.answers` — so it gets its scope;
* `Spot.run_ends_well` — scripts end well where no script fails;
* `Script.GivesUp` — the script gives up when a call of it fails, and `Flawless.of_answer` — so
  nothing failed if it did not give up.
-/

open Engine

variable {μ : Type} {library : Library μ} {limit key : Nat} {s s' : Engine × μ}

/-! ### Scripts that end well -/

namespace Spot

open BuildM
open Engine hiding onEngine changeEngine

/-- **A script ends well,** if no script fails where it goes on: what it declares in is there, and
    what it reaches leaves it an answer. -/
theorem run_ends_well {root : ScopeId} {roots : List ScopeId} (script : Script μ) (b : Builder)
    (s : Engine × μ) (hp : Placed root roots ⟨limit, script, b, s⟩)
    (hfails : ∀ q, Later library ⟨limit, script, b, s⟩ q → ∀ err, q.script ≠ .fail err)
    {r : Except Error Unit} (h : script.run (calls library limit) b s = some (r, s')) :
    r = .ok () := by
  -- No script fails behind the next step either.
  have hnext : ∀ {script script' : Script μ} {b b' : Builder} {s s₁ : Engine × μ},
      Next library ⟨limit, script, b, s⟩ ⟨limit, script', b', s₁⟩ →
      (∀ q, Later library ⟨limit, script, b, s⟩ q → ∀ err, q.script ≠ .fail err) →
        ∀ q, Later library ⟨limit, script', b', s₁⟩ q → ∀ err, q.script ≠ .fail err :=
    fun hn hfails q hq => hfails q (.head hn hq)
  induction script generalizing b s with
  | done =>
    cases h
    rfl
  | fail err => exact absurd rfl (hfails _ .refl err)
  | add slot rule next ih =>
    rcases partial_bind_eq_some h with ⟨r₁, s₁, h₁, h₂⟩ | ⟨err, h₁, -⟩
    · exact ih r₁ b s₁ ((Next.add h₁).placed hp h).1 (hnext (.add h₁) hfails) h₂
    · obtain ⟨t, ht⟩ := hp.inside.live
      rw [BuildM.onEngine_apply] at h₁
      cases hslot : t.named.get? slot with
      | none => rw [addRule_new ht hslot] at h₁; cases h₁
      | some key => rw [addRule_known ht hslot] at h₁; cases h₁
  | addUnnamed rule next ih =>
    rcases partial_bind_eq_some h with ⟨r₁, s₁, h₁, h₂⟩ | ⟨err, h₁, -⟩
    · exact ih r₁ b s₁ ((Next.addUnnamed h₁).placed hp h).1 (hnext (.addUnnamed h₁) hfails) h₂
    · obtain ⟨t, ht⟩ := hp.inside.live
      rw [BuildM.onEngine_apply, addUnnamedRule_eq ht] at h₁
      cases h₁
  | find slot next ih => exact ih _ b s (Next.find.placed hp h).1 (hnext .find hfails) h
  | scope next ih => exact ih _ b s (Next.scope.placed hp h).1 (hnext .scope hfails) h
  | extend definition next ih =>
    have hrun := h
    rw [Script.run_extend] at hrun
    rcases partial_bind_eq_some hrun with ⟨answer, s₁, h₁, h₂⟩ | ⟨err, h₁, -⟩
    · exact ih answer b s₁ ((Next.extend h₁).placed hp h).1 (hnext (.extend h₁) hfails) h₂
    · obtain ⟨_, -, hr⟩ := attempt_eq_some h₁
      cases hr
  | use definition next ih =>
    have hrun := h
    rw [Script.run_use] at hrun
    rcases partial_bind_eq_some hrun with ⟨answer, s₁, h₁, h₂⟩ | ⟨err, h₁, -⟩
    · exact ih answer b s₁ ((Next.use h₁).placed hp h).1 (hnext (.use h₁) hfails) h₂
    · obtain ⟨_, -, hr⟩ := attempt_eq_some h₁
      cases hr
  | group condition body next _ ih =>
    have hrun := h
    rw [Script.run_group] at hrun
    rcases partial_bind_eq_some hrun with ⟨answer, s₁, h₁, h₂⟩ | ⟨err, h₁, -⟩
    · exact ih answer b s₁ ((Next.group h₁).placed hp h).1 (hnext (.group h₁) hfails) h₂
    · obtain ⟨_, -, hr⟩ := attempt_eq_some h₁
      cases hr
  | nameOf cell next ih => exact ih _ b s (Next.nameOf.placed hp h).1 (hnext .nameOf hfails) h
  | report event next ih => exact ih b _ (Next.report.placed hp h).1 (hnext .report hfails) h
  | look next ih => exact ih _ b s (Next.look.placed hp h).1 (hnext .look hfails) h
  | remember change next ih => exact ih b _ (Next.remember.placed hp h).1 (hnext .remember hfails) h

end Spot

/-! ### Calls -/

/-- **Nothing fails while the definition is processed:** no call that a script
    makes, and no script. -/
def Flawless (library : Library μ) (limit key : Nat) (s : Engine × μ) : Prop :=
  ∀ a, (Request.process limit key).Attempts library s a →
    ∀ q, Spot.Onwards library a.start q → ¬ q.Fails library ∧ ∀ err, q.script ≠ .fail err

/-- The engine is between two calls: no definition declares. -/
structure Engine.Rests (e : Engine) : Prop where
  orderly : Orderly [] e
  idle : e.constructing = []

namespace Flawless

/-- **The definition gets its scope,** or has it. -/
theorem answers (hf : Flawless library limit key s) (hr : s.1.Rests) {r : Except Error ScopeId}
    (h : process library limit key s = some (r, s')) : ∃ id, r = .ok id := by
  have hs := hr.orderly.sound
  rcases processWith_cases h with ⟨id, hid, rfl⟩ | ⟨hnew, hinstance⟩
  -- A scope that is there already is settled: nothing declares between two calls.
  · obtain ⟨t, ht, -⟩ := hs.linked.singleton_live hid
    have hexisting := (processWith_known hid).symm.trans h
    rw [BuildM.onEngine_apply, existing_settled ⟨t, ht, hs.settled ht⟩] at hexisting
    cases hexisting
    exact ⟨id, rfl⟩
  · rcases processInstanceWith_cases
      hinstance with ⟨hkey, -⟩ | ⟨_, hknown, -⟩ | ⟨hkey, -, hconstruct⟩
    · rw [hr.idle] at hkey
      cases hkey
    · rw [hnew] at hknown
      cases hknown
    · obtain ⟨declared, s₁, hrun, hend⟩ := construct_cases hconstruct
      have hprepared : Prepared [] s.1 :=
        ⟨hs, hr.orderly.vacant, hr.orderly.unnamed, hr.orderly.layered⟩
      have hdeclared := hprepared.declared hrun
      have hlater : ∀ {p q : Spot μ}, Spot.Later library p q → Spot.Onwards library p q := fun h =>
        h.lift id fun _ _ => .next
      obtain rfl := Spot.run_ends_well _ _ _ (Attempt.placed (a := ⟨limit, library key, s⟩) hs)
        (fun q hq => (hf _ (.process hnew hkey) q (hlater hq)).2) hrun
      -- The script ended well, and what it declared can be processed: no other end is left.
      have hproc := processScope_succeeds hdeclared.sound hdeclared.vacant hdeclared.layered
      rcases hend with ⟨_, _, hd, -⟩ | ⟨_, _, -, -, hfail, -⟩ | ⟨-, rfl, -⟩
      · cases hd
      · rw [hfail] at hproc
        cases hproc
      · exact ⟨_, rfl⟩

end Flawless

/-! ### Scripts that give up -/

/-- **The script gives up when a call of it fails.** -/
def Script.GivesUp : Script μ → Prop
  | .done | .fail _ => True
  | .add _ _ next | .addUnnamed _ next => ∀ r, (next r).GivesUp
  | .find _ next => ∀ r, (next r).GivesUp
  | .scope next => ∀ id, (next id).GivesUp
  | .extend _ next => (∀ err, ∃ err', next (.error err) = .fail err') ∧ ∀ base,
      (next (.ok base)).GivesUp
  | .use _ next => (∀ err, ∃ err', next (.error err) = .fail err') ∧ ∀ refs,
      (next (.ok refs)).GivesUp
  | .group _ body next =>
    body.GivesUp ∧ (∀ err, ∃ err', next (.error err) = .fail err') ∧ ∀ r, (next (.ok r)).GivesUp
  | .nameOf _ next => ∀ name, (next name).GivesUp
  | .report _ next | .remember _ next => next.GivesUp
  | .look next => ∀ memory, (next memory).GivesUp

namespace Spot

open BuildM
open Engine hiding onEngine changeEngine

variable {p q : Spot μ}

/-- The script gives up when a call fails, and does not do so. -/
structure EndsWell (library : Library μ) (p : Spot μ) : Prop where
  givesUp : p.script.GivesUp
  run : ∃ s', p.run library = some (.ok (), s')

/-- A call succeeds if the script goes on that gives up otherwise. -/
theorem attempt_of_ok {α : Type} {calls : Calls μ} {c : BuildM μ α}
    {next : Except Error α → Script μ}
    {b : Builder} {s s' : Engine × μ} (hnext : ∀ err, ∃ err', next (.error err) = .fail err')
    (h : (do let answer ← attempt c; (next answer).run calls b) s = some (.ok (), s')) :
    ∃ a s₁, c s = some (.ok a, s₁) ∧ (next (.ok a)).run calls b s₁ = some (.ok (), s') := by
  obtain ⟨answer, s₁, hattempt, hrest⟩ := partial_bind_eq_ok h
  obtain ⟨r, hc, hr⟩ := attempt_eq_some hattempt
  cases hr
  cases answer with
  | error err =>
    obtain ⟨err', hfail⟩ := hnext err
    rw [hfail] at hrest
    cases hrest
  | ok a => exact ⟨a, s₁, hc, hrest⟩

namespace EndsWell

section Calls

variable {b : Builder} {definition : Nat}

/-- The script extends a definition, and goes on. -/
theorem extend {next : Except Error ScopeId → Script μ}
    (h : EndsWell library ⟨limit, .extend definition next, b, s⟩) : ∃ base s₁,
      Script.extension (calls library limit) definition b s = some (.ok base, s₁) ∧
        EndsWell library ⟨limit, next (.ok base), b, s₁⟩ := by
  obtain ⟨⟨hnext, hgives⟩, s', hrun⟩ := h
  replace hrun : (Script.extend definition next).run (calls library limit) b s =
    some (.ok (), s') := hrun
  rw [Script.run_extend] at hrun
  obtain ⟨base, s₁, hcall, hrest⟩ := attempt_of_ok hnext hrun
  exact ⟨base, s₁, hcall, hgives base, s', hrest⟩

/-- The script uses a definition, and goes on. -/
theorem use {next : Except Error ScopeRefs → Script μ}
    (h : EndsWell library ⟨limit, .use definition next, b, s⟩) : ∃ refs s₁,
      Script.usage (calls library limit) definition b s = some (.ok refs, s₁) ∧
        EndsWell library ⟨limit, next (.ok refs), b, s₁⟩ := by
  obtain ⟨⟨hnext, hgives⟩, s', hrun⟩ := h
  replace hrun : (Script.use definition next).run (calls library limit) b s =
    some (.ok (), s') := hrun
  rw [Script.run_use] at hrun
  obtain ⟨refs, s₁, hcall, hrest⟩ := attempt_of_ok hnext hrun
  exact ⟨refs, s₁, hcall, hgives refs, s', hrest⟩

/-- The script declares a group, and goes on. -/
theorem group {condition : GroupCondition} {body : Script μ}
    {next : Except Error RuleRef → Script μ}
    (h : EndsWell library ⟨limit, .group condition body next, b, s⟩) : ∃ r s₁,
      Script.grouping (calls library limit) condition body b s = some (.ok r, s₁) ∧
        EndsWell library ⟨limit, next (.ok r), b, s₁⟩ := by
  obtain ⟨⟨-, hnext, hgives⟩, s', hrun⟩ := h
  replace hrun : (Script.group condition body next).run (calls library limit) b s =
    some (.ok (), s') := hrun
  rw [Script.run_group] at hrun
  obtain ⟨r, s₁, hcall, hrest⟩ := attempt_of_ok hnext hrun
  exact ⟨r, s₁, hcall, hgives r, s', hrest⟩

end Calls

/-- No call fails there. -/
theorem not_fails (h : p.EndsWell library) : ¬ p.Fails library := by
  intro hfails
  cases hfails with
  | extend hcall =>
    obtain ⟨_, _, hok, -⟩ := h.extend
    cases hok.symm.trans hcall
  | use hcall =>
    obtain ⟨_, _, hok, -⟩ := h.use
    cases hok.symm.trans hcall
  | group hcall =>
    obtain ⟨_, _, hok, -⟩ := h.group
    cases hok.symm.trans hcall

/-- Nor does the script. -/
theorem not_fail (h : p.EndsWell library) (err : Error) : p.script ≠ .fail err := by
  obtain ⟨limit, script, b, s⟩ := p
  rintro rfl
  obtain ⟨s', hrun⟩ := h.run
  cases hrun

/-- **So it is at the next spot.** -/
theorem next (hlibrary : ∀ d, (library d).script.GivesUp) (h : p.EndsWell library)
    (hnext : Next library p q) : q.EndsWell library := by
  -- A script that gives up after each failure ends well only if no call fails, so the call at hand
  -- succeeded and the rest ends well.
  cases hnext with
  | add hcall | addUnnamed hcall =>
    obtain ⟨hgives, s', hrun⟩ := h
    have hrest := run_after hrun hcall
    exact ⟨hgives _, s', hrest⟩
  | find | scope | nameOf | look =>
    obtain ⟨hgives, s', hrun⟩ := h
    exact ⟨hgives _, s', hrun⟩
  | report | remember =>
    obtain ⟨hgives, s', hrun⟩ := h
    exact ⟨hgives, s', hrun⟩
  | extend hcall =>
    obtain ⟨base, s₁, hok, hrest⟩ := h.extend
    cases (attempt_ok hok).symm.trans hcall
    exact hrest
  | use hcall =>
    obtain ⟨refs, s₁, hok, hrest⟩ := h.use
    cases (attempt_ok hok).symm.trans hcall
    exact hrest
  | group hcall =>
    obtain ⟨r, s₁, hok, hrest⟩ := h.group
    cases (attempt_ok hok).symm.trans hcall
    exact hrest
  -- What is inside of a call ends well, since it is a first part of the call.
  | extended hprocess hbase =>
    obtain ⟨_, _, hok, -⟩ := h.extend
    have hreached := run_after hok hprocess
    have hextended := run_after hreached hbase
    obtain ⟨⟨⟩, s₂, hdeclare, -⟩ := partial_bind_eq_ok hextended
    exact ⟨hlibrary _, s₂, hdeclare⟩
  | grouped hchild =>
    obtain ⟨_, _, hok, -⟩ := h.group
    have hnested := run_after hok hchild
    obtain ⟨⟨⟩, s₂, hbody, -⟩ := partial_bind_eq_ok hnested
    exact ⟨h.givesUp.1, s₂, hbody⟩

/-- **So it is where the script of a definition starts that gets a scope.** -/
theorem reached (hlibrary : ∀ d, (library d).script.GivesUp)
    (h : p.EndsWell library) {a : Attempt μ}
    (ha : p.Attempts library a) : a.start.EndsWell library := by
  have hconstruct : ∀ {limit definition id s s'}, s.1.scopeOf? (library definition).key = none →
      (library definition).key ∉ s.1.constructing →
      (calls library (limit + 1)).process definition s = some (.ok id, s') →
        (Attempt.start ⟨limit, library definition, s⟩).EndsWell library :=
        fun hnew hkey hprocess => by
    obtain ⟨s₁, hrun, -⟩ := construct_ok (processWith_construct hnew hkey hprocess)
    exact ⟨hlibrary _, s₁, hrun⟩
  cases ha with
  | extend hnew hkey =>
    obtain ⟨_, _, hok, -⟩ := h.extend
    obtain ⟨_, _, hprocess, -⟩ := partial_bind_eq_ok hok
    exact hconstruct hnew hkey hprocess
  | use hnew hkey =>
    obtain ⟨_, _, hok, -⟩ := h.use
    obtain ⟨_, _, hprocess, -⟩ := partial_bind_eq_ok hok
    exact hconstruct hnew hkey hprocess

/-- Wherever the script goes on. -/
theorem onwards (hlibrary : ∀ d, (library d).script.GivesUp) (h : p.EndsWell library)
    (hq : Onwards library p q) : q.EndsWell library := by
  induction hq with
  | refl => exact h
  | tail _ honward ih =>
    cases honward with
    | next hnext => exact ih.next hlibrary hnext
    | reached ha => exact ih.reached hlibrary ha

end EndsWell

end Spot

/-- **Where scripts give up, nothing failed if the definition got its scope.** -/
theorem Flawless.of_answer (hlibrary : ∀ d, (library d).script.GivesUp) {id : ScopeId}
    (h : process library limit key s = some (.ok id, s')) : Flawless library limit key s := by
  rintro a ⟨hnew, hkey⟩ q hq
  obtain ⟨s₁, hrun, -⟩ := construct_ok (processWith_construct hnew hkey h)
  have hends : (Attempt.start ⟨limit, library key, s⟩).EndsWell library := ⟨hlibrary _, s₁, hrun⟩
  have hq' := hends.onwards hlibrary hq
  exact ⟨hq'.not_fails, hq'.not_fail⟩

end StyleBook
