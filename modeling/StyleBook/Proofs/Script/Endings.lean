import StyleBook.Proofs.Script.Barriers
import StyleBook.Proofs.Script.Spots

namespace StyleBook

/-!
# Definitions come to an end

Definitions reach each other, and may do so in circles. A definition that is reached while it
declares fails, so circles of uses end. An extended definition declares once more, also when it is
processed already: circles of extensions end only if they are broken by a definition that fails.

* `BuildM.Ends` — a computation has a result;
* `Settling` — no definition of a family extends itself, at any distance,
  unless it is bound to fail;
* `Settling.run_ends` — then scripts that reach the family end, whatever they do with errors;
* `Run.definitions_end` — so do all definitions of the family, whatever was processed before;
* `endless_extension` — two definitions of which one extends itself, and the other one has no end.
-/

variable {μ α β : Type}

namespace BuildM

/-- Run in `s`, the computation has a result. -/
def Ends (c : BuildM μ α) (s : Engine × μ) : Prop := ∃ out, c s = some out

namespace Ends

variable {s : Engine × μ}

/-- A result is an end. -/
theorem pure (a : α) : Ends (Pure.pure a : BuildM μ α) s := ⟨_, rfl⟩

/-- So is a failure. -/
theorem throw (err : Error) : Ends (MonadExcept.throw err : BuildM μ α) s := ⟨_, rfl⟩

/-- Computations of the engine end. -/
theorem onEngine (c : EngineM α) : Ends (BuildM.onEngine c) s := ⟨_, rfl⟩

theorem changeEngine (f : Engine → Engine) : Ends (BuildM.changeEngine f) s := ⟨_, rfl⟩

/-- An attempt ends with what is attempted. -/
theorem attempt {c : BuildM μ α} (h : Ends c s) : Ends (BuildM.attempt c) s := by
  obtain ⟨⟨r, s'⟩, hc⟩ := h
  exact ⟨(.ok r, s'), by unfold BuildM.attempt; rw [hc]⟩

/-- The second computation has a result where the first one stops. -/
theorem bind {c : BuildM μ α} {f : α → BuildM μ β} (h : Ends c s)
    (hf : ∀ a s', c s = some (.ok a, s') → Ends (f a) s') : Ends (c >>= f) s := by
  obtain ⟨⟨err | a, s'⟩, hc⟩ := h
  · exact ⟨(.error err, s'), by rw [partial_bind, hc]⟩
  · obtain ⟨out, hout⟩ := hf a s' hc
    exact ⟨out, by rw [partial_bind, hc]; exact hout⟩

end Ends

end BuildM

open BuildM
open Engine hiding onEngine changeEngine

variable {torn : Nat → Prop} {root : ScopeId} {roots : List ScopeId} {calls : Calls μ}

/-! ### Scripts -/

namespace Script

variable {b : Builder} {s : Engine × μ}

/-- A script ends if what comes next does. -/
theorem ends_next {c : BuildM μ α} {f : α → Script μ} (h : Ends c s)
    (hc : Fits torn root roots b c s)
    (hf : ∀ a s₁, Fit torn root roots b s₁.1 → s₁.1.constructing = s.1.constructing →
      Ends ((f a).run calls b) s₁) : Ends (do let a ← c; (f a).run calls b) s :=
  .bind h fun a s₁ h₁ => hf a s₁ (hc _ s₁ h₁).1 (hc _ s₁ h₁).2

/-- **A script ends if the definitions that it reaches do.** It only runs
    those that were processed. -/
theorem run_ends (hcalls : Barred torn calls) {E U : Nat → Prop} {stack : List Nat}
    (hprocess : ∀ key roots s, E key ∨ U key → Sound roots s.1 → Barren torn s.1 →
      s.1.constructing = stack → Ends (calls.process key) s)
    (hdeclare : ∀ key b s, E key → ¬ torn key → Fit torn root roots b s.1 →
      s.1.constructing = stack → Ends (calls.declare key b) s)
    (script : Script μ) (b : Builder) (s : Engine × μ) (hw : script.Within E U)
    (hfit : Fit torn root roots b s.1) (hstack : s.1.constructing = stack) :
    Ends (script.run calls b) s := by
  induction script generalizing b s with
  | done => exact .pure ()
  | fail err => exact .throw err
  | add slot rule next ih =>
    exact ends_next (.onEngine _) (hfit.addRule slot rule) fun r s₁ hfit₁ h₁ =>
      ih r b s₁ (hw r) hfit₁ (h₁.trans hstack)
  | addUnnamed rule next ih =>
    exact ends_next (.onEngine _) (hfit.addUnnamedRule rule) fun r s₁ hfit₁ h₁ =>
      ih r b s₁ (hw r) hfit₁ (h₁.trans hstack)
  | find slot next ih => exact ih _ b s (hw _) hfit hstack
  | scope next ih => exact ih _ b s (hw _) hfit hstack
  | extend definition next ih =>
    rw [run_extend]
    refine ends_next (.attempt ?_) (hfit.extension hcalls.stepped definition)
      fun answer s₁ hfit₁ h₁ => ih answer b s₁ (hw.2 answer) hfit₁ (h₁.trans hstack)
    refine .bind (hprocess definition _ s (.inl hw.1) hfit.sound hfit.barren hstack) ?_
    intro base s₁ h₁
    -- The definition was processed, so it is not bound to fail.
    have htorn : ¬ torn definition := fun htorn =>
      hcalls.fails htorn hfit.sound hfit.barren base s₁ h₁
    have hprocessed : Fits torn root roots b (calls.process definition) s := hfit.fits
      (fun _ _ h => (hcalls.stepped.builds.process hfit.sound trivial h).1)
      (fun _ _ h => hcalls.stepped.process hfit.sound h)
    obtain ⟨hfit₁, hsame₁⟩ := hprocessed _ s₁ h₁
    have hready := (hcalls.stepped.builds.process hfit.sound trivial h₁).2 base rfl
    refine .bind ?_ fun _ s₂ h₂ => ?_
    · unfold setBase
      split
      · exact .changeEngine _
      · exact .pure ()
    · obtain ⟨hfit₂, hsame₂⟩ := hfit₁.setBase hready _ s₂ h₂
      refine .bind (hdeclare definition _ s₂ hw.1 htorn ⟨hfit₂.sound, hfit₂.inside, hfit₂.barren⟩
        (hsame₂.trans (hsame₁.trans hstack))) fun _ s₃ _ => .pure base
  | use definition next ih =>
    rw [run_use]
    refine ends_next (.attempt ?_) (hfit.usage hcalls.stepped definition)
      fun answer s₁ hfit₁ h₁ => ih answer b s₁ (hw.2 answer) hfit₁ (h₁.trans hstack)
    refine .bind (hprocess definition _ s (.inr hw.1) hfit.sound hfit.barren hstack) ?_
    exact fun used s₁ _ => .bind (.changeEngine _) fun _ s₂ _ => .onEngine _
  | group condition body next ihb ih =>
    rw [run_group]
    refine ends_next (.attempt ?_) (hfit.grouping hcalls.stepped condition body)
      fun answer s₁ hfit₁ h₁ => ih answer b s₁ (hw.2 answer) hfit₁ (h₁.trans hstack)
    obtain ⟨child, e₁, hnest, hchild, hsame⟩ := hfit.addNested
    refine .bind (.onEngine _) fun child' s₁ h₁ => .bind ?_ fun _ s₂ _ => .onEngine _
    rw [BuildM.onEngine_apply, hnest] at h₁
    cases h₁
    exact ihb ⟨child, 0⟩ (e₁, s.2) hw.1 hchild (hsame.trans hstack)
  | nameOf cell next ih => exact ih _ b s (hw _) hfit hstack
  | report event next ih =>
    exact ends_next (f := fun _ => next) (.changeEngine _) (hfit.report event)
      fun _ s₁ hfit₁ h₁ => ih b s₁ hw hfit₁ (h₁.trans hstack)
  | look next ih => exact ih _ b s (hw _) hfit hstack
  | remember change next ih => exact ih b (s.1, change s.2) hw hfit hstack

end Script

/-! ### Definitions -/

namespace Engine

variable {d : Definition μ} {s : Engine × μ}

/-- A definition that gets a new scope ends if its script does. -/
theorem construct_ends (h : Ends (d.script.run calls ⟨s.1.nextScope, 0⟩) (opened d s.1, s.2)) :
    Ends (construct calls d) s := by
  obtain ⟨⟨declared, s₁⟩, hscript⟩ := h
  have heq : construct calls d s =
      concluding d s.1.nextScope declared (s₁.1.endConstruction, s₁.2) := by
    rw [construct_eq, hscript]
  cases declared with
  | error err =>
    obtain ⟨err', hend⟩ := concluding_error d s.1.nextScope err (s₁.1.endConstruction, s₁.2)
    exact ⟨_, heq.trans hend⟩
  | ok _ =>
    have hend := heq.trans (concluding_ok d s.1.nextScope (s₁.1.endConstruction, s₁.2))
    rcases hproc : processScope s.1.nextScope s₁.1.endConstruction with ⟨err | ⟨⟩, e₂⟩ <;>
      simp only [hproc] at hend <;> exact ⟨_, hend⟩

/-- So does an instance of a definition, which is not reached while it declares. -/
theorem processInstanceWith_ends (h : d.key ∉ s.1.constructing →
      Ends (d.script.run calls ⟨s.1.nextScope, 0⟩) (opened d s.1, s.2)) :
    Ends (processInstanceWith calls d) s := by
  unfold processInstanceWith
  refine .bind ⟨_, partial_get s⟩ fun s₁ s₂ h₁ => ?_
  cases h₁
  simp only
  by_cases hkey : d.key ∈ s.1.constructing
  · rw [if_pos hkey]
    exact .throw _
  · rw [if_neg hkey]
    split
    · exact .onEngine _
    · exact construct_ends (h hkey)

/-- And a definition. -/
theorem processWith_ends (h : d.key ∉ s.1.constructing →
      Ends (d.script.run calls ⟨s.1.nextScope, 0⟩) (opened d s.1, s.2)) :
    Ends (processWith calls d) s := by
  unfold processWith
  refine .bind ⟨_, partial_get s⟩ fun s₁ s₂ h₁ => ?_
  cases h₁
  simp only
  cases s.1.scopeOf? d.key with
  | some id => exact .onEngine _
  | none => exact processInstanceWith_ends h

end Engine

/-! ### Families -/

/-- **No definition of the family extends itself, at any distance, unless it is bound to fail.**
    What they extend and use is in the family; a definition extends others of lower rank, unless one
    of them is in `torn`; and definitions in `torn` need each other. -/
structure Settling (library : Library μ) (family : Finset Nat) (torn : Nat → Prop)
    (rank : Nat → Nat) : Prop where
  key (k : Nat) : (library k).key = k
  needs (k : Nat) : Torn torn (library k)
  within {k : Nat} : k ∈ family → (library k).script.Within
    (fun d => d ∈ family ∧ (torn d ∨ torn k ∨ rank d < rank k)) (· ∈ family)

namespace Settling

variable {library : Library μ} {family : Finset Nat} {rank : Nat → Nat}

/-- How many definitions of the family are not declaring. -/
def free (family : Finset Nat) (stack : List Nat) : Nat := (family.filter (· ∉ stack)).card

/-- One more definition of the family is declaring, so that one less is free. -/
theorem free_cons_lt {stack : List Nat} {k : Nat} (hk : k ∈ family) (hnot : k ∉ stack) :
    free family (k :: stack) < free family stack := by
  have hsub : family.filter (· ∉ k :: stack) ⊆ family.filter (· ∉ stack) := by
    intro j hj
    rw [Finset.mem_filter, List.mem_cons, not_or] at hj
    exact Finset.mem_filter.mpr ⟨hj.1, hj.2.2⟩
  refine Finset.card_lt_card ((Finset.ssubset_iff_of_subset hsub).mpr ⟨k, ?_, ?_⟩)
  · exact Finset.mem_filter.mpr ⟨hk, hnot⟩
  · exact fun hmem => (Finset.mem_filter.mp hmem).2 List.mem_cons_self

/-- No more are free than there are. -/
theorem free_le_card (stack : List Nat) : free family stack ≤ family.card :=
  Finset.card_filter_le _ _

/-- The rank that no definition of the family reaches. -/
def top (family : Finset Nat) (rank : Nat → Nat) : Nat := family.sup rank + 1

/-- All ranks are below the top. -/
theorem rank_lt_top {k : Nat} (hk : k ∈ family) : rank k < top family rank :=
  Nat.lt_succ_of_le (Finset.le_sup hk)

/-- How many definitions inside each other are enough for a script, when some definitions are free,
    and it extends only such of lower rank. -/
def enough (family : Finset Nat) (rank : Nat → Nat) (free ceiling : Nat) : Nat :=
  free * (top family rank + 1) + ceiling + 1

/-- **Scripts that reach the family end.** Each definition that they reach and that gets a new scope
    leaves fewer free ones; each one that they extend is of lower rank. -/
theorem run_ends (hl : Settling library family torn rank) (limit : Nat) (stack : List Nat)
    (ceiling : Nat) (hlimit : enough family rank (free family stack) ceiling ≤ limit)
    {script : Script μ}
    (hw : script.Within (fun d => d ∈ family ∧ (torn d ∨ rank d < ceiling)) (· ∈ family))
    {root : ScopeId} {roots : List ScopeId} {b : Builder} {s : Engine × μ}
    (hfit : Fit torn root roots b s.1) (hstack : s.1.constructing = stack) :
    Ends (script.run (Engine.calls library limit) b) s := by
  induction limit generalizing stack ceiling script root roots b s with
  | zero =>
    unfold enough at hlimit
    omega
  | succ limit ih =>
    refine script.run_ends (calls_barred hl.key hl.needs (limit + 1)) ?_ ?_ b s hw hfit hstack
    -- A definition that gets a scope: there is one free definition less behind it.
    · intro key roots s hkey hs hb hstack
      have hk : key ∈ family := hkey.elim And.left id
      refine processWith_ends fun hnot => ?_
      rw [hl.key] at hnot
      have ho := opened_spec (library key) hs
      obtain ⟨t, ht, -⟩ := ho.sound.root_owner List.mem_cons_self
      refine ih (key :: stack) (top family rank) ?_ ?_
        ⟨ho.sound, .root ht, hb.opened _ hs⟩ ?_
      · have hlt := free_cons_lt hk (hstack ▸ hnot)
        have hmul := Nat.mul_le_mul_right (top family rank + 1) (Nat.succ_le_of_lt hlt)
        rw [Nat.succ_mul] at hmul
        unfold enough at hlimit ⊢
        omega
      · refine (hl.within hk).mono (fun d hd => ⟨hd.1, .inr (rank_lt_top hd.1)⟩) fun d hd => hd
      · show (library key).key :: s.1.constructing = key :: stack
        rw [hl.key, hstack]
    -- A definition that is extended: those that it extends in turn are of lower rank.
    · intro key b s hkey htorn hfit hstack
      have hrank : rank key < ceiling := hkey.2.resolve_left htorn
      refine ih stack (rank key) ?_ ?_ hfit hstack
      · unfold enough at hlimit ⊢
        omega
      · refine (hl.within hkey.1).mono (fun d hd => ⟨hd.1, ?_⟩) fun d hd => hd
        exact hd.2.imp_right fun h => h.resolve_left htorn

/-- How many definitions inside each other are enough for any script. -/
def plenty (family : Finset Nat) (rank : Nat → Nat) : Nat :=
  enough family rank family.card (top family rank)

/-- An instance of a definition that reaches the family ends, and a larger limit changes nothing. -/
theorem processInstance_ends (hl : Settling library family torn rank) {d : Definition μ}
    (hw : d.script.Within (· ∈ family) (· ∈ family)) {s : Engine × μ} (hs : Sound roots s.1)
    (hb : Barren torn s.1) :
    ∃ out, ∀ limit, plenty family rank ≤ limit → processInstance library limit d s = some out := by
  have ho := opened_spec d hs
  obtain ⟨t, ht, -⟩ := ho.sound.root_owner List.mem_cons_self
  have hends : Ends (processInstance library (plenty family rank) d) s := by
    refine processInstanceWith_ends fun _ => hl.run_ends _ _ (top family rank) ?_ ?_
      ⟨ho.sound, .root ht, hb.opened d hs⟩ rfl
    · exact Nat.succ_le_succ (Nat.add_le_add_right (Nat.mul_le_mul_right _ (free_le_card _)) _)
    · exact hw.mono (fun d hd => ⟨hd, .inr (rank_lt_top hd)⟩) fun d hd => hd
  obtain ⟨out, hout⟩ := hends
  exact ⟨out, fun limit hle => processInstance_mono library hle d s out hout⟩

/-- **Every definition of the family ends,** and a larger limit changes nothing. -/
theorem process_ends (hl : Settling library family torn rank) {key : Nat} (hk : key ∈ family)
    {s : Engine × μ} (hs : Sound roots s.1) (hb : Barren torn s.1) :
    ∃ out, ∀ limit, plenty family rank ≤ limit → process library limit key s = some out := by
  have hw : (library key).script.Within (· ∈ family) (· ∈ family) :=
    (hl.within hk).mono (fun _ hd => hd.1) fun _ hd => hd
  -- A definition with a scope ends at once; one without gets a scope, with a limit that is plenty.
  cases hid : s.1.scopeOf? (library key).key with
  | none =>
    obtain ⟨out, hout⟩ := hl.processInstance_ends hw hs hb
    refine ⟨out, fun limit hle => ?_⟩
    rw [← hout limit hle]
    unfold process processWith
    rw [partial_bind, partial_get]
    simp only [hid]
    rfl
  | some id =>
    refine ⟨((existing (library key).title id s.1).1, (s.1, s.2)), fun limit _ => ?_⟩
    unfold process processWith
    rw [partial_bind, partial_get]
    simp only [hid]
    rw [BuildM.onEngine_apply, existing_snd]

end Settling

/-! ### Runs -/

/-- The program only makes instances of definitions in `torn` that need one in `torn`. -/
def Request.Regular (torn : Nat → Prop) : Request μ → Prop
  | .processInstance _ d => Torn torn d
  | _ => True

section Runs

variable {σ : Type} [Sink σ] {library : Library μ} {family : Finset Nat} {rank : Nat → Nat}

/-- Between calls a definition without a processed scope has none. -/
theorem Engine.Barren.of_singletons {e e' : Engine} (h : Barren torn e) (hs : Sound [] e)
    (heq : e'.singletons = e.singletons) : Barren torn e' := by
  intro d id hd hid
  unfold scopeOf? at hid
  rw [heq] at hid
  obtain ⟨t, ht, -⟩ := hs.linked.singleton_live hid
  exact absurd ⟨t, ht, hs.settled ht⟩ (h d id hd hid)

/-- **A call leaves definitions that are bound to fail without a scope.** -/
theorem Performed.barren (hl : Settling library family torn rank) {request : Request μ}
    {s s' : Session μ σ} {r : Answer} (h : Performed library request s r s')
    (hs : Sound [] s.engine) (hr : request.Regular torn) (hb : Barren torn s.engine) :
    Barren torn s'.engine := by
  -- Building is barred from the definitions that are bound to fail; all other calls make no scopes.
  have hprocess : ∀ {limit key r s₁},
      Engine.process library limit key (s.engine, s.memory) = some (r, s₁) →
      Barren torn s₁.1 := fun h =>
    (processWith_spares (calls_barred hl.key hl.needs _) (hl.needs _) hs h).1.barren hb
  cases h with
  | process h => exact hprocess h
  | processInstance h =>
    exact (processInstanceWith_spares (calls_barred hl.key hl.needs _) hr hs h).1.barren hb
  | @activate id s r e sink h =>
    have hT := activate_touched id (s.engine, s.sink)
    rw [h] at hT
    exact hb.of_singletons hs hT.undisturbed.singletons
  | unprocessed h => exact hprocess h
  | @activateDefinition limit key s id e m r e' sink h h' =>
    have hT := activate_touched id (e, s.sink)
    rw [h'] at hT
    exact (hprocess h).of_singletons ((process_builds hs h).1.sound hs).1 hT.undisturbed.singletons
  | @deactivate id s r e sink h =>
    have hT := deactivate_touched id (s.engine, s.sink)
    rw [h] at hT
    exact hb.of_singletons hs hT.undisturbed.singletons
  | @nameFor id slot s r e h =>
    have hR := nameFor_renamed id slot s.engine
    rw [h] at hR
    exact hb.of_singletons hs hR.singletons
  | configure h =>
    subst h
    exact hb.of_singletons hs rfl

variable {naming : NamingConfig} {catalog : Catalog} {ambient : Ambient} {memory : μ}
  {steps : List (Request μ × Answer)} {s : Engine × μ}

/-- So does a run. -/
theorem Run.barren (hl : Settling library family torn rank)
    (h : Run library (create naming catalog ambient, memory) steps s)
    (hr : ∀ step ∈ steps, step.1.Regular torn) : Barren torn s.1 := by
  induction h with
  | start => exact fun _ _ _ hid => by cases hid
  | call before request sink h ih =>
    have hs := before.sound (sound_create naming catalog ambient)
    have hrequest := hr _ (List.mem_append_right _ List.mem_cons_self)
    exact (Request.performed h).barren hl hs hrequest
      (ih fun step hstep => hr step (List.mem_append_left _ hstep))

/-- **Every definition of a family comes to an end, whatever was processed before,** if none of them
    extends itself at any distance unless it is bound to fail: they may use each other in circles,
    and go on after errors. So does every instance of a definition that reaches the family. -/
theorem Run.definitions_end (hl : Settling library family torn rank)
    (h : Run library (create naming catalog ambient, memory) steps s)
    (hr : ∀ step ∈ steps, step.1.Regular torn) :
    (∀ key ∈ family, ∃ out, ∀ limit, Settling.plenty family rank ≤ limit →
      process library limit key s = some out) ∧
    ∀ d : Definition μ, d.script.Within (· ∈ family) (· ∈ family) → ∃ out, ∀ limit,
      Settling.plenty family rank ≤ limit → processInstance library limit d s = some out :=
  have hs := h.sound (sound_create naming catalog ambient)
  have hb := h.barren hl hr
  ⟨fun _ hk => hl.process_ends hk hs hb, fun _ hw => hl.processInstance_ends hw hs hb⟩

end Runs

/-- A library of a definition that extends itself and fails, one that extends it and goes on, and
    one that uses the second one and is extended by it. -/
def circularLibrary : Library Unit
  | 0 => ⟨0, "Strict", "strict", false, .extend 0 fun
      | .error err => .fail err
      | .ok _ => .done⟩
  | 1 => ⟨1, "Left", "left", false, .extend 0 fun _ => .extend 2 fun _ => .done⟩
  | key => ⟨key, "Right", "right", false, .use 1 fun _ => .done⟩

/-- The first one is bound to fail, and the second one ranks above the third one. -/
theorem circularLibrary_settling :
    Settling circularLibrary {0, 1, 2} (· = 0) fun k => if k = 1 then 1 else 0 where
  key k := by
    rcases k with _ | _ | k <;> rfl
  needs k htorn := by
    rcases k with _ | _ | k
    · exact ⟨0, rfl, fun _ => trivial, .inl rfl⟩
    · cases htorn
    · cases htorn
  within {k} hk := by
    simp only [Finset.mem_insert, Finset.mem_singleton] at hk
    rcases hk with rfl | rfl | rfl
    · refine ⟨⟨by decide, .inl rfl⟩, fun answer => ?_⟩
      cases answer <;> trivial
    · exact ⟨⟨by decide, .inl rfl⟩,
        fun _ => ⟨⟨by decide, .inr (.inr (by decide))⟩, fun _ => trivial⟩⟩
    · exact ⟨by decide, fun _ => trivial⟩

/-- The first one fails, and the others, which reach each other, end after that. -/
theorem circle_of_definitions_ends : ∃ steps s,
    Run circularLibrary (create {} .empty .initial, ()) steps s ∧
      steps.map (·.2.toOption) = [none] ∧ s.1.scopeOf? 0 = none ∧
      ∃ out, ∀ limit, 14 ≤ limit → process circularLibrary limit 1 s = some out := by
  have hout : ((Session.performAll circularLibrary [.process 14 0]
      (freshSession TextSink.empty)).any fun out =>
        out.1.map (·.2.toOption) = [none] && out.2.engine.scopeOf? 0 = none) = true := by
    decide +kernel
  obtain ⟨⟨steps, s⟩, hall, hp⟩ := (Option.any_eq_true _ _).mp hout
  simp only [Bool.and_eq_true, decide_eq_true_eq] at hp
  have hrun := Run.performAll .start hall
  have hregular : ∀ step ∈ steps, step.1.Regular (· = 0) := fun step hstep => by
    have hrequest := List.mem_map_of_mem (f := Prod.fst) hstep
    rw [Session.performAll_fst hall, List.mem_singleton] at hrequest
    rw [hrequest]
    trivial
  obtain ⟨out, hends⟩ := (hrun.definitions_end circularLibrary_settling hregular).1 1 (by decide)
  exact ⟨steps, (s.engine, s.memory), hrun, hp.1, hp.2, out, fun limit hle =>
    hends limit (le_trans (by decide) hle)⟩

/-! ### Circles of extensions -/

/-- A definition that has its scope is not processed again. -/
theorem Engine.processWith_existing {d : Definition μ} {s : Engine × μ} {id : ScopeId}
    (hid : s.1.scopeOf? d.key = some id) (hsettled : s.1.Settles id) :
    processWith calls d s = some (.ok id, s) := by
  obtain ⟨t, ht, hstate⟩ := hsettled
  unfold processWith
  rw [partial_bind, partial_get]
  simp only [hid]
  rw [BuildM.onEngine_apply]
  unfold existing
  rw [stateful_bind_ok (requireScope_some ht)]
  simp only [if_neg hstate]
  rfl

/-- A definition that gets a new scope has no end if its script has none. -/
theorem Engine.processWith_none {d : Definition μ} {s : Engine × μ}
    (hid : s.1.scopeOf? d.key = none) (hkey : d.key ∉ s.1.constructing)
    (h : d.script.run calls ⟨s.1.nextScope, 0⟩ (opened d s.1, s.2) = none) :
    processWith calls d s = none := by
  have hconstruct : construct calls d s = none := by rw [construct_eq, h]
  unfold processWith
  rw [partial_bind, partial_get]
  simp only [hid]
  unfold processInstanceWith
  rw [partial_bind, partial_get]
  simp only [if_neg hkey, hid]
  cases d.multiplex <;> exact hconstruct

/-- **A processed definition that first extends itself has no end where it is extended.** -/
theorem Script.extend_endless {library : Library μ} {d : Nat}
    {again : Except Error ScopeId → Script μ}
    (hd : (library d).script = .extend d again) (limit : Nat)
    (next : Except Error ScopeId → Script μ) (b : Builder) (s : Engine × μ) {id : ScopeId}
    (hid : s.1.scopeOf? (library d).key = some id) (hsettled : s.1.Settles id) :
    (Script.extend d next).run (Engine.calls library limit) b s = none := by
  induction limit generalizing next b s with
  | zero => rfl
  | succ limit ih =>
    have hprocess : (Engine.calls library (limit + 1)).process d s = some (.ok id, s) :=
      processWith_existing hid hsettled
    -- Setting what the scope extends leaves definitions and processed scopes as they are.
    obtain ⟨e₁, hbase, hid₁, hsettled₁⟩ : ∃ e₁, setBase b id s = some (.ok (), (e₁, s.2)) ∧
        e₁.scopeOf? (library d).key = some id ∧ e₁.Settles id := by
      unfold setBase
      split
      · have hR := setBase_declared (C := fun _ => False) b.scope id s.1
        obtain ⟨t, ht, hstate⟩ := hsettled
        obtain ⟨t', ht', hD⟩ := hR.scope ht
        have hstate' : t'.Settled := by
          unfold Scope.Settled
          rwa [hD.state]
        exact ⟨_, rfl, by unfold scopeOf?; rw [hR.singletons]; exact hid, t', ht', hstate'⟩
      · exact ⟨s.1, rfl, hid, hsettled⟩
    have hdeclare : (Engine.calls library (limit + 1)).declare d { b with depth := b.depth + 1 }
        (e₁, s.2) = none := by
      show (library d).script.run (Engine.calls library limit) _ _ = none
      rw [hd]
      exact ih again _ (e₁, s.2) hid₁ hsettled₁
    have hextension : extension (Engine.calls library (limit + 1)) d b s = none := by
      unfold extension
      rw [partial_bind, hprocess]
      simp only
      rw [partial_bind, hbase]
      simp only
      rw [partial_bind, hdeclare]
    rw [run_extend, partial_bind]
    unfold attempt
    rw [hextension]

/-- A library of a definition that extends itself and ignores the error, and one that extends it. -/
def loopingLibrary : Library Unit
  | 0 => ⟨0, "Loop", "loop", false, .extend 0 fun _ => .done⟩
  | key => ⟨key, "Outer", "outer", false, .extend 0 fun _ => .done⟩

/-- The first one is processed, and the other one then has no end. -/
theorem endless_extension : ∃ steps s,
    Session.performAll loopingLibrary [.process 2 0] (freshSession TextSink.empty) =
        some (steps, s) ∧
      steps.map (·.2.toOption) = [some (some 1)] ∧
      ∀ limit, process loopingLibrary limit 1 (s.engine, s.memory) = none := by
  -- What the first definition leaves is decided. The second one has no end by the general theorem
  -- about scripts that extend themselves.
  have hout : ((Session.performAll loopingLibrary [.process 2 0]
      (freshSession TextSink.empty)).any fun out =>
        out.1.map (·.2.toOption) = [some (some 1)] && out.2.engine.scopeOf? 0 = some 1 &&
          out.2.engine.scopeOf? 1 = none && out.2.engine.constructing = []) = true := by
    decide +kernel
  obtain ⟨⟨steps, s⟩, hall, hp⟩ := (Option.any_eq_true _ _).mp hout
  simp only [Bool.and_eq_true, decide_eq_true_eq] at hp
  obtain ⟨⟨⟨hanswers, hloop⟩, houter⟩, hconstructing⟩ := hp
  refine ⟨steps, s, hall, hanswers, fun limit => ?_⟩
  have hs : Sound [] s.engine := (Run.performAll .start hall).sound (sound_create _ _ _)
  obtain ⟨t, ht, -⟩ := hs.linked.singleton_live hloop
  have hx := (opened_spec (loopingLibrary 1) hs).leaves
  refine processWith_none houter (by rw [hconstructing]; exact List.not_mem_nil) ?_
  refine Script.extend_endless rfl limit _ _ _ ?_ ⟨t, hx.settled ht (hs.settled ht), hs.settled ht⟩
  exact (Dict.get?_insert_of_ne (by decide) _ _).trans hloop

end StyleBook
