import StyleBook.Proofs.Engine.Frames
import StyleBook.Proofs.Script.Spots

namespace StyleBook

/-!
# Which definitions get scopes on the way

While the script of a definition runs, it reaches other definitions, and those that have no scope
yet get one; their scripts reach further definitions in turn.

* `Attempt` — a definition that is about to get a new scope, and `Attempt.Succeeds` — that it gets
  it;
* `Spot.Yields` — the definitions that get a scope while a script runs on from a spot, in whatever
  depth;
* `Engine.Gains` — only such definitions, and groups inside of them, leave new scopes behind;
  `Spot.run_gains`, `Attempt.gains` — so it is across scripts and across definitions.
-/

variable {μ : Type}

/-- A definition that is about to get a new scope. -/
structure Attempt (μ : Type) where
  /-- How many definitions its script reaches inside each other at most. -/
  limit : Nat
  /-- The definition. -/
  definition : Definition μ
  /-- The state that it finds. -/
  state : Engine × μ

namespace Attempt

open Engine hiding onEngine changeEngine

/-- Where the script of the definition starts. -/
def start (a : Attempt μ) : Spot μ :=
  ⟨a.limit, a.definition.script, ⟨a.state.1.nextScope, 0⟩,
    (opened a.definition a.state.1, a.state.2)⟩

/-- What comes of it. -/
def run (library : Library μ) (a : Attempt μ) :
    Option (Except Error ScopeId × (Engine × μ)) :=
  construct (calls library a.limit) a.definition a.state

/-- The definition is processed, and has this scope. -/
def Succeeds (library : Library μ) (a : Attempt μ) (id : ScopeId) : Prop :=
  ∃ s', a.run library = some (.ok id, s')

end Attempt

namespace Spot

/-- **The script stands before a step that gives a definition a new scope:** it extends or uses the
    definition, which has none and is not declaring. -/
inductive Attempts (library : Library μ) : Spot μ → Attempt μ → Prop
  | extend {limit definition next b s} (hnew : s.1.scopeOf? (library definition).key = none)
    (hkey : (library definition).key ∉ s.1.constructing) :
    Attempts library ⟨limit + 1, .extend definition next, b, s⟩ ⟨limit, library definition, s⟩
  | use {limit definition next b s} (hnew : s.1.scopeOf? (library definition).key = none)
    (hkey : (library definition).key ∉ s.1.constructing) :
    Attempts library ⟨limit + 1, .use definition next, b, s⟩ ⟨limit, library definition, s⟩

/-- The script, or that of a definition it reaches, comes to such a step. -/
inductive Tries (library : Library μ) : Spot μ → Attempt μ → Prop
  /-- A step of the script. -/
  | step {p q a} (later : Later library p q) (attempt : q.Attempts library a) : Tries library p a
  /-- A step of the script of a definition that the script reaches. -/
  | inner {p q a b} (later : Later library p q) (attempt : q.Attempts library a)
    (tries : Tries library a.start b) : Tries library p b

/-- **While the script runs on, the definition is processed** and gets this scope. -/
def Yields (library : Library μ) (p : Spot μ) (d : Definition μ) (id : ScopeId) : Prop :=
  ∃ a, p.Tries library a ∧ a.definition = d ∧ a.Succeeds library id

variable {library : Library μ} {p q : Spot μ}

/-- What happens from the next spot on happens from this one on. -/
theorem Next.yields (h : Next library p q) {d : Definition μ} {id : ScopeId}
    (hq : q.Yields library d id) : p.Yields library d id := by
  obtain ⟨a, htries, hd, hok⟩ := hq
  refine ⟨a, ?_, hd, hok⟩
  cases htries with
  | step later attempt => exact .step (.head h later) attempt
  | inner later attempt tries => exact .inner (.head h later) attempt tries

end Spot

/-- The definition that is about to get a scope does, or one that its script reaches. -/
def Attempt.Yields (library : Library μ) (a : Attempt μ) (d : Definition μ) (id : ScopeId) : Prop :=
  a.definition = d ∧ a.Succeeds library id ∨ a.start.Yields library d id

/-- What a step before which the script stands leads to happens while the script runs on. -/
theorem Spot.Attempts.yields {library : Library μ} {p : Spot μ} {a : Attempt μ}
    (h : p.Attempts library a) {d : Definition μ} {id : ScopeId} (ha : a.Yields library d id) :
    p.Yields library d id := by
  rcases ha with ⟨rfl, hok⟩ | ⟨b, htries, hd, hok⟩
  · exact ⟨a, .step .refl h, rfl, hok⟩
  · exact ⟨b, .inner .refl h htries, hd, hok⟩

namespace Engine

open BuildM hiding onEngine changeEngine

variable {e e' e'' : Engine} {G H : Definition μ → ScopeId → Prop} {home home' : ScopeId → Prop}

/-- **What may be new:** scopes inside of those that definitions get as `G` says, or inside of
    `home`, and entries for such definitions. No entry is lost. -/
structure Gains (G : Definition μ → ScopeId → Prop) (home : ScopeId → Prop) (e e' : Engine) :
    Prop where
  scope {k t} : e'.scope? k = some t → e.scope? k = none →
    ∃ root, (home root ∨ ∃ d, G d root) ∧ e'.Inside root k
  entry {key id} : e'.scopeOf? key = some id → e.scopeOf? key = some id ∨
    ∃ d, d.key = key ∧ d.multiplex = false ∧ G d id
  kept {key id} : e.scopeOf? key = some id → e'.scopeOf? key = some id

namespace Gains

/-- If the scopes are those that were there. -/
theorem of_rescoped {R : ScopeId → Scope → Scope → Prop} (h : Rescoped R e e') :
    Gains G home e e' where
  scope hk hnone := by
    obtain ⟨s, hs, -⟩ := h.back hk
    rw [hnone] at hs
    cases hs
  entry hid := .inl (by unfold scopeOf? at hid ⊢; rwa [h.singletons] at hid)
  kept hid := by unfold scopeOf? at hid ⊢; rwa [h.singletons]

/-- Nothing has been gained. -/
theorem refl (e : Engine) : Gains G home e e where
  scope hk hnone := by rw [hnone] at hk; cases hk
  entry := .inl
  kept := id

/-- More definitions may account for what is new. -/
theorem mono (h : Gains G home e e') (hG : ∀ d id, G d id → H d id)
    (hhome : ∀ root, home root → home' root) : Gains H home' e e' where
  scope hk hnone := by
    obtain ⟨root, hroot, hin⟩ := h.scope hk hnone
    exact ⟨root, hroot.imp (hhome root) (Exists.imp fun d => hG d root), hin⟩
  entry hid := (h.entry hid).imp_right (Exists.imp fun d hd => ⟨hd.1, hd.2.1, hG d _ hd.2.2⟩)
  kept := h.kept

/-- One thing after the other, if the second one leaves scopes where they are. -/
theorem trans (h : Gains G home e e') (h' : Gains G home e' e'') (hx : Extends e' e'') :
    Gains G home e e'' where
  scope {k t} hk hnone := by
    cases hmid : e'.scope? k with
    | none => exact h'.scope hk hmid
    | some s =>
      obtain ⟨root, hroot, hin⟩ := h.scope hmid hnone
      exact ⟨root, hroot, hx.inside hin⟩
  entry hid := (h'.entry hid).elim h.entry .inr
  kept hid := h'.kept (h.kept hid)

/-- And then something is changed that is no scope. -/
theorem aside (h : Gains G home e e') (hs : e''.scopes = e'.scopes)
    (hd : e''.singletons = e'.singletons) (hn : e''.nextScope = e'.nextScope) :
    Gains G home e e'' :=
  have hsame : Rescoped (fun _ => Scope.Retouched) e' e'' := .of_scopes_eq hs hd hn
  h.trans (.of_rescoped hsame) hsame.extends

end Gains

/-! ### Definitions -/

variable {roots : List ScopeId} {library : Library μ} {r : Except Error ScopeId}
  {s s' : Engine × μ}

/-- A definition has its scope, and its script is going to run. -/
theorem gains_opened {d : Definition μ} (hs : Sound roots e) :
    (∀ {k t}, (opened d e).scope? k = some t → e.scope? k = none → k = e.nextScope) ∧
      (∀ {key id}, (opened d e).scopeOf? key = some id → e.scopeOf? key = some id ∨
        key = d.key ∧ d.multiplex = false ∧ id = e.nextScope) ∧
      ∀ {key id}, (d.multiplex = false → e.scopeOf? d.key = none) → e.scopeOf? key = some id →
        (opened d e).scopeOf? key = some id := by
  -- Definitions that are multiplex have no entry; the others get theirs together with the scope.
  have hget : ∀ key, (opened d e).scopeOf? key =
      if d.multiplex then e.scopeOf? key
      else if key = d.key then some e.nextScope else e.scopeOf? key := by
    intro key
    show (if d.multiplex then e.singletons else e.singletons.insert d.key e.nextScope).get? key = _
    cases d.multiplex with
    | true => rfl
    | false => exact Dict.get?_insert _ _ _ _
  refine ⟨fun hk hnone => ?_, fun {key id} hid => ?_, fun {key id} hnew hid => ?_⟩
  · rcases (opened_spec d hs).back hk with ⟨rfl, -⟩ | hold
    · rfl
    · rw [hnone] at hold
      cases hold
  · rw [hget] at hid
    cases hm : d.multiplex with
    | true => exact .inl (by rwa [hm] at hid)
    | false =>
      rw [hm, if_neg Bool.false_ne_true] at hid
      split at hid
      · exact .inr ⟨‹_›, rfl, (Option.some.inj hid).symm⟩
      · exact .inl hid
  · rw [hget]
    split
    · exact hid
    · next hm =>
      rw [if_neg ?_]
      · exact hid
      · rintro rfl
        rw [hnew (Bool.not_eq_true _ ▸ hm)] at hid
        cases hid

/-- A definition that failed takes no entry away but its own. -/
theorem scopeOf?_abandon {id id' : ScopeId} {key key' : Nat} (hid : e.scopeOf? key' = some id')
    (hne : id' ≠ id) : (e.abandon id key).scopeOf? key' = some id' := by
  unfold scopeOf?
  rw [abandon_singletons]
  split
  · next hown =>
    have hkey : key' ≠ key := fun heq => hne (Option.some.inj (hid.symm.trans (heq ▸ hown)))
    exact (Dict.get?_erase_of_ne hkey e.singletons).trans hid
  · exact hid

/-- **A definition that failed** leaves behind only what those definitions left that it reached. -/
theorem Gains.failed {d : Definition μ} {e₁ e₂ : Engine} {r : Except Error Unit}
    (hs : Sound roots e) (hnew : d.multiplex = false → e.scopeOf? d.key = none)
    (h : Gains G (· = e.nextScope) (opened d e) e₁)
    (hp : Processes (e₁.Inside e.nextScope) e₁ r e₂) :
    Gains G (fun _ => False) e (e₂.abandon e.nextScope d.key) := by
  have ha := abandon_abandoned hp.linked e.nextScope d.key
  obtain ⟨hscope, hentry, hkept⟩ := gains_opened (d := d) hs
  refine ⟨fun {k t} hk hnone => ?_, fun {key id} hid => ?_, fun {key id} hid => ?_⟩
  -- A new scope that is left is not inside of the definition's, so another definition left it.
  · obtain ⟨hout, hk₂⟩ := ha.back hk
    obtain ⟨t₁, hk₁, -⟩ := hp.progressed.back hk₂
    have hout₁ : ¬ e₁.Inside e.nextScope k := fun hin => hout (hp.inside_iff.mpr hin)
    cases ho : (opened d e).scope? k with
    | some u =>
      obtain rfl := hscope ho hnone
      exact absurd (.root hk₁) hout₁
    | none =>
      obtain ⟨root, rfl | hroot, hin⟩ := h.scope hk₁ ho
      · exact absurd hin hout₁
      · exact ⟨root, .inr hroot, (ha.inside_iff hout).mpr (hp.inside_iff.mpr hin)⟩
  · obtain ⟨hid₂, hne⟩ := ha.singletons hid
    have hid₁ : e₁.scopeOf? key = some id := by
      unfold scopeOf?
      rwa [← hp.progressed.singletons]
    rcases h.entry hid₁ with hold | hgained
    · rcases hentry hold with hold | ⟨hkey, -, rfl⟩
      · exact .inl hold
      · exact absurd rfl (hne hkey)
    · exact .inr hgained
  · obtain ⟨t, ht, -⟩ := hs.linked.singleton_live hid
    have hne : id ≠ e.nextScope := fun heq =>
      absurd (hs.linked.lt_nextScope ht) (heq ▸ lt_irrefl _)
    refine scopeOf?_abandon ?_ hne
    unfold scopeOf?
    rw [hp.progressed.singletons]
    exact h.kept (hkept hnew hid)

/-- **A definition that is processed** leaves its scope and its groups behind, and what those
    definitions left that it reached. -/
theorem Gains.processed {d : Definition μ} {e₁ e₂ : Engine} {r : Except Error Unit}
    (hs : Sound roots e) (hnew : d.multiplex = false → e.scopeOf? d.key = none)
    (h : Gains G (· = e.nextScope) (opened d e) e₁)
    (hp : Processes (e₁.Inside e.nextScope) e₁ r e₂) (hd : H d e.nextScope)
    (hG : ∀ d id, G d id → H d id) : Gains H (fun _ => False) e e₂ := by
  obtain ⟨hscope, hentry, hkept⟩ := gains_opened (d := d) hs
  refine ⟨fun {k t} hk hnone => ?_, fun {key id} hid => ?_, fun {key id} hid => ?_⟩
  -- A scope that is new was there before processing already: it is the definition's own one, or one
  -- that the script has gained.
  · obtain ⟨t₁, hk₁, -⟩ := hp.progressed.back hk
    cases ho : (opened d e).scope? k with
    | some u =>
      obtain rfl := hscope ho hnone
      exact ⟨e.nextScope, .inr ⟨d, hd⟩, .root hk⟩
    | none =>
      obtain ⟨root, hroot, hin⟩ := h.scope hk₁ ho
      refine ⟨root, .inr ?_, hp.inside_iff.mpr hin⟩
      rcases hroot with rfl | ⟨d', hd'⟩
      · exact ⟨d, hd⟩
      · exact ⟨d', hG d' root hd'⟩
  · have hid₁ : e₁.scopeOf? key = some id := by
      unfold scopeOf? at hid ⊢
      rwa [hp.progressed.singletons] at hid
    -- An entry that is new is the definition's own one, or one that the script has gained.
    rcases h.entry hid₁ with hold | ⟨d', hkey, hm, hgained⟩
    · rcases hentry hold with hold | ⟨hkey, hm, rfl⟩
      · exact .inl hold
      · exact .inr ⟨d, hkey.symm, hm, hd⟩
    · exact .inr ⟨d', hkey, hm, hG d' id hgained⟩
  · unfold scopeOf?
    rw [hp.progressed.singletons]
    exact h.kept (hkept hnew hid)

end Engine

namespace Attempt

open Engine hiding onEngine changeEngine

variable {library : Library μ} {a : Attempt μ} {roots : List ScopeId} {s' : Engine × μ}

/-- The script of a definition that gets a scope runs in that scope. -/
theorem placed (hs : Sound roots a.state.1) : a.start.Placed a.state.1.nextScope roots := by
  have ho := opened_spec a.definition hs
  obtain ⟨t, ht, -⟩ := ho.sound.root_owner List.mem_cons_self
  exact ⟨ho.sound, .root ht⟩

/-- **Across a definition that gets a scope,** if so it is across its script. -/
theorem gains (hs : Sound roots a.state.1)
    (hnew : a.definition.multiplex = false → a.state.1.scopeOf? a.definition.key = none)
    (hscript : ∀ {r s₁}, a.start.run library = some (r, s₁) → Gains (a.start.Yields library)
      (· = a.state.1.nextScope) (opened a.definition a.state.1) s₁.1)
    {r : Except Error ScopeId} (h : a.run library = some (r, s')) :
    Gains (a.Yields library) (fun _ => False) a.state.1 s'.1 ∧
      ∀ err, r = .error err → Gains (a.start.Yields library) (fun _ => False) a.state.1 s'.1 := by
  have hsucceeds := h
  obtain ⟨declared, s₁, hrun, hend⟩ := construct_cases h
  have hp := placed hs
  have hgains := hscript hrun
  obtain ⟨hs₁, -⟩ := Builds.sound (Script.run_builds_anything (b := ⟨a.state.1.nextScope, 0⟩)
    (calls_build_anything library a.limit) a.definition.script hp.sound hp.inside _ s₁ hrun)
    hp.sound
  have hs₂ : Sound (a.state.1.nextScope :: roots) s₁.1.endConstruction := hs₁.endConstruction
  have hgains₂ : Gains (a.start.Yields library) (· = a.state.1.nextScope)
      (opened a.definition a.state.1) s₁.1.endConstruction := hgains.aside rfl rfl rfl
  have hproc := hs₂.pending.processScope hs₂
  have hyields : ∀ d id, a.start.Yields library d id → a.Yields library d id := fun _ _ => .inr
  rcases hend with ⟨err, err', -, -, heq⟩ | ⟨err, e₂, -, -, hrun₂, heq⟩ | ⟨-, rfl, hrun₂⟩
  -- Nothing was processed, and the scope is discarded as it is.
  · have hidle : Processes (s₁.1.endConstruction.Inside a.state.1.nextScope) s₁.1.endConstruction
        (.error .unknownScope) s₁.1.endConstruction :=
      ⟨hs₂.linked, .refl _, fun hok => by cases hok⟩
    have hleft : Gains (a.start.Yields library) (fun _ => False) a.state.1 s'.1 :=
      heq ▸ (hgains₂.failed hs hnew hidle).aside rfl rfl rfl
    exact ⟨hleft.mono hyields fun _ => id, fun _ _ => hleft⟩
  · rw [hrun₂] at hproc
    have hleft : Gains (a.start.Yields library) (fun _ => False) a.state.1 s'.1 :=
      heq ▸ hgains₂.failed hs hnew hproc
    exact ⟨hleft.mono hyields fun _ => id, fun _ _ => hleft⟩
  · rw [hrun₂] at hproc
    exact ⟨hgains₂.processed hs hnew hproc (.inl ⟨rfl, s', hsucceeds⟩) hyields,
      fun err herr => by cases herr⟩

end Attempt

/-! ### Definitions that have a scope -/

namespace Engine

open BuildM hiding onEngine changeEngine

variable {calls : Calls μ} {d : Definition μ} {r : Except Error ScopeId} {s s' : Engine × μ}

/-- **What happens to an instance of a definition.** It is declaring, or it has a scope, or it gets
    a new one. -/
theorem processInstanceWith_cases (h : processInstanceWith calls d s = some (r, s')) :
    (d.key ∈ s.1.constructing ∧ s' = s) ∨
      (∃ id, s.1.scopeOf? d.key = some id ∧ r = (existing d.title id s.1).1 ∧ s' = s) ∨
      d.key ∉ s.1.constructing ∧ (d.multiplex = false → s.1.scopeOf? d.key = none) ∧
        construct calls d s = some (r, s') := by
  unfold processInstanceWith at h
  rw [partial_bind, partial_get] at h
  simp only at h
  -- A definition that declares is refused. A multiplex one always gets a new scope; another one
  -- only if it has none.
  by_cases hkey : d.key ∈ s.1.constructing
  · rw [if_pos hkey] at h
    cases h
    exact .inl ⟨hkey, rfl⟩
  · rw [if_neg hkey] at h
    refine .inr ?_
    cases hm : d.multiplex with
    | true =>
      simp only [hm] at h
      exact .inr ⟨hkey, nofun, h⟩
    | false =>
      rcases hid : s.1.scopeOf? d.key with _ | id <;> simp only [hm, hid] at h
      · exact .inr ⟨hkey, fun _ => rfl, h⟩
      · rw [BuildM.onEngine_apply] at h
        cases h
        exact .inl ⟨id, rfl, rfl, by rw [existing_snd]⟩

/-- Between calls an instance of a definition that fails gets a new scope first, unless it is
    declaring: a definition that has a scope has a processed one. -/
theorem processInstanceWith_failed {err : Error} (hs : Sound [] s.1)
    (hkey : d.key ∉ s.1.constructing)
    (h : processInstanceWith calls d s = some (.error err, s')) :
    (d.multiplex = false → s.1.scopeOf? d.key = none) ∧
      construct calls d s = some (.error err, s') := by
  rcases processInstanceWith_cases h with ⟨hc, -⟩ | ⟨id, hid, hr, -⟩ | ⟨-, hnew, hconstruct⟩
  · exact absurd hc hkey
  · obtain ⟨t, ht, -⟩ := hs.linked.singleton_live hid
    unfold existing at hr
    rw [stateful_bind_ok (requireScope_some ht), if_neg (hs.settled ht)] at hr
    cases hr
  · exact ⟨hnew, hconstruct⟩

/-- **What happens to a definition.** It has a scope, or it is an instance. -/
theorem processWith_cases (h : processWith calls d s = some (r, s')) :
    (∃ id, s.1.scopeOf? d.key = some id ∧ s' = s) ∨
      s.1.scopeOf? d.key = none ∧ processInstanceWith calls d s = some (r, s') := by
  unfold processWith at h
  rw [partial_bind, partial_get] at h
  simp only at h
  rcases hid : s.1.scopeOf? d.key with _ | id <;> simp only [hid] at h
  · exact .inr ⟨rfl, h⟩
  · rw [BuildM.onEngine_apply] at h
    cases h
    exact .inl ⟨id, rfl, by rw [existing_snd]⟩

/-- A definition that has no scope and is not declaring gets a new one. -/
theorem processWith_construct (hnew : s.1.scopeOf? d.key = none) (hkey : d.key ∉ s.1.constructing)
    (h : processWith calls d s = some (r, s')) : construct calls d s = some (r, s') := by
  rcases processWith_cases h with ⟨id, hid, -⟩ | ⟨-, h⟩
  · rw [hnew] at hid
    cases hid
  · rcases processInstanceWith_cases h with ⟨hc, -⟩ | ⟨id, hid, -⟩ | ⟨-, -, hconstruct⟩
    · exact absurd hc hkey
    · rw [hnew] at hid
      cases hid
    · exact hconstruct

end Engine

/-! ### Scripts -/

namespace Spot

open BuildM
open Engine hiding onEngine changeEngine

variable {library : Library μ} {p q : Spot μ} {root : ScopeId} {roots : List ScopeId}
  {limit definition : Nat} {b : Builder} {s s' : Engine × μ}

/-- What a script does while it runs on from `p` in a scope of `root`. -/
structure Leaves (library : Library μ) (p : Spot μ) (root : ScopeId)
    (s s' : Engine × μ) : Prop where
  gains : Gains (p.Yields library) (· = root) s.1 s'.1
  leaves : Extends s.1 s'.1

instance : IsPreorder (Engine × μ) (Leaves library p root) where
  refl s := ⟨.refl s.1, .refl s.1⟩
  trans _ _ _ h h' := ⟨h.gains.trans h'.gains h'.leaves, h.leaves.trans h'.leaves⟩

/-- What it does from the next spot on, it does from this one on. -/
theorem Next.leaves {α : Type} {c : BuildM μ α} (h : Next library p q)
    (hq : Moves (Leaves library q root) c s) : Moves (Leaves library p root) c s := fun r s' hrun =>
  have hl := hq r s' hrun
  ⟨hl.gains.mono (fun _ _ => h.yields) fun _ => id, hl.leaves⟩

/-- Rules and references are declared in scopes that are there. -/
theorem rescoped_leaves {α : Type} {c : BuildM μ α} {R : ScopeId → Scope → Scope → Prop}
    (hs : Sound (root :: roots) s.1) (hbuilds : Moves (BuildsState anything (root :: roots)) c s)
    (hR : Moves (fun s s' => Rescoped R s.1 s'.1) c s) : Moves (Leaves library p root) c s :=
  fun r s' h => ⟨.of_rescoped (hR r s' h), ((hbuilds r s' h).sound hs).2⟩

/-- What a scope extends is set. -/
theorem setBase_rescoped (b : Builder) (base : ScopeId) :
    Moves (fun s s' : Engine × μ =>
      Rescoped (fun k => Scope.Declared (k = b.scope) fun _ => False) s.1 s'.1)
      (Script.setBase b base) s := by
  unfold Script.setBase
  split
  · exact moves_changeEngine (setBase_declared b.scope base s.1)
  · intro r s' h
    cases h
    exact .refl s.1

/-- A group gets a scope. -/
theorem nested_leaves (hs : Sound (root :: roots) s.1) (hb : s.1.Inside root b.scope) :
    Moves (Leaves library p root) (onEngine (addNested b.scope)) s := by
  obtain ⟨child, e₁, hnest, hbuilds, hin⟩ := addNested_builds (P := anything) hs.linked hb
  obtain ⟨t, ht⟩ := hb.live
  have hnew : child = s.1.nextScope := addNested_ok hnest
  have hscopes : ∀ k, e₁.scope? k = (addNested b.scope s.1).2.scope? k := fun k => by rw [hnest]
  have hentries : e₁.singletons = s.1.singletons := by
    have hu := addNested_undisturbed b.scope s.1
    unfold Steps at hu
    rw [hnest] at hu
    exact hu.singletons
  refine moves_onEngine ?_
  rw [hnest]
  refine ⟨⟨fun {k u} hk hnone => ?_, fun {key id} hid => .inl ?_, fun {key id} hid => ?_⟩,
    ((hbuilds roots).sound hs).2⟩
  -- Of all scopes only the group's is new, and it lies in the definition's.
  · refine ⟨root, .inl rfl, ?_⟩
    have hk' : e₁.scope? k = some u := hk
    rw [hscopes, scope?_addNested hs.linked ht] at hk'
    by_cases hkn : k = s.1.nextScope
    · exact hkn ▸ hnew ▸ hin
    · rw [if_neg hkn] at hk'
      split at hk'
      · next heq =>
        rw [heq, ht] at hnone
        cases hnone
      · rw [hnone] at hk'
        cases hk'
  · unfold scopeOf? at hid ⊢
    exact hentries ▸ hid
  · unfold scopeOf? at hid ⊢
    exact hentries.symm ▸ hid

/-- Across the definitions of a library that get a scope. -/
def AttemptsGain (library : Library μ) (limit : Nat) : Prop :=
  ∀ (a : Attempt μ) (roots : List ScopeId), a.limit = limit → Sound roots a.state.1 →
    (a.definition.multiplex = false → a.state.1.scopeOf? a.definition.key = none) →
    ∀ {r s'}, a.run library = some (r, s') →
      Gains (a.Yields library) (fun _ => False) a.state.1 s'.1

/-- A definition that the script reaches has a scope, or gets one, or fails. -/
theorem process_leaves (ha : AttemptsGain library limit) (hs : Sound (root :: roots) s.1)
    (hattempt : s.1.scopeOf? (library definition).key = none →
      (library definition).key ∉ s.1.constructing →
      p.Attempts library ⟨limit, library definition, s⟩) :
    Moves (Leaves library p root) ((calls library (limit + 1)).process definition) s := by
  intro r s' h
  have hx := (((calls_build_anything library (limit + 1)).process hs trivial h).1.sound hs).2
  refine ⟨?_, hx⟩
  rcases processWith_cases h with ⟨_, -, rfl⟩ | ⟨hnew, h⟩
  · exact .refl s'.1
  · rcases processInstanceWith_cases h with ⟨-, rfl⟩ | ⟨_, -, -, rfl⟩ | ⟨hkey, -, hconstruct⟩
    · exact .refl s'.1
    · exact .refl s'.1
    · have hgains := ha ⟨limit, library definition, s⟩ _ rfl hs (fun _ => hnew) hconstruct
      exact hgains.mono (fun _ _ hy => (hattempt hnew hkey).yields hy) fun _ hfalse => hfalse.elim

/-- **New scopes come from groups, and from definitions that get scopes on the way.** -/
theorem run_leaves (library : Library μ) (limit : Nat) (script : Script μ) (b : Builder)
    (s : Engine × μ) (hp : Placed root roots ⟨limit, script, b, s⟩) :
    Moves (Leaves library ⟨limit, script, b, s⟩ root) (script.run (calls library limit) b) s := by
  -- Definitions that are reached have a lower limit.
  induction limit using Nat.strong_induction_on generalizing root roots script b s with
  | _ limit ihl =>
  have hbuild := calls_build_anything library limit
  have hreached : ∀ n, limit = n + 1 → AttemptsGain library n := by
    rintro n rfl a roots rfl hs hnew r s' hrun
    refine (Attempt.gains hs hnew (fun {r s₁} hscript => ?_) hrun).1
    exact (ihl a.limit (Nat.lt_succ_self _) _ _ _ (Attempt.placed hs) r s₁ hscript).gains
  induction script generalizing b s with
  | done => exact .pure _ s
  | fail err => exact .throw err s
  | add slot rule next ih =>
    have hbuilds : Moves (BuildsState anything (root :: roots))
        (onEngine (addRule b.scope slot rule)) s :=
      moves_onEngine (addRule_builds hp.inside (fun _ _ => trivial) slot)
    exact .bind (rescoped_leaves hp.sound hbuilds
      (moves_onEngine (addRule_declared _ slot rule _)))
      fun r s₁ h₁ => Next.leaves (.add h₁) (ih r b s₁ (hp.next library (.add h₁)))
  | addUnnamed rule next ih =>
    have hbuilds : Moves (BuildsState anything (root :: roots))
        (onEngine (addUnnamedRule b.scope rule)) s :=
      moves_onEngine (addUnnamedRule_builds hp.inside fun _ _ => trivial)
    exact .bind (rescoped_leaves hp.sound hbuilds
      (moves_onEngine (addUnnamedRule_declared _ rule _)))
      fun r s₁ h₁ => Next.leaves (.addUnnamed h₁) (ih r b s₁ (hp.next library (.addUnnamed h₁)))
  | find slot next ih => exact Next.leaves .find (ih _ b s ⟨hp.sound, hp.inside⟩)
  | scope next ih => exact Next.leaves .scope (ih _ b s ⟨hp.sound, hp.inside⟩)
  | extend definition next ih =>
    rw [Script.run_extend]
    refine .bind (moves_attempt ?_) fun answer s₁ h₁ =>
      Next.leaves (.extend h₁) (ih answer b s₁ (hp.next library (.extend h₁)))
    cases limit with
    | zero => exact fun _ _ h => by cases h
    | succ limit =>
      unfold Script.extension
      refine .bind (process_leaves (hreached limit rfl) hp.sound fun hnew hkey => .extend hnew hkey)
        fun base s₁ h₁ => ?_
      obtain ⟨hs₁, hx₁⟩ := (hbuild.process hp.sound trivial h₁).1.sound hp.sound
      have hin₁ := hx₁.inside hp.inside
      have hbase : Moves (BuildsState anything (root :: roots)) (Script.setBase b base) s₁ :=
        Script.setBase_builds hin₁ base
      refine .bind (rescoped_leaves hs₁ hbase (setBase_rescoped b base)) fun _ s₂ h₂ => ?_
      have hdeclare := ihl limit (Nat.lt_succ_self _) (library definition).script
        { b with depth := b.depth + 1 } s₂ (hp.next library (.extended h₁ h₂))
      exact .bind (Next.leaves (.extended h₁ h₂) hdeclare) fun _ s₃ _ => .pure _ s₃
  | use definition next ih =>
    rw [Script.run_use]
    refine .bind (moves_attempt ?_) fun answer s₁ h₁ =>
      Next.leaves (.use h₁) (ih answer b s₁ (hp.next library (.use h₁)))
    cases limit with
    | zero => exact fun _ _ h => by cases h
    | succ limit =>
      unfold Script.usage
      refine .bind (process_leaves (hreached limit rfl) hp.sound fun hnew hkey => .use hnew hkey)
        fun used s₁ h₁ => ?_
      obtain ⟨hbuilds₁, hready⟩ := hbuild.process hp.sound trivial h₁
      obtain ⟨hs₁, hx₁⟩ := hbuilds₁.sound hp.sound
      have hreference := addReference_referenced b.scope used s₁.1
      refine .bind (rescoped_leaves hs₁ (moves_changeEngine (.refer (hx₁.inside hp.inside)
        (hready used rfl) hreference)) (moves_changeEngine hreference)) fun _ s₂ _ =>
        moves_onEngine ?_
      rw [collectRefs_snd]
      exact refl_of (Leaves library _ root) s₂
  | group condition body next ihb ih =>
    rw [Script.run_group]
    refine .bind (moves_attempt ?_) fun answer s₁ h₁ =>
      Next.leaves (.group h₁) (ih answer b s₁ (hp.next library (.group h₁)))
    unfold Script.grouping
    refine .bind (nested_leaves hp.sound hp.inside) fun child s₁ h₁ => ?_
    have hp₁ : Placed root roots ⟨limit, body, ⟨child, 0⟩, s₁⟩ := hp.next library (.grouped h₁)
    obtain ⟨child', e₁, hnest, hbuilds, -⟩ :=
      addNested_builds (P := anything) hp.sound.linked hp.inside
    have h₁' := h₁
    rw [BuildM.onEngine_apply, hnest] at h₁'
    cases h₁'
    obtain ⟨hs₁, hx₁⟩ := (hbuilds roots).sound hp.sound
    refine .bind (Next.leaves (.grouped h₁) (ihb ⟨child, 0⟩ (e₁, s.2) hp₁)) fun _ s₂ h₂ => ?_
    obtain ⟨hs₂, hx₂⟩ := Builds.sound (Script.run_builds_anything hbuild body hp₁.sound hp₁.inside
      _ s₂ h₂) hs₁
    exact rescoped_leaves hs₂ (moves_onEngine (addUnnamedRule_builds
      (hx₂.inside (hx₁.inside hp.inside)) fun _ _ => trivial))
      (moves_onEngine (addUnnamedRule_declared _ _ _))
  | nameOf cell next ih => exact Next.leaves .nameOf (ih _ b s ⟨hp.sound, hp.inside⟩)
  | report event next ih =>
    have hbuilds : Moves (BuildsState anything (root :: roots)) (changeEngine (·.report event)) s :=
      moves_changeEngine (.aside rfl rfl rfl)
    have hreported : Rescoped (fun _ => Scope.Retouched) s.1 (s.1.report event) := .report event
    refine .bind (rescoped_leaves hp.sound hbuilds (moves_changeEngine hreported)) fun _ s₁ h₁ => ?_
    cases h₁
    exact Next.leaves .report (ih b _ (hp.next library .report))
  | look next ih => exact Next.leaves .look (ih _ b s ⟨hp.sound, hp.inside⟩)
  | remember change next ih =>
    intro r s' h
    have hrest := Next.leaves .remember (ih b (s.1, change s.2) ⟨hp.sound, hp.inside⟩) r s' h
    exact ⟨hrest.gains, hrest.leaves⟩

end Spot

/-- **A definition that fails leaves only what those definitions left that it reached,** and its
    scope is left as well if it does not. -/
theorem Attempt.outcome {library : Library μ} {a : Attempt μ} {roots : List ScopeId}
    {r : Except Error ScopeId} {s' : Engine × μ} (hs : Engine.Sound roots a.state.1)
    (hnew : a.definition.multiplex = false → a.state.1.scopeOf? a.definition.key = none)
    (h : a.run library = some (r, s')) :
    Engine.Gains (a.Yields library) (fun _ => False) a.state.1 s'.1 ∧
      ∀ err, r = .error err →
        Engine.Gains (a.start.Yields library) (fun _ => False) a.state.1 s'.1 :=
  Attempt.gains hs hnew (fun {r s₁} hscript =>
    (Spot.run_leaves library a.limit _ _ _ (Attempt.placed hs) r s₁ hscript).gains) h

end StyleBook
