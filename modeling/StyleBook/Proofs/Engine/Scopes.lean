import StyleBook.Proofs.Engine.Computation

namespace StyleBook

/-!
# The scopes of an engine

What changes of an engine do to the look-up of its scopes.

* `Engine.scope?_modifyScope`, `Engine.scope?_addScope`, … — one equation for each change;
* `Engine.Rescoped R` — an engine has the scopes it had, each of them changed as `R` allows;
* `Engine.Carries T` — an engine still has each of these scopes, changed as `T` allows;
* `Engine.Inside` — a scope stands inside another one: it is nested in it, at any depth.
-/

namespace Engine

variable {e e' e'' : Engine} {id k o : ScopeId} {s t : Scope}

/-! ### Look-ups after a change -/

/-- A number is in use if there is a scope under it. -/
theorem mem_keys_iff : k ∈ e.scopes.keys ↔ ∃ s, e.scope? k = some s := by
  rw [← Dict.isSome_get?_iff, Option.isSome_iff_exists]
  rfl

theorem scope?_eq_none_iff : e.scope? k = none ↔ k ∉ e.scopes.keys := Dict.get?_eq_none_iff

theorem mem_keys_of_scope? (h : e.scope? k = some s) : k ∈ e.scopes.keys :=
  Dict.mem_keys_of_get? h

/-- What a changed scope and all others are after the change. -/
theorem scope?_modifyScope (f : Scope → Scope) :
    (e.modifyScope id f).scope? k = if k = id then (e.scope? id).map f else e.scope? k := by
  unfold modifyScope
  cases h : e.scope? id with
  | none =>
    by_cases hk : k = id
    · simp [hk, h]
    · simp [hk]
  | some s => exact Dict.get?_insert _ _ _ _

theorem scope?_modifyScope_self (f : Scope → Scope) (h : e.scope? id = some s) :
    (e.modifyScope id f).scope? id = some (f s) := by
  rw [scope?_modifyScope, if_pos rfl, h, Option.map_some]

theorem scope?_modifyScope_of_ne (f : Scope → Scope) (h : k ≠ id) :
    (e.modifyScope id f).scope? k = e.scope? k := by
  rw [scope?_modifyScope, if_neg h]

/-- A change of a scope adds and removes none. -/
@[simp] theorem keys_modifyScope (f : Scope → Scope) :
    (e.modifyScope id f).scopes.keys = e.scopes.keys := by
  unfold modifyScope
  cases h : e.scope? id with
  | none => rfl
  | some s => exact (Dict.keys_insert _ _ _).trans (if_pos (mem_keys_of_scope? h))

@[simp] theorem singletons_modifyScope (f : Scope → Scope) :
    (e.modifyScope id f).singletons = e.singletons := by
  unfold modifyScope
  cases e.scope? id <;> rfl

@[simp] theorem nextScope_modifyScope (f : Scope → Scope) :
    (e.modifyScope id f).nextScope = e.nextScope := by
  unfold modifyScope
  cases e.scope? id <;> rfl

@[simp] theorem scope?_report (event : Event) : (e.report event).scope? k = e.scope? k := rfl

@[simp] theorem scopes_reportAll (events : List Event) :
    (e.reportAll events).scopes = e.scopes := by
  induction events generalizing e with
  | nil => rfl
  | cons event rest ih => exact ih

@[simp] theorem singletons_reportAll (events : List Event) :
    (e.reportAll events).singletons = e.singletons := by
  induction events generalizing e with
  | nil => rfl
  | cons event rest ih => exact ih

@[simp] theorem nextScope_reportAll (events : List Event) :
    (e.reportAll events).nextScope = e.nextScope := by
  induction events generalizing e with
  | nil => rfl
  | cons event rest ih => exact ih

/-- What a new scope and all others are after it was added. -/
theorem scope?_addScope : (addScope s e).2.scope? k =
    if k = e.nextScope then some s else e.scope? k := Dict.get?_insert _ _ _ _

/-! ### The same scopes, changed one by one -/

/-- The second engine has the scopes of the first one, each of them changed as `R` allows. -/
structure Rescoped (R : ScopeId → Scope → Scope → Prop) (e e' : Engine) : Prop where
  /-- The scopes have their keys, in order. -/
  keys : e'.scopes.keys = e.scopes.keys
  /-- Each scope is changed along `R`. -/
  scope : ∀ {k s}, e.scope? k = some s → ∃ s', e'.scope? k = some s' ∧ R k s s'
  /-- Definitions keep their scopes. -/
  singletons : e'.singletons = e.singletons
  /-- No id is handed out. -/
  nextScope : e'.nextScope = e.nextScope

namespace Rescoped

variable {R Q : ScopeId → Scope → Scope → Prop}

/-- A weaker relation of scopes. -/
theorem mono (h : Rescoped R e e') (hRQ : ∀ k s s', e.scope? k = some s → R k s s' → Q k s s') :
    Rescoped Q e e' where
  keys := h.keys
  scope hs := (h.scope hs).imp fun _ hs' => ⟨hs'.1, hRQ _ _ _ hs hs'.2⟩
  singletons := h.singletons
  nextScope := h.nextScope

/-- Nothing happened to scopes. -/
theorem of_scopes_eq [hR : ∀ k, IsPreorder Scope (R k)] (hs : e'.scopes = e.scopes)
    (hd : e'.singletons = e.singletons) (hn : e'.nextScope = e.nextScope) : Rescoped R e e' where
  keys := by rw [hs]
  scope h := ⟨_, by unfold scope? at h ⊢; rwa [hs], refl_of (R _) _⟩
  singletons := hd
  nextScope := hn

theorem refl [∀ k, IsPreorder Scope (R k)] (e : Engine) : Rescoped R e e :=
  of_scopes_eq rfl rfl rfl

theorem trans [∀ k, IsPreorder Scope (R k)] (h : Rescoped R e e') (h' : Rescoped R e' e'') :
    Rescoped R e e'' where
  keys := h'.keys.trans h.keys
  scope hs := by
    obtain ⟨s', hs', hR⟩ := h.scope hs
    obtain ⟨s'', hs'', hR'⟩ := h'.scope hs'
    exact ⟨s'', hs'', trans_of (R _) hR hR'⟩
  singletons := h'.singletons.trans h.singletons
  nextScope := h'.nextScope.trans h.nextScope

instance [∀ k, IsPreorder Scope (R k)] : IsPreorder Engine (Rescoped R) where
  refl := refl
  trans _ _ _ := trans

/-- A scope of the second engine was a scope of the first one. -/
theorem back (h : Rescoped R e e') {s' : Scope} (hs' : e'.scope? k = some s') :
    ∃ s, e.scope? k = some s ∧ R k s s' := by
  have hk : k ∈ e.scopes.keys := h.keys ▸ mem_keys_of_scope? hs'
  obtain ⟨s, hs⟩ := mem_keys_iff.mp hk
  obtain ⟨s'', hs'', hR⟩ := h.scope hs
  rw [hs'] at hs''
  cases hs''
  exact ⟨s, hs, hR⟩

/-- A change of one scope. -/
theorem modifyScope [∀ k, IsPreorder Scope (R k)] {f : Scope → Scope}
    (h : ∀ s, e.scope? id = some s → R id s (f s)) : Rescoped R e (e.modifyScope id f) where
  keys := keys_modifyScope f
  scope {k s} hs := by
    by_cases hk : k = id
    · subst hk
      exact ⟨f s, scope?_modifyScope_self f hs, h s hs⟩
    · exact ⟨s, (scope?_modifyScope_of_ne f hk).trans hs, refl_of (R k) s⟩
  singletons := singletons_modifyScope f
  nextScope := nextScope_modifyScope f

theorem report [∀ k, IsPreorder Scope (R k)] (event : Event) : Rescoped R e (e.report event) :=
  of_scopes_eq rfl rfl rfl

end Rescoped

/-! ### Scopes that stay -/

/-- Each scope is still there, changed as `T` allows. There may be new ones. -/
def Carries (T : ScopeId → Scope → Scope → Prop) (e e' : Engine) : Prop :=
  ∀ k s, e.scope? k = some s → ∃ s', e'.scope? k = some s' ∧ T k s s'

namespace Carries

variable {T : ScopeId → Scope → Scope → Prop}

/-- Scopes are changed along another relation. -/
theorem rescoped {R : ScopeId → Scope → Scope → Prop} (h : Rescoped R e e')
    (hR : ∀ k s s', R k s s' → T k s s') : Carries T e e' := fun k s hs =>
  (h.scope hs).imp fun s' hs' => ⟨hs'.1, hR k s s' hs'.2⟩

theorem refl [∀ k, IsPreorder Scope (T k)] (e : Engine) : Carries T e e :=
  fun k s hs => ⟨s, hs, refl_of (T k) s⟩

theorem trans [∀ k, IsPreorder Scope (T k)] (h : Carries T e e') (h' : Carries T e' e'') :
    Carries T e e'' := fun k s hs => by
  obtain ⟨s', hs', hT⟩ := h k s hs
  obtain ⟨s'', hs'', hT'⟩ := h' k s' hs'
  exact ⟨s'', hs'', trans_of (T k) hT hT'⟩

end Carries

/-! ### Nesting -/

/-- A scope is `root`, or nested in it at any depth. -/
inductive Inside (e : Engine) (root : ScopeId) : ScopeId → Prop
  /-- The scope itself. -/
  | root {s : Scope} (h : e.scope? root = some s) : Inside e root root
  /-- A scope nested in one that is inside. -/
  | nested {k o : ScopeId} {s : Scope} (h : e.scope? k = some s) (owner : s.owner = some o)
      (inner : Inside e root o) : Inside e root k

namespace Inside

variable {root : ScopeId}

/-- What is inside of a scope is there. -/
theorem live (h : Inside e root k) : ∃ s, e.scope? k = some s := by
  cases h with
  | root h => exact ⟨_, h⟩
  | nested h _ _ => exact ⟨_, h⟩

/-- What something is inside of is there. -/
theorem root_live (h : Inside e root k) : ∃ s, e.scope? root = some s := by
  induction h with
  | root h => exact ⟨_, h⟩
  | nested _ _ _ ih => exact ih

theorem trans {a b c : ScopeId} (hab : Inside e a b) (hbc : Inside e b c) : Inside e a c := by
  induction hbc with
  | root _ => exact hab
  | nested h owner _ ih => exact .nested h owner ih

/-- What owns scopes alike nests them alike. -/
theorem of_owner (h : Inside e root k)
    (hown : ∀ {k s}, e.scope? k = some s → ∃ s', e'.scope? k = some s' ∧ s'.owner = s.owner) :
    Inside e' root k := by
  induction h with
  | root h =>
    obtain ⟨s', hs', -⟩ := hown h
    exact .root hs'
  | nested h owner _ ih =>
    obtain ⟨s', hs', ho⟩ := hown h
    exact .nested hs' (ho.trans owner) ih

/-- Of two scopes that one scope is inside of, one is inside the other. -/
theorem linear {a b : ScopeId} (ha : Inside e a k) (hb : Inside e b k) :
    Inside e a b ∨ Inside e b a := by
  induction ha with
  | root h => exact .inr hb
  | nested h owner inner ih =>
    cases hb with
    | root h' => exact .inl (.nested h owner inner)
    | nested h' owner' inner' =>
      rw [h] at h'
      cases h'
      rw [owner] at owner'
      cases owner'
      exact ih inner'

/-- A scope inside another one is that one, or its owner is inside. -/
theorem owner_inside (h : Inside e root k) (hs : e.scope? k = some s) (hne : k ≠ root) :
    ∃ o, s.owner = some o ∧ Inside e root o := by
  cases h with
  | root _ => exact absurd rfl hne
  | nested h owner inner =>
    rw [hs] at h
    cases h
    exact ⟨_, owner, inner⟩

end Inside

end Engine

end StyleBook
