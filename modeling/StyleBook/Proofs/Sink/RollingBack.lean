import StyleBook.Proofs.Engine.Activation

namespace StyleBook

/-!
# Undoing activations

Deactivating a scope undoes its activation: all scopes have the users they had, and the sink is
what it was. So a failed activation, which deactivates what it has activated, leaves nothing
behind.

* `Sink.Lawful holds` — removing a scope's texts undoes their insertion;
* `Engine.Undoes` — a computation leads from one state back to another one, also if other scopes
  came and went in between;
* `Engine.Stack` — scopes that were activated one after the other, latest first;
* `Engine.activateWithin_restores` — a failed activation restores users and sink, and a
  successful one can be undone.
-/

/-- What makes a sink forget a scope: to remove its texts when it had none before they came. -/
structure Sink.Lawful {σ : Type} [Sink σ] (holds : σ → ScopeId → Prop) : Prop where
  remove_insertAll {sink id texts} : ¬ holds sink id →
    Sink.remove id (Sink.insertAll id texts sink) = sink
  holds_insertAll {sink id texts k} : holds (Sink.insertAll id texts sink) k →
    k = id ∨ holds sink k

/-- A sink of which nothing is known follows the laws in that nothing is asked of it. -/
theorem Sink.lawful_true {σ : Type} [Sink σ] : Sink.Lawful fun (_ : σ) (_ : ScopeId) => True :=
  ⟨fun h => absurd trivial h, fun _ => .inr trivial⟩

namespace Engine

/-- How many users a scope has. -/
def usersOf (k : ScopeId) (e : Engine) : Nat := ((e.scope? k).map (·.users)).getD 0

variable {e e' : Engine} {id k : ScopeId} {s : Scope}

/-- The users of a scope that is there. -/
theorem usersOf_eq (h : e.scope? k = some s) : e.usersOf k = s.users := by
  unfold usersOf
  rw [h]
  rfl

/-- A scope with users is there. -/
theorem scope?_of_usersOf (h : e.usersOf k ≠ 0) :
    ∃ s, e.scope? k = some s ∧ s.users = e.usersOf k := by
  cases hs : e.scope? k with
  | none =>
    unfold usersOf at h
    rw [hs] at h
    exact absurd rfl h
  | some s => exact ⟨s, rfl, (usersOf_eq hs).symm⟩

/-- Users are kept with the scopes. -/
theorem usersOf_of_scopes (h : e'.scopes = e.scopes) : e'.usersOf k = e.usersOf k := by
  unfold usersOf scope?
  rw [h]

/-- The users after a change of one scope. -/
theorem usersOf_modifyScope {f : Scope → Scope} (hs : e.scope? id = some s) :
    (e.modifyScope id f).usersOf k = if k = id then (f s).users else e.usersOf k := by
  by_cases hk : k = id
  · subst hk
    rw [if_pos rfl, usersOf_eq (scope?_modifyScope_self f hs)]
  · rw [if_neg hk]
    unfold usersOf
    rw [scope?_modifyScope_of_ne f hk]

/-- A scope that may not change keeps its users. -/
theorem Rescoped.usersOf_of_not {P : ScopeId → Prop}
    (h : Rescoped (fun k => Scope.Reused (P k)) e e') (hk : ¬ P k) :
    e'.usersOf k = e.usersOf k := by
  cases hs : e.scope? k with
  | none =>
    have hs' : e'.scope? k = none := by
      rw [scope?_eq_none_iff] at hs ⊢
      rwa [h.keys]
    unfold usersOf
    rw [hs, hs']
  | some s =>
    obtain ⟨s', hs', hR⟩ := h.scope hs
    rw [usersOf_eq hs, usersOf_eq hs', hR.eq_of_not hk]

variable {σ : Type} [Sink σ] {holds : σ → ScopeId → Prop} {rank : ScopeId → Nat}
  {s₀ s₁ s₂ : Engine × σ} {done : List ScopeId}

/-! ### Leading back -/

/-- The sink holds nothing of scopes without users. -/
def Clean (holds : σ → ScopeId → Prop) (s : Engine × σ) : Prop :=
  ∀ k t, s.1.scope? k = some t → t.users = 0 → ¬ holds s.2 k

/-- All scopes have the users they had; so does the sink have what it had, if it was clean. -/
structure Restored (holds : σ → ScopeId → Prop) (s s' : Engine × σ) : Prop where
  users (k : ScopeId) : s'.1.usersOf k = s.1.usersOf k
  sink : Clean holds s → s'.2 = s.2

/-- The second of two states came from the first one, and the computation leads back from there,
    and from all states behind it that have its users and its sink. -/
structure Undoes (holds : σ → ScopeId → Prop) (c : ActiveM σ Unit) (s₀ s₁ : Engine × σ) :
    Prop where
  moved : Reuses (fun _ => True) s₀ s₁
  clean : Clean holds s₀ → Clean holds s₁
  undo {s₂ : Engine × σ} : Reuses (fun _ => True) s₁ s₂ → (∀ k, s₂.1.usersOf k = s₁.1.usersOf k) →
    ∃ s₃, c s₂ = (.ok (), s₃) ∧ (∀ k, s₃.1.usersOf k = s₀.1.usersOf k) ∧
      (Clean holds s₀ → s₂.2 = s₁.2 → s₃.2 = s₀.2)

/-- The activation of a scope led from the first state to the second one, and deactivating it
    leads back. -/
def Undoable (rank : ScopeId → Nat) (holds : σ → ScopeId → Prop) (id : ScopeId)
    (s₀ s₁ : Engine × σ) : Prop :=
  ∀ limit, s₁.1.below rank id < limit → Undoes holds (deactivateWithin limit id) s₀ s₁

/-- Activations led from the first state to the second one, the latest of them first. -/
inductive Stack (rank : ScopeId → Nat) (holds : σ → ScopeId → Prop) :
    List ScopeId → Engine × σ → Engine × σ → Prop
  /-- Nothing was activated. -/
  | nil {s : Engine × σ} : Stack rank holds [] s s
  /-- One more scope was activated. -/
  | cons {id : ScopeId} {done : List ScopeId} {s₀ s₁ s₂ : Engine × σ}
    (rest : Stack rank holds done s₀ s₁) (last : Undoable rank holds id s₁ s₂) :
    Stack rank holds (id :: done) s₀ s₂

namespace Stack

/-- What a stack of activations changes are users and states. -/
theorem moved (h : Stack rank holds done s₀ s₁) : Reuses (fun _ => True) s₀ s₁ := by
  induction h with
  | nil => exact refl_of (Reuses _) _
  | cons _ last ih => exact trans_of (Reuses _) ih (last _ (Nat.lt_succ_self _)).moved

/-- Active scopes stay those that the sink holds. -/
theorem clean (h : Stack rank holds done s₀ s₁) (hc : Clean holds s₀) : Clean holds s₁ := by
  induction h with
  | nil => exact hc
  | cons _ last ih => exact (last _ (Nat.lt_succ_self _)).clean (ih hc)

/-- Whatever releases the scopes one by one, each of them with a limit that suffices, leads
    back. -/
theorem run (run : List ScopeId → ActiveM σ Unit) (release : ScopeId → ActiveM σ Unit)
    (hnil : ∀ s, run [] s = (.ok (), s))
    (hcons : ∀ r rest s s', release r s = (.ok (), s') → run (r :: rest) s = run rest s')
    (h : Stack rank holds done s₀ s₁) (hranked : Ranked rank s₀.1)
    (hrelease : ∀ r ∈ done, ∀ s : Engine × σ, s.1.scopes.keys = s₀.1.scopes.keys →
      ∃ limit, s.1.below rank r < limit ∧ release r s = deactivateWithin limit r s)
    (hm : Reuses (fun _ => True) s₁ s₂) (hu : ∀ k, s₂.1.usersOf k = s₁.1.usersOf k) :
    ∃ s₃, run done s₂ = (.ok (), s₃) ∧ Reuses (fun _ => True) s₂ s₃ ∧
      (∀ k, s₃.1.usersOf k = s₀.1.usersOf k) ∧
      (Clean holds s₀ → s₂.2 = s₁.2 → s₃.2 = s₀.2) := by
  induction h generalizing s₂ with
  | nil => exact ⟨s₂, hnil s₂, refl_of (Reuses _) s₂, hu, fun _ hsink => hsink⟩
  | @cons id done s₀ s s₁ rest last ih =>
    have hmoved : Reuses (fun _ => True) s₀ s₂ :=
      trans_of (Reuses _) (Stack.cons rest last).moved hm
    obtain ⟨limit, hlimit, hrun⟩ := hrelease id (by simp) s₂ hmoved.keys
    rw [hm.below] at hlimit
    obtain ⟨s₃, h₃, hu₃, hsink₃⟩ := (last limit hlimit).undo hm hu
    have hm₃ : Reuses (fun _ => True) s₂ s₃ := by
      have hR := deactivateWithin_reused limit id s₂ (hranked.rescoped hmoved)
      unfold Steps at hR
      rw [h₃] at hR
      exact hR.mono fun _ _ _ _ hk => hk.mono fun _ => trivial
    -- The state is behind the one in which the scope was activated, with the users of that one.
    have hback : Reuses (fun _ => True) s s₃ :=
      trans_of (Reuses _) (last limit hlimit).moved (trans_of (Reuses _) hm hm₃)
    obtain ⟨s₄, h₄, hm₄, hu₄, hsink₄⟩ := ih hranked
      (fun r hr => hrelease r (List.mem_cons_of_mem _ hr)) hback hu₃
    refine ⟨s₄, ?_, trans_of (Reuses _) hm₃ hm₄, hu₄, fun hc hsink => ?_⟩
    · rw [hcons id done s₂ s₃ (hrun.trans h₃)]
      exact h₄
    · exact hsink₄ hc (hsink₃ (rest.clean hc) hsink)

/-- Releasing all scopes leads back. -/
theorem deactivateEach (limit : Nat) (h : Stack rank holds done s₀ s₁) (hranked : Ranked rank s₀.1)
    (hlimit : ∀ r ∈ done, s₀.1.below rank r < limit)
    (hm : Reuses (fun _ => True) s₁ s₂) (hu : ∀ k, s₂.1.usersOf k = s₁.1.usersOf k) :
    ∃ s₃, Engine.deactivateEach (deactivateWithin limit) done s₂ = (.ok (), s₃) ∧
      (∀ k, s₃.1.usersOf k = s₀.1.usersOf k) ∧
      (Clean holds s₀ → s₂.2 = s₁.2 → s₃.2 = s₀.2) := by
  obtain ⟨s₃, h₃, -, hu₃, hsink₃⟩ := h.run (Engine.deactivateEach (deactivateWithin limit))
    (deactivateWithin limit) (fun _ => rfl)
    (fun r rest s s' hr => by rw [deactivateEach_cons, stateful_bind_ok hr]) hranked
    (fun r hr s hkeys => ⟨limit, by unfold Engine.below; rw [hkeys]; exact hlimit r hr, rfl⟩) hm hu
  exact ⟨s₃, h₃, hu₃, hsink₃⟩

/-- Rolling back leads back. -/
theorem rollBack (h : Stack rank holds done s₀ s₁) (hranked : Ranked rank s₀.1)
    (hr : Restored holds s₁ s₂) (hm : Reuses (fun _ => True) s₁ s₂) :
    Restored holds s₀ (Engine.rollBack done s₂).2 := by
  obtain ⟨s₃, h₃, -, hu₃, hsink₃⟩ := h.run Engine.rollBack deactivate (fun _ => rfl)
    (fun r rest s s' hr => by rw [rollBack_cons, hr]) hranked
    (fun r _ s _ => ⟨s.1.walkLimit, below_lt_walkLimit s.1 r, rfl⟩) hm hr.users
  rw [h₃]
  exact ⟨hu₃, fun hc => hsink₃ hc (hr.sink (h.clean hc))⟩

end Stack

/-! ### Activations -/

/-- Activating references in order leads to a state from which it can be undone; after a failure
    everything is restored. -/
theorem activateEach_restores {activate : ScopeId → ActiveM σ Unit} (list : List ScopeId)
    (s₁ s₂ : Engine × σ) (hactivate : ∀ r ∈ list, ∀ s s', Ranked rank s.1 →
      (∀ err, activate r s = (.error err, s') →
        Reuses (fun _ => True) s s' ∧ Restored holds s s') ∧
      (activate r s = (.ok (), s') → Undoable rank holds r s s'))
    (hranked : Ranked rank s₀.1) (h : Stack rank holds done s₀ s₁) :
    (∀ err, activateEach activate done list s₁ = (.error err, s₂) → Restored holds s₀ s₂) ∧
      (activateEach activate done list s₁ = (.ok (), s₂) →
        Stack rank holds (list.reverse ++ done) s₀ s₂) := by
  induction list generalizing done s₁ with
  | nil =>
    refine ⟨fun err h' => ?_, fun h' => ?_⟩
    · cases h'
    · cases h'
      -- The list of references that are done grows in front, which is the order in which they are
      -- released again.
      exact h
  | cons r rest ih =>
    rw [activateEach_cons]
    have hr := hactivate r (by simp) s₁
    rcases ha : activate r s₁ with ⟨err | ⟨⟩, s⟩
    -- This reference changed nothing, and those before it are rolled back.
    · obtain ⟨hm, hrestored⟩ := (hr s (hranked.rescoped h.moved)).1 err ha
      refine ⟨fun err' h' => ?_, fun h' => ?_⟩
      · cases h'
        exact h.rollBack hranked hrestored hm
      · cases h'
    · have hundo := (hr s (hranked.rescoped h.moved)).2 ha
      have hrest := ih s (fun a ha => hactivate a (List.mem_cons_of_mem _ ha)) (.cons h hundo)
      rw [List.reverse_cons, List.append_assoc]
      exact hrest

/-- Deactivating a scope undoes one more user of it. -/
theorem undoable_shared {e : Engine} {sink : σ} {users : Nat} (hs : e.scope? id = some s)
    (hu : s.users = users + 1) (event : Event) :
    Undoable rank holds id (e, sink) ((e.setUsers id (users + 2)).report event, sink) := by
  intro limit hlimit
  -- One user more than before, which the release takes away again.
  have husers : ∀ k, ((e.setUsers id (users + 2)).report event).usersOf k =
      if k = id then users + 2 else e.usersOf k := fun k => usersOf_modifyScope hs
  refine ⟨(Rescoped.modifyScope fun t ht => ?_).trans (.report _), fun hc k t ht hzero => ?_,
    fun {s₂} hm hu₂ => ?_⟩
  · rw [hs] at ht
    cases ht
    exact .setUsers trivial (by omega)
  · have hzero' := (usersOf_eq ht).trans hzero
    rw [husers] at hzero'
    split at hzero'
    · omega
    · have ht' : e.scope? k = some t := (scope?_modifyScope_of_ne _ ‹_›).symm.trans ht
      exact hc k t ht' hzero
  · have hid := hu₂ id
    rw [husers, if_pos rfl] at hid
    obtain ⟨t, ht, hut⟩ := scope?_of_usersOf (by rw [hid]; omega)
    obtain ⟨limit, rfl⟩ := Nat.exists_eq_add_one_of_ne_zero (Nat.ne_zero_of_lt hlimit)
    obtain ⟨e₂, sink₂⟩ := s₂
    -- The release finds the scope with another user, so it counts down and touches no reference.
    refine ⟨_, deactivateWithin_shared ht (hut.trans hid), fun k => ?_, fun _ hsink => hsink⟩
    show (e₂.setUsers id (users + 1)).usersOf k = e.usersOf k
    refine (usersOf_modifyScope ht).trans ?_
    split
    · rw [‹k = id›, usersOf_eq hs, hu]
    · rw [hu₂, husers, if_neg ‹_›]

/-- Deactivating a scope undoes the insertion of its texts and the activation of its
    references. -/
theorem undoable_first (hlaw : Sink.Lawful holds) (hranked : Ranked rank s₀.1)
    (hs : s₀.1.scope? id = some s) (h : Stack rank holds s.references.reverse s₀ s₁)
    (hid : s₁.1.usersOf id = 0) (texts : List String) :
    Undoable rank holds id s₀ (s₁.1.markInserted id s, Sink.insertAll id texts s₁.2) := by
  intro limit hlimit
  obtain ⟨t, ht, hR⟩ := h.moved.scope hs
  have hzero : t.users = 0 := (usersOf_eq ht).symm.trans hid
  have husers : ∀ k, (s₁.1.markInserted id s).usersOf k =
      if k = id then 1 else s₁.1.usersOf k := fun k => usersOf_modifyScope ht
  have hinserted : Reuses (fun _ => True) s₁
      (s₁.1.markInserted id s, Sink.insertAll id texts s₁.2) :=
    (Rescoped.modifyScope fun t _ => .insert trivial Nat.one_pos).trans (.report _)
  refine ⟨trans_of (Reuses _) h.moved hinserted, fun hc k u hu' hzero' hholds => ?_,
    fun {s₂} hm hu₂ => ?_⟩
  · have hne : k ≠ id := by
      rintro rfl
      have := (usersOf_eq hu').symm.trans (husers k)
      rw [if_pos rfl, hzero'] at this
      cases this
    have hu'' : s₁.1.scope? k = some u := (scope?_modifyScope_of_ne _ hne).symm.trans hu'
    exact h.clean hc k u hu'' hzero' ((hlaw.holds_insertAll hholds).resolve_left hne)
  · have hid₂ := hu₂ id
    rw [husers, if_pos rfl] at hid₂
    obtain ⟨t₂, ht₂, hut₂⟩ := scope?_of_usersOf (by rw [hid₂]; omega)
    obtain ⟨limit, rfl⟩ := Nat.exists_eq_add_one_of_ne_zero (Nat.ne_zero_of_lt hlimit)
    have hmoved : Reuses (fun _ => True) s₀ s₂ :=
      trans_of (Reuses _) (trans_of (Reuses _) h.moved hinserted) hm
    obtain ⟨t₂', ht₂', hR₂⟩ := hmoved.scope hs
    rw [ht₂] at ht₂'
    cases ht₂'
    have hcleared : Reuses (fun _ => True) s₂ (s₂.1.clear id t₂, Sink.remove id s₂.2) :=
      (Rescoped.modifyScope fun _ _ => .clear trivial).trans (.report _)
    -- Without the scope's own user, the references are as they were when the last was activated.
    have hback : ∀ k, (s₂.1.clear id t₂).usersOf k = s₁.1.usersOf k := by
      intro k
      refine (usersOf_modifyScope ht₂).trans ?_
      split
      · rw [‹k = id›, hid]
      · rw [hu₂, husers, if_neg ‹_›]
    have hbelow : (s₁.1.markInserted id s).below rank id = s₀.1.below rank id :=
      (trans_of (Reuses _) h.moved hinserted).below rank id
    obtain ⟨s₃, h₃, hu₃, hsink₃⟩ := h.deactivateEach limit hranked (fun r hr => by
        have := below_lt hranked hs (List.mem_reverse.mp hr)
        rw [hbelow] at hlimit
        omega)
      (trans_of (Reuses _) hinserted (trans_of (Reuses _) hm hcleared)) hback
    refine ⟨s₃, ?_, hu₃, fun hc hsink => hsink₃ hc ?_⟩
    · rw [← hR₂.references] at h₃
      exact (deactivateWithin_last ht₂ (hut₂.trans hid₂)).trans h₃
    · show Sink.remove id s₂.2 = s₁.2
      rw [hsink]
      exact hlaw.remove_insertAll (h.clean hc id t ht hzero)

/-- A reference that fails ends the activation, and nothing is inserted. -/
theorem inserting_error {limit : Nat} (id : ScopeId) (texts : List String) {err : Error}
    (h : activateEach (activateWithin limit) [] s.references s₀ = (.error err, s₁)) :
    inserting limit id s texts s₀ = (.error err, s₁) := by
  unfold inserting
  rw [stateful_bind_error h]

/-- References that are activated are followed by the texts of the scope. -/
theorem inserting_ok {limit : Nat} (texts : List String) {t : Scope}
    (h : activateEach (activateWithin limit) [] s.references s₀ = (.ok (), s₁))
    (ht : s₁.1.scope? id = some t) :
    inserting limit id s texts s₀ =
      (.ok (), (s₁.1.markInserted id s, Sink.insertAll id texts s₁.2)) := by
  unfold inserting
  rw [stateful_bind_ok h, stateful_bind]
  show ((onEngine (requireScope id) >>= _) (s₁.1, Sink.insertAll id texts s₁.2)) = _
  rw [stateful_bind, onEngine_apply, requireScope_some ht]
  rfl

/-- **A failed activation restores users and sink, and a successful one can be undone.** -/
theorem activateWithin_restores (hlaw : Sink.Lawful holds) (limit : Nat) (id : ScopeId)
    (s s' : Engine × σ) (hranked : Ranked rank s.1) :
    (∀ err, activateWithin limit id s = (.error err, s') → Restored holds s s') ∧
      (activateWithin limit id s = (.ok (), s') → Undoable rank holds id s s') := by
  induction limit generalizing id s s' with
  | zero =>
    refine ⟨fun err h => ?_, fun h => ?_⟩
    · cases h
      exact ⟨fun _ => rfl, fun _ => rfl⟩
    · cases h
  | succ limit ih =>
    obtain ⟨e, sink⟩ := s
    cases hs : e.scope? id with
    | none =>
      rw [activateWithin_unknown hs]
      refine ⟨fun err h => ?_, fun h => ?_⟩
      · cases h
        exact ⟨fun _ => rfl, fun _ => rfl⟩
      · cases h
    | some t =>
      match hu : t.users with
      | users + 1 =>
        rw [activateWithin_shared hs hu]
        refine ⟨fun err h => ?_, fun h => ?_⟩
        · cases h
        · cases h
          exact undoable_shared hs hu _
      | 0 =>
        rw [activateWithin_first hs hu]
        rcases e.serialize id e.ambient with ⟨err | texts, ambient⟩
        · refine ⟨fun err h => ?_, fun h => ?_⟩
          · cases h
            exact ⟨fun _ => rfl, fun _ => rfl⟩
          · cases h
        · -- The texts are known; the state differs from the first one in no scope.
          have hambient : Reuses (fun _ => True) (e, sink) ({ e with ambient }, sink) :=
            .of_scopes_eq rfl rfl rfl
          have hranked' : Ranked rank { e with ambient } := hranked.rescoped hambient
          have hreuses : ∀ r (s : Engine × σ), Ranked rank s.1 →
              Reuses (fun k => k = r ∨ rank k < rank r) s (activateWithin limit r s).2 :=
            fun r s h => activateWithin_reused limit r s h
          have hactivate : ∀ r ∈ t.references, ∀ s s', Ranked rank s.1 →
              (∀ err, activateWithin limit r s = (.error err, s') →
                Reuses (fun _ => True) s s' ∧ Restored holds s s') ∧
              (activateWithin limit r s = (.ok (), s') → Undoable rank holds r s s') := by
            refine fun r _ s s' h => ⟨fun err ha => ⟨?_, (ih r s s' h).1 err ha⟩, (ih r s s' h).2⟩
            have hR := hreuses r s h
            rw [ha] at hR
            exact hR.mono fun _ _ _ _ hk => hk.mono fun _ => trivial
          rcases ha : activateEach (activateWithin limit) [] t.references ({ e with ambient }, sink)
            with ⟨err | ⟨⟩, s₁⟩
          · have hfailed :=
              (activateEach_restores t.references _ s₁ hactivate hranked' .nil).1 err ha
            have hrun := inserting_error id texts ha
            refine ⟨fun err h => ?_, fun h => ?_⟩
            · cases hrun.symm.trans h
              exact ⟨hfailed.users, hfailed.sink⟩
            · cases hrun.symm.trans h
          · have hstack := (activateEach_restores t.references _ s₁ hactivate hranked' .nil).2 ha
            rw [List.append_nil] at hstack
            -- The references rank below the scope, so it has no users yet.
            have hid : s₁.1.usersOf id = 0 := by
              have hR := activateEach_reused (P := fun k => rank k < rank id) t.references []
                ({ e with ambient }, sink) hranked'
                (fun r hr s h => (hreuses r s h).mono fun k _ _ _ hk => hk.mono fun hk =>
                  hranked.lt_of_reference hs hr hk)
                fun r hr k hk => hranked.lt_of_reference hs (by simpa using hr) hk
              unfold Steps at hR
              rw [ha] at hR
              rw [Rescoped.usersOf_of_not hR (lt_irrefl _)]
              exact (usersOf_eq hs).trans hu
            obtain ⟨u, hu', -⟩ := hstack.moved.scope hs
            have hrun := inserting_ok texts ha hu'
            refine ⟨fun err h => ?_, fun h => ?_⟩
            · cases hrun.symm.trans h
            · cases hrun.symm.trans h
              intro l hl
              have hundo := undoable_first hlaw hranked' hs hstack hid texts l hl
              exact ⟨trans_of (Reuses _) hambient hundo.moved, hundo.clean, hundo.undo⟩

/-- **A failed activation leaves nothing behind:** all scopes have the users they had, and a clean
    sink is what it was. -/
theorem activate_restores (hlaw : Sink.Lawful holds) {e : Engine} {sink : σ} (h : Linked e)
    {err : Error} {s' : Engine × σ} (ha : activate id (e, sink) = (.error err, s')) :
    Restored holds (e, sink) s' := by
  obtain ⟨rank, hrank⟩ := h.exists_ranked
  exact (activateWithin_restores hlaw e.walkLimit id (e, sink) s' hrank).1 err ha

end Engine

end StyleBook
