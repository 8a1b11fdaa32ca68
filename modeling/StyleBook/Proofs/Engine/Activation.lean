import StyleBook.Proofs.Engine.Naming

namespace StyleBook

/-!
# What activation changes

Activating and deactivating scopes changes how many users scopes have, and what goes with it.

* `Scope.Reused P` — nothing of a scope is changed but its users and its state, and these only
  under `P`;
* `Engine.activateWithin_reused`, `Engine.deactivateWithin_reused` — users are changed only of
  scopes that do not rank above the one that is activated;
* `Engine.Ranked rank` — references lead to scopes of lower rank;
  `Engine.below` bounds how deep they lead.
-/

/-- Nothing of the scope is changed but its users and its state, and these only under `P`. -/
structure Scope.Reused (P : Prop) (s s' : Scope) : Prop where
  eq_users : s' = { s with users := s'.users, state := s'.state }
  state : s'.state = s.state ∨ s'.state = .inserted ∨ s'.state = .cleared
  inserted : (s.state = .inserted ↔ 0 < s.users) → (s'.state = .inserted ↔ 0 < s'.users)
  eq_of_not : ¬ P → s' = s

namespace Scope.Reused

variable {P Q : Prop} {s s' : Scope}

instance : IsPreorder Scope (Reused P) where
  refl _ := ⟨rfl, .inl rfl, id, fun _ => rfl⟩
  trans s s' s'' h h' :=
    { eq_users := by rw [h'.eq_users, h.eq_users]
      state := by
        rcases h'.state with heq | hnew
        · exact heq ▸ h.state
        · exact .inr hnew
      inserted := h'.inserted ∘ h.inserted
      eq_of_not := fun hP => (h'.eq_of_not hP).trans (h.eq_of_not hP) }

/-- A weaker condition for changed users. -/
theorem mono (h : Reused P s s') (hPQ : P → Q) : Reused Q s s' :=
  { h with eq_of_not := fun hQ => h.eq_of_not fun hP => hQ (hPQ hP) }

theorem references (h : Reused P s s') : s'.references = s.references := by rw [h.eq_users]

theorem owner (h : Reused P s s') : s'.owner = s.owner := by rw [h.eq_users]

theorem rules (h : Reused P s s') : s'.rules = s.rules := by rw [h.eq_users]

/-- Users come or go between the last and the first one. -/
theorem setUsers (hP : P) {users : Nat} (h : 0 < s.users ↔ 0 < users) :
    Reused P s { s with users } :=
  ⟨rfl, .inl rfl, fun hi => hi.trans h, fun hn => absurd hP hn⟩

/-- The first user comes. -/
theorem insert (hP : P) {users : Nat} (h : 0 < users) :
    Reused P s { s with users, state := .inserted } :=
  ⟨rfl, .inr (.inl rfl), fun _ => iff_of_true rfl h, fun hn => absurd hP hn⟩

/-- The last user goes. -/
theorem clear (hP : P) : Reused P s { s with users := 0, state := .cleared } :=
  ⟨rfl, .inr (.inr rfl), fun _ => by simp, fun hn => absurd hP hn⟩

/-- A processed scope stays processed. -/
theorem settled (h : Reused P s s') (hs : s.Settled) : s'.Settled := by
  rcases h.state with heq | heq | heq <;> unfold Settled
  · rwa [heq]
  · rw [heq]
    decide
  · rw [heq]
    decide

/-- A processed scope keeps its links. -/
theorem relinked (h : Reused P s s') (hs : s.Settled) : Relinked s s' :=
  have heq := h.eq_users
  { owner := by rw [heq]
    children := by rw [heq]
    references := by rw [heq]
    settled := iff_of_true (h.settled hs) hs
    merged := fun _ hm => by rw [heq]; exact hm
    inserted := h.inserted
    listed := fun hl => by rw [heq]; exact hl }

/-- If the users are the same in the end, the state is the same, or the scope was cleared. -/
theorem state_of_users (h : Reused P s s') (hi : s.state = .inserted ↔ 0 < s.users)
    (hu : s'.users = s.users) : s'.state = s.state ∨ s.users = 0 ∧ s'.state = .cleared := by
  have hi' := h.inserted hi
  rw [hu] at hi'
  rcases h.state with heq | heq | heq
  · exact .inl heq
  · exact .inl (heq.trans (hi.mpr (hi'.mp heq)).symm)
  · refine .inr ⟨Nat.eq_zero_of_not_pos fun hpos => ?_, heq⟩
    rw [hi'.mpr hpos] at heq
    cases heq

end Scope.Reused

namespace Engine

variable {σ : Type} [Sink σ] {e e' : Engine} {sink : σ} {id k : ScopeId} {s : Scope}
  {limit : Nat}

/-! ### One step -/

omit [Sink σ] in
/-- A computation of the engine leaves the sink alone. -/
theorem onEngine_apply {α : Type} (c : EngineM α) (e : Engine) (sink : σ) :
    onEngine c (e, sink) = ((c e).1, ((c e).2, sink)) := rfl

/-- The engine after the last user of a scope is gone. -/
def clear (id : ScopeId) (s : Scope) (e : Engine) : Engine :=
  (e.modifyScope id fun s => { s with users := 0, state := .cleared }).report
    (.scopeCleared s.name)

/-- The engine after a scope got its first user. -/
def markInserted (id : ScopeId) (s : Scope) (e : Engine) : Engine :=
  (e.modifyScope id fun s => { s with users := 1, state := .inserted }).report
    (.scopeInserted s.name)

/-- Releasing a scope that is not there fails. -/
theorem deactivateWithin_unknown (h : e.scope? id = none) :
    deactivateWithin (limit + 1) id (e, sink) = (.error .unknownScope, (e, sink)) := by
  rw [deactivateWithin, stateful_bind, onEngine_apply, requireScope_none h]

/-- A scope without users is released in vain, which is reported. -/
theorem deactivateWithin_idle (h : e.scope? id = some s) (hu : s.users = 0) :
    deactivateWithin (limit + 1) id (e, sink) =
      (.ok (), (e.report (.notActive s.name), sink)) := by
  rw [deactivateWithin, stateful_bind, onEngine_apply, requireScope_some h]
  simp only [hu]
  rfl

/-- **The last user goes:** the scope's text is removed, and then a user of each reference is
    released. -/
theorem deactivateWithin_last (h : e.scope? id = some s) (hu : s.users = 1) :
    deactivateWithin (limit + 1) id (e, sink) =
      deactivateEach (deactivateWithin limit) s.references.reverse
        (e.clear id s, Sink.remove id sink) := by
  rw [deactivateWithin, stateful_bind, onEngine_apply, requireScope_some h]
  simp only [hu]
  rfl

/-- One of several users goes, and nothing else happens. -/
theorem deactivateWithin_shared (h : e.scope? id = some s) {users : Nat}
    (hu : s.users = users + 2) :
    deactivateWithin (limit + 1) id (e, sink) =
      (.ok (), ((e.setUsers id (users + 1)).report (.stillInUse s.name (users + 1)), sink)) := by
  rw [deactivateWithin, stateful_bind, onEngine_apply, requireScope_some h]
  simp only [hu]
  rfl

/-- Activating a scope that is not there fails. -/
theorem activateWithin_unknown (h : e.scope? id = none) :
    activateWithin (limit + 1) id (e, sink) = (.error .unknownScope, (e, sink)) := by
  rw [activateWithin, stateful_bind, onEngine_apply, requireScope_none h]

/-- One more user of an active scope changes the count only. -/
theorem activateWithin_shared (h : e.scope? id = some s) {users : Nat}
    (hu : s.users = users + 1) :
    activateWithin (limit + 1) id (e, sink) =
      (.ok (), ((e.setUsers id (users + 2)).report (.alreadyActive s.name (users + 2)), sink)) := by
  rw [activateWithin, stateful_bind, onEngine_apply, requireScope_some h]
  simp only [hu]
  rfl

/-- What is left to do for a scope whose texts are known. -/
def inserting (limit : Nat) (id : ScopeId) (s : Scope) (texts : List String) : ActiveM σ Unit := do
  activateEach (fun reference => activateWithin limit reference) [] s.references
  changeSink (Sink.insertAll id texts)
  let _ ← onEngine (requireScope id)
  changeEngine (·.markInserted id s)

/-- **The first user comes:** the scope is written, its references are activated, and its text is
    inserted. -/
theorem activateWithin_first (h : e.scope? id = some s) (hu : s.users = 0) :
    activateWithin (limit + 1) id (e, sink) =
      match e.serialize id e.ambient with
      | (.ok texts, ambient) => inserting limit id s texts ({ e with ambient }, sink)
      | (.error err, ambient) => (.error err, ({ e with ambient }, sink)) := by
  rw [activateWithin, stateful_bind, onEngine_apply, requireScope_some h]
  simp only [hu]
  rw [stateful_bind, onEngine_apply]
  rcases e.serialize id e.ambient with ⟨err | texts, ambient⟩ <;> rfl

/-- What happens to the first reference decides about the rest, which is not tried after a failure.
    -/
theorem activateEach_cons (activate : ScopeId → ActiveM σ Unit) (done : List ScopeId)
    (reference : ScopeId) (rest : List ScopeId) (s : Engine × σ) :
    activateEach activate done (reference :: rest) s =
      match activate reference s with
      | (.ok (), s') => activateEach activate (reference :: done) rest s'
      | (.error err, s') => (.error err, (rollBack done s').2) := by
  rw [activateEach, stateful_bind, stateful_tryCatch]
  rcases activate reference s with ⟨err | ⟨⟩, s'⟩
  · simp only
    rw [stateful_bind]
    -- Rolling back itself never fails.
    have hok : ∀ (done : List ScopeId) (s : Engine × σ), (rollBack done s).1 = .ok () := by
      intro done
      induction done with
      | nil => exact fun s => rfl
      | cons r rest ih =>
        intro s
        rw [rollBack, stateful_bind, stateful_tryCatch]
        rcases deactivate r s with ⟨err | ⟨⟩, s'⟩
        · exact ih _
        · exact ih _
    have := hok done s'
    rcases hr : rollBack done s' with ⟨r, s''⟩
    rw [hr] at this
    cases this
    rfl
  · rfl

omit [Sink σ] in
theorem deactivateEach_cons (release : ScopeId → ActiveM σ Unit) (reference : ScopeId)
    (rest : List ScopeId) :
    deactivateEach release (reference :: rest) = (do
      release reference
      deactivateEach release rest) := rfl

/-- Rolling back releases one reference after the other, and goes on when that fails. -/
theorem rollBack_cons (reference : ScopeId) (rest : List ScopeId) (s : Engine × σ) :
    rollBack (reference :: rest) s =
      match deactivate reference s with
      | (.ok (), s') => rollBack rest s'
      | (.error err, (e, sink)) => rollBack rest (e.report (.rollbackFailed err), sink) := by
  rw [rollBack, stateful_bind, stateful_tryCatch]
  rcases deactivate reference s with ⟨err | ⟨⟩, e, sink⟩ <;> rfl

/-! ### Scopes that may change -/

/-- Users and states of scopes are changed under `P` only. -/
abbrev Reuses (P : ScopeId → Prop) (s s' : Engine × σ) : Prop :=
  Rescoped (fun k => Scope.Reused (P k)) s.1 s'.1

instance {P : ScopeId → Prop} : IsPreorder (Engine × σ) (Reuses P) where
  refl s := .refl s.1
  trans _ _ _ h h' := Rescoped.trans h h'

/-- References lead to scopes of lower rank. -/
structure Ranked (rank : ScopeId → Nat) (e : Engine) : Prop where
  reference {k s r} : e.scope? k = some s → r ∈ s.references →
    rank r < rank k ∧ r ∈ e.scopes.keys

variable {rank : ScopeId → Nat}

/-- Ranks stay right while only users change. -/
theorem Ranked.rescoped {P : ScopeId → Prop} (h : Ranked rank e)
    (hr : Rescoped (fun k => Scope.Reused (P k)) e e') : Ranked rank e' := by
  refine ⟨fun hs' hm => ?_⟩
  obtain ⟨s, hs, hR⟩ := hr.back hs'
  rw [hr.keys]
  exact h.reference hs (hR.references ▸ hm)

/-- What activating or releasing a reference changes ranks below the scope that has it. -/
theorem Ranked.lt_of_reference (h : Ranked rank e) (hs : e.scope? id = some s) {r : ScopeId}
    (hr : r ∈ s.references) (hk : k = r ∨ rank k < rank r) : rank k < rank id := by
  have hlt := (h.reference hs hr).1
  rcases hk with rfl | hk
  · exact hlt
  · exact hk.trans hlt

omit [Sink σ] in
/-- Releasing scopes changes what releasing each of them may change. -/
theorem deactivateEach_reused {P : ScopeId → Prop} {release : ScopeId → ActiveM σ Unit}
    (list : List ScopeId) (s : Engine × σ) (h : Ranked rank s.1)
    (hrelease : ∀ r ∈ list, ∀ s, Ranked rank s.1 → Steps (Reuses P) (release r) s) :
    Steps (Reuses P) (deactivateEach release list) s := by
  induction list generalizing s with
  | nil => exact .pure _ s
  | cons r rest ih =>
    rw [deactivateEach_cons]
    have hr := hrelease r (by simp) s h
    refine .bind hr fun _ s₁ h₁ => ?_
    refine ih s₁ ?_ fun r hr => hrelease r (List.mem_cons_of_mem _ hr)
    unfold Steps at hr
    rw [h₁] at hr
    exact h.rescoped hr

/-- **Deactivating changes users only of scopes that do not rank above.** -/
theorem deactivateWithin_reused (limit : Nat) (id : ScopeId) (s : Engine × σ)
    (h : Ranked rank s.1) :
    Steps (Reuses fun k => k = id ∨ rank k < rank id) (deactivateWithin limit id) s := by
  induction limit generalizing id s with
  | zero => exact .throw _ s
  | succ limit ih =>
    obtain ⟨e, sink⟩ := s
    unfold Steps
    cases hs : e.scope? id with
    | none => rw [deactivateWithin_unknown hs]; exact .refl e
    | some t =>
      match hu : t.users with
      | 0 =>
        rw [deactivateWithin_idle hs hu]
        exact .report _
      | 1 =>
        rw [deactivateWithin_last hs hu]
        -- References rank below the scope, so what each of them may change does as well.
        have hclear : Rescoped (fun k => Scope.Reused (k = id ∨ rank k < rank id)) e
            (e.clear id t) :=
          (Rescoped.modifyScope fun t _ => .clear (.inl rfl)).trans (.report _)
        refine hclear.trans ?_
        refine deactivateEach_reused t.references.reverse
          (e.clear id t, Sink.remove id sink) (h.rescoped hclear) fun r hr s hranked => ?_
        exact (ih r s hranked).mono fun s s' hR => hR.mono fun k _ _ _ hk =>
          hk.mono fun hk => .inr (h.lt_of_reference hs (List.mem_reverse.mp hr) hk)
      | users + 2 =>
        rw [deactivateWithin_shared hs hu]
        refine (Rescoped.modifyScope fun u hu' => ?_).trans (.report _)
        rw [hs] at hu'
        cases hu'
        exact .setUsers (.inl rfl) (by omega)

/-- Rolling back changes what releasing each of the scopes may change. -/
theorem rollBack_reused {P : ScopeId → Prop} (list : List ScopeId) (s : Engine × σ)
    (h : Ranked rank s.1) (hP : ∀ r ∈ list, ∀ k, k = r ∨ rank k < rank r → P k) :
    Steps (Reuses P) (rollBack list) s := by
  induction list generalizing s with
  | nil => exact .pure _ s
  | cons r rest ih =>
    have hr : Reuses P s (deactivate r s).2 :=
      Rescoped.mono (deactivateWithin_reused s.1.walkLimit r s h) fun k _ _ _ hk =>
        hk.mono (hP r (by simp) k)
    unfold Steps
    rw [rollBack_cons]
    have hrest : ∀ s' : Engine × σ, Reuses P s s' → Reuses P s (rollBack rest s').2 :=
      fun s' hs' => Rescoped.trans hs' (ih s' (h.rescoped hs') fun r hr =>
        hP r (List.mem_cons_of_mem _ hr))
    rcases hd : deactivate r s with ⟨err | ⟨⟩, e₁, sink₁⟩ <;> rw [hd] at hr
    · exact hrest _ (Rescoped.trans hr (.report _))
    · exact hrest _ hr

/-- Activating scopes changes what activating and releasing each of them may change. -/
theorem activateEach_reused {P : ScopeId → Prop} {activate : ScopeId → ActiveM σ Unit}
    (list done : List ScopeId) (s : Engine × σ) (h : Ranked rank s.1)
    (hactivate : ∀ r ∈ list, ∀ s, Ranked rank s.1 → Steps (Reuses P) (activate r) s)
    (hP : ∀ r ∈ done ++ list, ∀ k, k = r ∨ rank k < rank r → P k) :
    Steps (Reuses P) (activateEach activate done list) s := by
  induction list generalizing done s with
  | nil => exact .pure _ s
  | cons r rest ih =>
    have hr : Reuses P s (activate r s).2 := hactivate r (by simp) s h
    unfold Steps
    rw [activateEach_cons]
    rcases ha : activate r s with ⟨err | ⟨⟩, s₁⟩ <;> rw [ha] at hr
    · exact Rescoped.trans hr (rollBack_reused done s₁ (h.rescoped hr) fun a ha =>
        hP a (List.mem_append_left _ ha))
    · refine Rescoped.trans hr (ih (r :: done) s₁ (h.rescoped hr)
        (fun a ha => hactivate a (List.mem_cons_of_mem _ ha)) fun a ha => hP a ?_)
      simp only [List.mem_append, List.mem_cons] at ha ⊢
      tauto

/-- **Activating changes users only of scopes that do not rank above.** -/
theorem activateWithin_reused (limit : Nat) (id : ScopeId) (s : Engine × σ)
    (h : Ranked rank s.1) :
    Steps (Reuses fun k => k = id ∨ rank k < rank id) (activateWithin limit id) s := by
  induction limit generalizing id s with
  | zero => exact .throw _ s
  | succ limit ih =>
    obtain ⟨e, sink⟩ := s
    unfold Steps
    cases hs : e.scope? id with
    | none => rw [activateWithin_unknown hs]; exact .refl e
    | some t =>
      match hu : t.users with
      | users + 1 =>
        rw [activateWithin_shared hs hu]
        refine (Rescoped.modifyScope fun u hu' => ?_).trans (.report _)
        rw [hs] at hu'
        cases hu'
        exact .setUsers (.inl rfl) (by omega)
      | 0 =>
        rw [activateWithin_first hs hu]
        rcases e.serialize id e.ambient with ⟨err | texts, ambient⟩
        · exact .of_scopes_eq rfl rfl rfl
        · have hambient : Rescoped (fun k => Scope.Reused (k = id ∨ rank k < rank id)) e
              { e with ambient } := .of_scopes_eq rfl rfl rfl
          -- The references are activated first, and the scope gets its user at last.
          refine hambient.trans ?_
          refine Steps.bind (R := Reuses fun k => k = id ∨ rank k < rank id)
            (activateEach_reused t.references [] ({ e with ambient }, sink) (h.rescoped hambient)
              (fun r hr s hranked => ?_)
              fun r hr k hk => .inr (h.lt_of_reference hs (by simpa using hr) hk)) fun _ s₁ _ => ?_
          · exact (ih r s hranked).mono fun s s' hR => hR.mono fun k _ _ _ hk =>
              hk.mono fun hk => .inr (h.lt_of_reference hs hr hk)
          refine .bind (refl_of (Reuses _) s₁) fun _ s₂ _ => .bind ?_ fun _ s₃ _ => ?_
          · show Reuses _ s₂ (onEngine (requireScope id) s₂).2
            cases hs₂ : s₂.1.scope? id with
            | none => rw [onEngine_apply, requireScope_none hs₂]; exact .refl s₂.1
            | some u => rw [onEngine_apply, requireScope_some hs₂]; exact .refl s₂.1
          · exact (Rescoped.modifyScope fun u _ => .insert (.inl rfl) Nat.one_pos).trans (.report _)

/-! ### How deep references lead -/

/-- How many scopes rank below one. References cannot lead deeper. -/
def below (rank : ScopeId → Nat) (e : Engine) (id : ScopeId) : Nat :=
  e.scopes.keys.countP (rank · < rank id)

/-- A lower rank of a live scope has fewer scopes below it. -/
theorem below_lt_of_live {r : ScopeId} (hlt : rank r < rank id) (hlive : r ∈ e.scopes.keys) :
    e.below rank r < e.below rank id := by
  unfold below
  -- The lower one ranks below the scope, but not below itself.
  have hsplit : e.scopes.keys.countP (rank · < rank r) + 1 ≤
      e.scopes.keys.countP (rank · < rank id) := by
    obtain ⟨before, after, hkeys⟩ := List.append_of_mem hlive
    rw [hkeys, List.countP_append, List.countP_append, List.countP_cons, List.countP_cons]
    have hb : before.countP (rank · < rank r) ≤ before.countP (rank · < rank id) :=
      List.countP_mono_left fun k _ hk => by
        simp only [decide_eq_true_eq] at hk ⊢
        exact hk.trans hlt
    have ha : after.countP (rank · < rank r) ≤ after.countP (rank · < rank id) :=
      List.countP_mono_left fun k _ hk => by
        simp only [decide_eq_true_eq] at hk ⊢
        exact hk.trans hlt
    simp only [lt_irrefl, hlt, decide_false, decide_true]
    simp
    omega
  omega

/-- What a scope references has fewer scopes below it. -/
theorem below_lt (h : Ranked rank e) (hs : e.scope? id = some s) {r : ScopeId}
    (hr : r ∈ s.references) : e.below rank r < e.below rank id := by
  obtain ⟨hlt, hlive⟩ := h.reference hs hr
  exact below_lt_of_live hlt hlive

/-- The walk limit is above all counts of scopes. -/
theorem below_lt_walkLimit (e : Engine) (id : ScopeId) : e.below rank id < e.walkLimit := by
  have hle : e.below rank id ≤ e.scopes.keys.length := List.countP_le_length
  have hlen : e.scopes.keys.length = e.scopes.length := List.length_map _
  unfold walkLimit
  omega

/-- Counts of scopes stay while no scope is added or discarded. -/
theorem Rescoped.below {R : ScopeId → Scope → Scope → Prop} (h : Rescoped R e e')
    (rank : ScopeId → Nat) (id : ScopeId) : e'.below rank id = e.below rank id := by
  unfold Engine.below
  rw [h.keys]

/-- Deactivating scopes one after another succeeds, if each does. -/
theorem deactivateEach_succeeds {limit : Nat} (hdeactivate : ∀ r (s : Engine × σ), Ranked rank s.1 →
      r ∈ s.1.scopes.keys → s.1.below rank r < limit → ∃ s',
      deactivateWithin limit r s = (.ok (), s'))
    (list : List ScopeId) (s : Engine × σ) (h : Ranked rank s.1)
    (hlist : ∀ r ∈ list, r ∈ s.1.scopes.keys ∧ s.1.below rank r < limit) :
    ∃ s', deactivateEach (deactivateWithin limit) list s = (.ok (), s') := by
  induction list generalizing s with
  | nil => exact ⟨s, rfl⟩
  | cons r rest ih =>
    obtain ⟨hr, hrl⟩ := hlist r List.mem_cons_self
    obtain ⟨s₁, h₁⟩ := hdeactivate r s h hr hrl
    -- A deactivation changes neither which scopes there are nor how deep they reach.
    have hR := deactivateWithin_reused limit r s h
    unfold Steps at hR
    rw [h₁] at hR
    rw [deactivateEach_cons, stateful_bind_ok h₁]
    refine ih s₁ (h.rescoped hR) fun a ha => ?_
    rw [hR.keys, hR.below rank a]
    exact hlist a (List.mem_cons_of_mem _ ha)

/-- Deactivating a scope that is there succeeds when the limit suffices. -/
theorem deactivateWithin_succeeds (limit : Nat) (id : ScopeId) (s : Engine × σ)
    (h : Ranked rank s.1) (hlive : id ∈ s.1.scopes.keys) (hlimit : s.1.below rank id < limit) :
    ∃ s', deactivateWithin limit id s = (.ok (), s') := by
  induction limit generalizing id s with
  | zero => exact absurd hlimit (Nat.not_lt_zero _)
  | succ limit ih =>
    obtain ⟨e, sink⟩ := s
    obtain ⟨t, hs⟩ := mem_keys_iff.mp hlive
    match hu : t.users with
    | 0 => exact ⟨_, deactivateWithin_idle hs hu⟩
    | users + 2 => exact ⟨_, deactivateWithin_shared hs hu⟩
    | 1 =>
      -- Only the last release goes on to the references, which have ranks below and so a limit that
      -- suffices.
      rw [deactivateWithin_last hs hu]
      have hclear : Rescoped (fun _ => Scope.Reused True) e (e.clear id t) :=
        (Rescoped.modifyScope fun t _ => .clear trivial).trans (.report _)
      refine deactivateEach_succeeds ih t.references.reverse (e.clear id t, Sink.remove id sink)
        (h.rescoped hclear) fun r hr => ?_
      have hlt : e.below rank r < e.below rank id := below_lt h hs (List.mem_reverse.mp hr)
      rw [hclear.keys, hclear.below rank r]
      exact ⟨(h.reference hs (List.mem_reverse.mp hr)).2,
        lt_of_lt_of_le hlt (Nat.le_of_lt_succ hlimit)⟩

/-- **Deactivating fails for unknown scopes only,** and then it changes nothing. -/
theorem deactivate_error (h : Ranked rank e) {err : Error} {s' : Engine × σ}
    (hd : deactivate id (e, sink) = (.error err, s')) : e.scope? id = none ∧ s' = (e, sink) := by
  cases hs : e.scope? id with
  | none =>
    refine ⟨rfl, ?_⟩
    have hrun : deactivate id (e, sink) = (.error .unknownScope, (e, sink)) :=
      deactivateWithin_unknown hs
    cases hd.symm.trans hrun
    rfl
  | some t =>
    obtain ⟨s₁, h₁⟩ := deactivateWithin_succeeds e.walkLimit id (e, sink) h (mem_keys_of_scope? hs)
      (below_lt_walkLimit e id)
    have hrun : deactivate id (e, sink) = (.ok (), s₁) := h₁
    cases hd.symm.trans hrun

/-! ### Links -/

/-- Every linked engine has ranks by which references descend. -/
theorem Linked.exists_ranked (h : Linked e) : ∃ rank, Ranked rank e := by
  obtain ⟨rank, hrank⟩ := h.ranked
  refine ⟨rank, ⟨fun hs hm => ⟨hrank hs hm, ?_⟩⟩⟩
  obtain ⟨t, ht, -⟩ := h.reference_ready hs hm
  exact mem_keys_of_scope? ht

/-- Between definitions, a change of users and states keeps the engine sound. -/
theorem Sound.reused {P : ScopeId → Prop} (h : Sound [] e)
    (hr : Rescoped (fun k => Scope.Reused (P k)) e e') : Sound [] e' :=
  h.relinked (hr.mono fun _ _ _ hs hR => hR.relinked (h.settled hs))

/-- Activating changes users and states only. -/
theorem activate_reused (h : Linked e) (id : ScopeId) (sink : σ) :
    Reuses (fun _ => True) (e, sink) (activate id (e, sink)).2 := by
  obtain ⟨rank, hrank⟩ := h.exists_ranked
  exact Rescoped.mono (activateWithin_reused e.walkLimit id (e, sink) hrank) fun _ _ _ _ hk =>
    hk.mono fun _ => trivial

/-- So does deactivating. -/
theorem deactivate_reused (h : Linked e) (id : ScopeId) (sink : σ) :
    Reuses (fun _ => True) (e, sink) (deactivate id (e, sink)).2 := by
  obtain ⟨rank, hrank⟩ := h.exists_ranked
  exact Rescoped.mono (deactivateWithin_reused e.walkLimit id (e, sink) hrank) fun _ _ _ _ hk =>
    hk.mono fun _ => trivial

end Engine

end StyleBook
