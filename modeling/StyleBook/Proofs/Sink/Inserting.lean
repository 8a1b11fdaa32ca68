import StyleBook.Proofs.Sink.RollingBack

namespace StyleBook

/-!
# What goes into a sink and what is taken out

Activations and deactivations that succeed, described without a sink.

* `Journal` — texts in blocks, each of them the texts of one scope;
* `Engine.Inserts e ids blocks e'` — activating scopes in order inserts the blocks;
* `Engine.Releases e ids cleared e'` — deactivating scopes in order clears those in `cleared`;
* `Engine.activate_inserts`, `Engine.deactivate_releases` — this is what the sink is told.
-/

/-- Texts in blocks, each of them with its scope. -/
abbrev Journal := List (ScopeId × List String)

namespace Journal

variable {σ : Type} [Sink σ]

/-- A sink that took the blocks, in order. -/
def insertInto (blocks : Journal) (sink : σ) : σ :=
  blocks.foldl (fun sink block => Sink.insertAll block.1 block.2 sink) sink

/-- Blocks are inserted one after the other. -/
theorem insertInto_append (blocks more : Journal) (sink : σ) :
    insertInto (blocks ++ more) sink = insertInto more (insertInto blocks sink) :=
  List.foldl_append

theorem insertInto_cons (block : ScopeId × List String) (blocks : Journal) (sink : σ) :
    insertInto (block :: blocks) sink = insertInto blocks (Sink.insertAll block.1 block.2 sink) :=
  rfl

end Journal

/-- A sink from which scopes were removed, in order. -/
def Sink.removeEach {σ : Type} [Sink σ] (cleared : List ScopeId) (sink : σ) : σ :=
  cleared.foldl (fun sink id => Sink.remove id sink) sink

/-- Scopes are removed one after the other. -/
theorem Sink.removeEach_append {σ : Type} [Sink σ] (cleared more : List ScopeId) (sink : σ) :
    Sink.removeEach (cleared ++ more) sink = Sink.removeEach more (Sink.removeEach cleared sink) :=
  List.foldl_append

namespace Engine

/-- **Activating scopes in order inserts blocks of texts:** for each scope that had no users, first
    the blocks of its references, and then the texts that it was serialized to. -/
inductive Inserts : Engine → List ScopeId → Journal → Engine → Prop
  /-- Nothing is activated. -/
  | nil {e : Engine} : Inserts e [] [] e
  /-- A scope that has users gets one more. -/
  | shared {e e' : Engine} {id : ScopeId} {ids : List ScopeId} {blocks : Journal} {s : Scope}
    {users : Nat} (h : e.scope? id = some s) (hu : s.users = users + 1)
    (rest : Inserts ((e.setUsers id (users + 2)).report (.alreadyActive s.name (users + 2))) ids
      blocks e') : Inserts e (id :: ids) blocks e'
  /-- A scope that has none gets its first user. -/
  | first {e e₁ e' : Engine} {id : ScopeId} {ids : List ScopeId} {inner blocks : Journal}
    {s : Scope} {texts : List String} {ambient : Ambient} (h : e.scope? id = some s)
    (hu : s.users = 0) (ht : e.serialize id e.ambient = (.ok texts, ambient))
    (references : Inserts { e with ambient } s.references inner e₁)
    (rest : Inserts (e₁.markInserted id s) ids blocks e') :
    Inserts e (id :: ids) (inner ++ (id, texts) :: blocks) e'

/-- **Deactivating scopes in order clears scopes:** each scope that loses its last user, and then
    those of its references that do, latest first. -/
inductive Releases : Engine → List ScopeId → List ScopeId → Engine → Prop
  /-- Nothing is deactivated. -/
  | nil {e : Engine} : Releases e [] [] e
  /-- A scope without users keeps none. -/
  | idle {e e' : Engine} {id : ScopeId} {ids cleared : List ScopeId} {s : Scope}
    (h : e.scope? id = some s) (hu : s.users = 0)
    (rest : Releases (e.report (.notActive s.name)) ids cleared e') :
    Releases e (id :: ids) cleared e'
  /-- A scope with several users loses one. -/
  | shared {e e' : Engine} {id : ScopeId} {ids cleared : List ScopeId} {s : Scope} {users : Nat}
    (h : e.scope? id = some s) (hu : s.users = users + 2)
    (rest : Releases ((e.setUsers id (users + 1)).report (.stillInUse s.name (users + 1))) ids
      cleared e') : Releases e (id :: ids) cleared e'
  /-- A scope loses its last user. -/
  | last {e e₁ e' : Engine} {id : ScopeId} {ids inner cleared : List ScopeId} {s : Scope}
    (h : e.scope? id = some s) (hu : s.users = 1)
    (references : Releases (e.clear id s) s.references.reverse inner e₁)
    (rest : Releases e₁ ids cleared e') : Releases e (id :: ids) (id :: inner ++ cleared) e'

variable {e e₁ e' : Engine} {id : ScopeId} {ids more cleared : List ScopeId} {blocks : Journal}

/-- One list of activations after the other inserts the blocks of both. -/
theorem Inserts.append {others : Journal} (h : Inserts e ids blocks e₁)
    (h' : Inserts e₁ more others e') : Inserts e (ids ++ more) (blocks ++ others) e' := by
  induction h with
  | nil => exact h'
  | shared hs hu _ ih => exact .shared hs hu (ih h')
  | first hs hu ht references _ _ ih =>
    rw [List.append_assoc]
    exact .first hs hu ht references (ih h')

/-- One list of releases after the other clears the scopes of both. -/
theorem Releases.append {others : List ScopeId} (h : Releases e ids cleared e₁)
    (h' : Releases e₁ more others e') : Releases e (ids ++ more) (cleared ++ others) e' := by
  induction h with
  | nil => exact h'
  | idle hs hu _ ih => exact .idle hs hu (ih h')
  | shared hs hu _ ih => exact .shared hs hu (ih h')
  | last hs hu references _ _ ih =>
    rw [List.append_assoc]
    exact .last hs hu references (ih h')

/-- Inserting changes only users and states. -/
theorem Inserts.reused (h : Inserts e ids blocks e') :
    Rescoped (fun _ => Scope.Reused True) e e' := by
  induction h with
  | nil => exact .refl _
  | @shared e e' id ids blocks s users hs hu _ ih =>
    refine Rescoped.trans ((Rescoped.modifyScope fun t ht => ?_).trans (.report _)) ih
    rw [hs] at ht
    cases ht
    exact .setUsers trivial (by omega)
  | @first e e₁ e' id ids inner blocks s texts ambient hs hu ht _ _ ihr ih =>
    have hambient : Rescoped (fun _ => Scope.Reused True) e { e with ambient } :=
      .of_scopes_eq rfl rfl rfl
    refine Rescoped.trans (Rescoped.trans hambient ihr) (Rescoped.trans ?_ ih)
    exact (Rescoped.modifyScope fun _ _ => .insert trivial Nat.one_pos).trans (.report _)

/-- Releasing changes only users and states. -/
theorem Releases.reused (h : Releases e ids cleared e') :
    Rescoped (fun _ => Scope.Reused True) e e' := by
  induction h with
  | nil => exact .refl _
  | idle hs hu _ ih => exact Rescoped.trans (.report _) ih
  | @shared e e' id ids cleared s users hs hu _ ih =>
    refine Rescoped.trans ((Rescoped.modifyScope fun t ht => ?_).trans (.report _)) ih
    rw [hs] at ht
    cases ht
    exact .setUsers trivial (by omega)
  | last hs hu _ _ ihr ih =>
    refine Rescoped.trans (Rescoped.trans ?_ ihr) ih
    exact (Rescoped.modifyScope fun _ _ => .clear trivial).trans (.report _)

variable {σ : Type} [Sink σ] {rank : ScopeId → Nat}

/-- Activations one after another insert the blocks of each, in this order. -/
theorem activateEach_inserts {activate : ScopeId → ActiveM σ Unit}
    (hactivate : ∀ r (s s' : Engine × σ), activate r s = (.ok (), s') →
      ∃ blocks, Inserts s.1 [r] blocks s'.1 ∧ s'.2 = Journal.insertInto blocks s.2)
    (list done : List ScopeId) (s s' : Engine × σ)
    (h : activateEach activate done list s = (.ok (), s')) :
    ∃ blocks, Inserts s.1 list blocks s'.1 ∧ s'.2 = Journal.insertInto blocks s.2 := by
  induction list generalizing done s with
  | nil =>
    cases h
    exact ⟨[], .nil, rfl⟩
  | cons r rest ih =>
    rw [activateEach_cons] at h
    rcases ha : activate r s with ⟨err | ⟨⟩, s₁⟩ <;> rw [ha] at h
    · cases h
    · obtain ⟨blocks, hins, hsink⟩ := hactivate r s s₁ ha
      obtain ⟨others, hins', hsink'⟩ := ih (r :: done) s₁ h
      refine ⟨blocks ++ others, hins.append hins', ?_⟩
      rw [hsink', hsink, Journal.insertInto_append]

/-- An activation that succeeds inserts blocks, and the sink takes them. -/
theorem activateWithin_inserts (limit : Nat) (id : ScopeId) (s s' : Engine × σ)
    (h : activateWithin limit id s = (.ok (), s')) :
    ∃ blocks, Inserts s.1 [id] blocks s'.1 ∧ s'.2 = Journal.insertInto blocks s.2 := by
  -- The induction follows the limit, which the references of the scope have one less of.
  induction limit generalizing id s s' with
  | zero => cases h
  | succ limit ih =>
    obtain ⟨e, sink⟩ := s
    cases hs : e.scope? id with
    | none =>
      rw [activateWithin_unknown hs] at h
      cases h
    | some t =>
      match hu : t.users with
      | users + 1 =>
        rw [activateWithin_shared hs hu] at h
        cases h
        exact ⟨[], .shared hs hu .nil, rfl⟩
      | 0 =>
        rw [activateWithin_first hs hu] at h
        rcases ht : e.serialize id e.ambient with ⟨err | texts, ambient⟩ <;> rw [ht] at h
        · cases h
        · rcases ha : activateEach (activateWithin limit) [] t.references ({ e with ambient }, sink)
            with ⟨err | ⟨⟩, s₁⟩
          · cases (inserting_error id texts ha).symm.trans h
          · -- The blocks of the references come before that of the scope.
            obtain ⟨inner, hins, hsink⟩ := activateEach_inserts ih t.references [] _ s₁ ha
            obtain ⟨u, hu', -⟩ := hins.reused.scope hs
            cases (inserting_ok texts ha hu').symm.trans h
            refine ⟨inner ++ [(id, texts)], .first hs hu ht hins .nil, ?_⟩
            rw [Journal.insertInto_append, ← hsink]
            rfl

/-- **What an activation that succeeds puts into a sink.** -/
theorem activate_inserts {sink : σ} {s' : Engine × σ} (h : activate id (e, sink) = (.ok (), s')) :
    ∃ blocks, Inserts e [id] blocks s'.1 ∧ s'.2 = Journal.insertInto blocks sink :=
  activateWithin_inserts e.walkLimit id (e, sink) s' h

/-- Deactivations one after another clear the scopes of each, in this order. -/
theorem deactivateEach_releases {deactivate : ScopeId → ActiveM σ Unit}
    (hdeactivate : ∀ r (s s' : Engine × σ), deactivate r s = (.ok (), s') →
      ∃ cleared, Releases s.1 [r] cleared s'.1 ∧ s'.2 = Sink.removeEach cleared s.2)
    (list : List ScopeId) (s s' : Engine × σ)
    (h : deactivateEach deactivate list s = (.ok (), s')) :
    ∃ cleared, Releases s.1 list cleared s'.1 ∧ s'.2 = Sink.removeEach cleared s.2 := by
  induction list generalizing s with
  | nil =>
    cases h
    exact ⟨[], .nil, rfl⟩
  | cons r rest ih =>
    rw [deactivateEach_cons] at h
    rcases hd : deactivate r s with ⟨err | ⟨⟩, s₁⟩
    -- A release that fails ends the walk, so the ones before it succeeded.
    · rw [stateful_bind_error hd] at h
      cases h
    · rw [stateful_bind_ok hd] at h
      obtain ⟨cleared, hrel, hsink⟩ := hdeactivate r s s₁ hd
      obtain ⟨others, hrel', hsink'⟩ := ih s₁ h
      refine ⟨cleared ++ others, hrel.append hrel', ?_⟩
      rw [hsink', hsink, Sink.removeEach_append]

/-- A deactivation that succeeds clears scopes, and they are removed from the sink. -/
theorem deactivateWithin_releases (limit : Nat) (id : ScopeId) (s s' : Engine × σ)
    (h : deactivateWithin limit id s = (.ok (), s')) :
    ∃ cleared, Releases s.1 [id] cleared s'.1 ∧ s'.2 = Sink.removeEach cleared s.2 := by
  induction limit generalizing id s s' with
  | zero => cases h
  | succ limit ih =>
    obtain ⟨e, sink⟩ := s
    cases hs : e.scope? id with
    | none =>
      rw [deactivateWithin_unknown hs] at h
      cases h
    | some t =>
      match hu : t.users with
      | 0 =>
        rw [deactivateWithin_idle hs hu] at h
        cases h
        exact ⟨[], .idle hs hu .nil, rfl⟩
      | users + 2 =>
        rw [deactivateWithin_shared hs hu] at h
        cases h
        exact ⟨[], .shared hs hu .nil, rfl⟩
      | 1 =>
        rw [deactivateWithin_last hs hu] at h
        -- The scope is cleared before its references are.
        obtain ⟨inner, hrel, hsink⟩ := deactivateEach_releases ih t.references.reverse _ s' h
        exact ⟨id :: inner ++ [], .last hs hu hrel .nil, by rw [List.append_nil]; exact hsink⟩

/-- **What a deactivation that succeeds takes out of a sink.** -/
theorem deactivate_releases {sink : σ} {s' : Engine × σ}
    (h : deactivate id (e, sink) = (.ok (), s')) :
    ∃ cleared, Releases e [id] cleared s'.1 ∧ s'.2 = Sink.removeEach cleared sink :=
  deactivateWithin_releases e.walkLimit id (e, sink) s' h

end Engine

end StyleBook
