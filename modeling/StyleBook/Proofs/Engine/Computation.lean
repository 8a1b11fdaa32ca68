import Mathlib
import StyleBook.Engine.Session

namespace StyleBook

/-!
# What computations do to their state

Computations of an engine, of an engine with a memory, and of an engine with a sink are functions
of a state. This file opens them one step at a time.

* `stateful_bind`, `partial_bind` — what a computation followed by another one does, without and
  with a limit;
* `Steps`, `Moves` — a computation, run in a state, moves the state along a relation, without and
  with a limit; the rules say which computations do if their parts do.
-/

variable {S α β : Type}

/-! ### Computations that may fail -/

/-- The second computation runs where the first one stopped, unless that failed. -/
theorem stateful_bind (c : ExceptT Error (StateM S) α) (f : α → ExceptT Error (StateM S) β)
    (s : S) :
    (c >>= f) s = match c s with
      | (.ok a, s') => f a s'
      | (.error err, s') => (.error err, s') := by
  simp only [bind, ExceptT.bind, ExceptT.mk, StateT.bind]
  rcases c s with ⟨_ | a, s'⟩ <;> rfl

/-- The second computation runs where the first one stopped. -/
theorem stateful_bind_ok {c : ExceptT Error (StateM S) α} {s s' : S} {a : α}
    (h : c s = (.ok a, s')) (f : α → ExceptT Error (StateM S) β) : (c >>= f) s = f a s' := by
  rw [stateful_bind, h]

/-- After a failure the second computation does not run. -/
theorem stateful_bind_error {c : ExceptT Error (StateM S) α} {s s' : S} {err : Error}
    (h : c s = (.error err, s')) (f : α → ExceptT Error (StateM S) β) :
    (c >>= f) s = (.error err, s') := by
  rw [stateful_bind, h]

/-- If there is a result, both computations have one. -/
theorem stateful_bind_eq_ok {c : ExceptT Error (StateM S) α} {f : α → ExceptT Error (StateM S) β}
    {s s' : S} {b : β} (h : (c >>= f) s = (.ok b, s')) :
    ∃ a s₁, c s = (.ok a, s₁) ∧ f a s₁ = (.ok b, s') := by
  rw [stateful_bind] at h
  rcases hc : c s with ⟨err | a, s₁⟩ <;> rw [hc] at h
  · cases h
  · exact ⟨a, s₁, rfl, h⟩

@[simp] theorem stateful_get (s : S) :
    (get : ExceptT Error (StateM S) S) s = (.ok s, s) := rfl

/-- A handler runs where the computation failed. -/
theorem stateful_tryCatch (c : ExceptT Error (StateM S) α)
    (handle : Error → ExceptT Error (StateM S) α) (s : S) :
    (tryCatch c handle) s = match c s with
      | (.ok a, s') => (.ok a, s')
      | (.error err, s') => handle err s' := by
  simp only [tryCatch, tryCatchThe, MonadExceptOf.tryCatch, ExceptT.tryCatch, ExceptT.mk, bind,
    StateT.bind]
  rcases c s with ⟨_ | a, s'⟩ <;> rfl

/-! ### Computations that may fail or reach a limit -/

/-- The second computation runs where the first one stopped, unless that failed or reached the
    limit. -/
theorem partial_bind (c : ExceptT Error (StateT S Option) α)
    (f : α → ExceptT Error (StateT S Option) β) (s : S) :
    (c >>= f) s = match c s with
      | some (.ok a, s') => f a s'
      | some (.error err, s') => some (.error err, s')
      | none => none := by
  simp only [bind, ExceptT.bind, ExceptT.mk, StateT.bind]
  rcases c s with _ | ⟨_ | a, s'⟩ <;> rfl

@[simp] theorem partial_get (s : S) :
    (get : ExceptT Error (StateT S Option) S) s = some (.ok s, s) := rfl

/-- If a computation followed by another one has an outcome, so has the first one. -/
theorem partial_bind_eq_some {c : ExceptT Error (StateT S Option) α}
    {f : α → ExceptT Error (StateT S Option) β} {s s' : S} {r : Except Error β}
    (h : (c >>= f) s = some (r, s')) :
    (∃ a s₁, c s = some (.ok a, s₁) ∧ f a s₁ = some (r, s')) ∨
      ∃ err, c s = some (.error err, s') ∧ r = .error err := by
  rw [partial_bind] at h
  rcases hc : c s with _ | ⟨err | a, s₁⟩ <;> rw [hc] at h
  · cases h
  · cases h
    exact .inr ⟨err, rfl, rfl⟩
  · exact .inl ⟨a, s₁, rfl, h⟩

/-! ### Relations along which a computation moves the state -/

/-- Run in `s`, the computation moves the state along `R`, whether it fails or not. -/
def Steps (R : S → S → Prop) (c : ExceptT Error (StateM S) α) (s : S) : Prop := R s (c s).2

namespace Steps

variable {R : S → S → Prop}

/-- A computation that moves along a stronger relation. -/
theorem mono {Q : S → S → Prop} (h : ∀ s s', Q s s' → R s s') {c : ExceptT Error (StateM S) α}
    {s : S} (hc : Steps Q c s) : Steps R c s := h _ _ hc

/-- A change of the state. -/
theorem modify {f : S → S} {s : S} (h : R s (f s)) :
    Steps R (MonadState.modifyGet fun s => ((), f s) : ExceptT Error (StateM S) Unit) s := h

variable [IsPreorder S R]

/-- A result without a change. -/
theorem pure (a : α) (s : S) : Steps R (Pure.pure a) s := refl_of R s

/-- A failure without a change. -/
theorem throw (err : Error) (s : S) :
    Steps R (MonadExcept.throw err : ExceptT Error (StateM S) α) s := refl_of R s

/-- One computation after the other. The second one may count on what the first one did. -/
theorem bind {c : ExceptT Error (StateM S) α} {f : α → ExceptT Error (StateM S) β} {s : S}
    (hc : Steps R c s) (hf : ∀ a s', c s = (.ok a, s') → Steps R (f a) s') :
    Steps R (c >>= f) s := by
  unfold Steps at hc ⊢
  rw [stateful_bind]
  rcases h : c s with ⟨err | a, s'⟩ <;> rw [h] at hc
  · exact hc
  · exact trans_of R hc (hf a s' h)

end Steps

/-- Run in `s`, the computation moves the state along `R`, unless it reaches its limit. -/
def Moves (R : S → S → Prop) (c : ExceptT Error (StateT S Option) α) (s : S) : Prop :=
  ∀ r s', c s = some (r, s') → R s s'

namespace Moves

variable {R : S → S → Prop}

variable [IsPreorder S R]

/-- A result without a change. -/
theorem pure (a : α) (s : S) : Moves R (Pure.pure a) s := fun _ _ h => by
  cases h
  exact refl_of R s

/-- A failure without a change. -/
theorem throw (err : Error) (s : S) :
    Moves R (MonadExcept.throw err : ExceptT Error (StateT S Option) α) s := fun _ _ h => by
  cases h
  exact refl_of R s

/-- One computation after the other. The second one may count on what the first one did. -/
theorem bind {c : ExceptT Error (StateT S Option) α} {f : α → ExceptT Error (StateT S Option) β}
    {s : S} (hc : Moves R c s) (hf : ∀ a s', c s = some (.ok a, s') → Moves R (f a) s') :
    Moves R (c >>= f) s := by
  intro r s' h
  rcases partial_bind_eq_some h with ⟨a, s₁, h₁, h₂⟩ | ⟨err, h₁, -⟩
  · exact trans_of R (hc _ s₁ h₁) (hf a s₁ h₁ _ s' h₂)
  · exact hc _ s' h₁

end Moves

/-! ### Computations of an engine and a memory -/

namespace BuildM

variable {μ : Type} {R : Engine × μ → Engine × μ → Prop} {c : BuildM μ α} {s s' : Engine × μ}

theorem onEngine_apply (c : EngineM α) (s : Engine × μ) :
    onEngine c s = some ((c s.1).1, ((c s.1).2, s.2)) := rfl

theorem onEngine_eq_some {c : EngineM α} {r : Except Error α}
    (h : onEngine c s = some (r, s')) : c s.1 = (r, s'.1) := by
  rw [onEngine_apply] at h
  cases h
  rfl

/-- A computation whose failure is a result has the outcome of the computation. -/
theorem attempt_eq_some {r : Except Error (Except Error α)}
    (h : attempt c s = some (r, s')) : ∃ r', c s = some (r', s') ∧ r = .ok r' := by
  unfold attempt at h
  rcases hc : c s with _ | ⟨r', s₁⟩ <;> rw [hc] at h
  · cases h
  · cases h
    exact ⟨r', rfl, rfl⟩

/-- An attempt moves as what is attempted. -/
theorem moves_attempt (h : Moves R c s) : Moves R (attempt c) s := fun _ s' h' => by
  obtain ⟨r', hc, -⟩ := attempt_eq_some h'
  exact h r' s' hc

/-- A computation of the engine moves as it changes the engine. -/
theorem moves_onEngine {c : EngineM α} (h : R s ((c s.1).2, s.2)) : Moves R (onEngine c) s := by
  intro r s' h'
  cases h'
  exact h

theorem moves_changeEngine {f : Engine → Engine} (h : R s (f s.1, s.2)) :
    Moves R (changeEngine f) s := by
  intro r s' h'
  cases h'
  exact h

end BuildM

end StyleBook
