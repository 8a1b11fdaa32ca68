import Mathlib
import StyleBook.Name.Naming

namespace StyleBook

/-!
# New names

Naming hands out each name once: of scopes and of rules, under any policy, whatever the texts
that names are joined of.

* `Naming.blocked_fresh` — the first number behind the candidates that are taken is free;
* `Naming.generate_fresh`, `Naming.reserve_fresh` — a name is new when it is handed out;
* `Generation` — a call that made a name; `Naming.History` — the calls that led from one state of
  naming to another, and `Naming.History.names_nodup` — no two of them made the same name.
-/

namespace Naming

variable {candidate : Nat → String} {taken : List String} {n : Naming}

/-! ### The search for a free number -/

/-- Different numbers have different texts. -/
theorem repr_injective : Function.Injective Nat.repr := by
  intro i j h
  have hdigits := congrArg (fun s => Nat.ofDigitChars 10 s.toList 0) h
  simpa [Nat.toList_repr] using hdigits

/-- So they do behind one text. -/
theorem append_repr_injective (text : String) : Function.Injective fun id => text ++
    Nat.repr id := by
  intro i j h
  have hchars := congrArg String.toList h
  simp only [String.toList_append] at hchars
  exact repr_injective (String.toList_injective (List.append_cancel_left hchars))

/-- Numbers behind a text tell names apart. -/
theorem suffixed_injective (text : String) : Function.Injective (suffixed text) :=
  append_repr_injective (text ++ "_")

/-- The candidates that a search passes over stand one behind the other, and all of them are
    taken; the next one is free, if the search did not end at its limit. -/
theorem takenFrom_spec (candidate : Nat → String) (taken : List String) (limit id : Nat) :
    takenFrom candidate taken limit id =
        (List.range' id (takenFrom candidate taken limit id).length).map candidate ∧
      takenFrom candidate taken limit id ⊆ taken ∧
      ((takenFrom candidate taken limit id).length = limit ∨
        candidate (id + (takenFrom candidate taken limit id).length) ∉ taken) := by
  induction limit generalizing id with
  | zero => exact ⟨rfl, List.nil_subset _, .inl rfl⟩
  | succ limit ih =>
    rw [takenFrom]
    by_cases h : candidate id ∈ taken
    · rw [if_pos h, List.length_cons, List.range'_succ, List.map_cons]
      obtain ⟨heq, hsub, hend⟩ := ih (id + 1)
      refine ⟨congrArg (candidate id :: ·) heq, List.cons_subset.mpr ⟨h, hsub⟩, ?_⟩
      refine hend.imp (congrArg (· + 1)) fun hfree => ?_
      rwa [Nat.add_assoc, Nat.add_comm 1] at hfree
    · rw [if_neg h]
      exact ⟨rfl, List.nil_subset _, .inr h⟩

/-- **The number behind the candidates that are taken is free.** -/
theorem blocked_fresh (hc : Function.Injective candidate) (taken : List String) (id : Nat) :
    candidate (id + (blocked candidate taken id).length) ∉ taken := by
  obtain ⟨heq, hsub, hend⟩ := takenFrom_spec candidate taken taken.length id
  intro hmem
  -- With the next candidate, more names would be taken than there are.
  have hall : (List.range' id ((blocked candidate taken id).length + 1)).map candidate ⊆ taken := by
    rw [List.range'_concat, List.map_append, List.append_subset, Nat.one_mul]
    exact ⟨heq ▸ hsub, List.cons_subset.mpr ⟨hmem, List.nil_subset _⟩⟩
  have hlength := (List.subperm_of_subset ((List.nodup_range').map hc) hall).length_le
  rw [List.length_map, List.length_range'] at hlength
  rcases hend with hlimit | hfree
  · unfold blocked at hlength
    omega
  · exact hfree hmem

/-! ### Names of rules and of scopes -/

/-- **A name for a slot is new.** -/
theorem generate_fresh (n : Naming) (scope slot : String) :
    (n.generate scope slot).name ∉ n.used := by
  unfold generate
  cases n.mode with
  | readable =>
    by_cases h : scope ++ "_" ++ slot ∈ n.used
    · simp only [if_pos h]
      exact blocked_fresh (suffixed_injective _) n.used n.nextId
    · simp only [if_neg h]
      exact h
  | optimized => exact blocked_fresh (append_repr_injective n.lead) n.used n.nextId

/-- It is handed out from then on. -/
theorem generate_used (n : Naming) (scope slot : String) :
    (n.generate scope slot).naming.used = (n.generate scope slot).name :: n.used := by
  unfold generate
  cases n.mode with
  | readable => by_cases h : scope ++ "_" ++ slot ∈ n.used <;> simp [h]
  | optimized => rfl

/-- Names of slots are none of scopes. -/
theorem generate_scopeNames (n : Naming) (scope slot : String) :
    (n.generate scope slot).naming.scopeNames = n.scopeNames := by
  unfold generate
  cases n.mode with
  | readable => by_cases h : scope ++ "_" ++ slot ∈ n.used <;> simp [h]
  | optimized => rfl

/-- **A name for a scope is new.** -/
theorem reserve_fresh (name : String) (multiplex : Bool) (n : Naming) :
    (n.reserve name multiplex).1 ∉ n.scopeNames := by
  unfold reserve
  by_cases h : (multiplex || decide (name ∈ n.scopeNames)) = true
  · rw [if_pos h]
    exact blocked_fresh (suffixed_injective name) n.scopeNames n.nextId
  · rw [if_neg h]
    simp only [Bool.or_eq_true, decide_eq_true_eq, not_or] at h
    exact h.2

/-- It is handed out from then on. -/
theorem reserve_scopeNames (name : String) (multiplex : Bool) (n : Naming) :
    (n.reserve name multiplex).2.scopeNames = (n.reserve name multiplex).1 :: n.scopeNames := by
  unfold reserve
  by_cases h : (multiplex || decide (name ∈ n.scopeNames)) = true
  · rw [if_pos h]
  · rw [if_neg h]

/-- Names of scopes are none of slots. -/
theorem reserve_used (name : String) (multiplex : Bool) (n : Naming) :
    (n.reserve name multiplex).2.used = n.used := by
  unfold reserve
  by_cases h : (multiplex || decide (name ∈ n.scopeNames)) = true
  · rw [if_pos h]
  · rw [if_neg h]

end Naming

/-! ### All calls that made a name -/

/-- A call that made a name. -/
structure Generation where
  /-- The name of the scope that the name was made for. -/
  scope : String
  /-- The slot. -/
  slot : String
  /-- The name. -/
  name : String
  deriving DecidableEq, Repr

namespace Naming

/-- Another policy for names of rules, or another next number, but nothing
    of what was handed out. -/
structure Switched (n n' : Naming) : Prop where
  scopeNames : n'.scopeNames = n.scopeNames
  used : n'.used = n.used

/-- Going over to short names hands out none. -/
theorem switched_useOptimized (lead : String) (n : Naming) : Switched n (n.useOptimized lead) :=
  ⟨rfl, rfl⟩

/-- **What led to a state of naming,** with the calls that made names for rules, latest first. The
    policy may have been another one at each of them. -/
inductive History (start : Naming) : List Generation → Naming → Prop
  /-- Nothing yet. -/
  | start : History start [] start
  /-- A name for a slot. -/
  | generate {calls n} (before : History start calls n) (scope slot : String) :
    History start (⟨scope, slot, (n.generate scope slot).name⟩ :: calls)
      (n.generate scope slot).naming
  /-- A name for a scope. -/
  | reserve {calls n} (before : History start calls n) (name : String) (multiplex : Bool) :
    History start calls (n.reserve name multiplex).2
  /-- Another policy. -/
  | policy {calls n n'} (before : History start calls n) (change : Switched n n') :
    History start calls n'

namespace History

variable {start : Naming} {calls calls' : List Generation}

/-- What led from one state to another one continues what led to the first. -/
theorem append (h : History start calls n) {n' : Naming} (h' : History n calls' n') :
    History start (calls' ++ calls) n' := by
  induction h' with
  | start => exact h
  | generate before scope slot ih => exact ih.generate scope slot
  | reserve before name multiplex ih => exact ih.reserve name multiplex
  | policy before change ih => exact ih.policy change

/-- Scope names stay handed out. -/
theorem scopeNames_subset (h : History start calls n) : start.scopeNames ⊆ n.scopeNames := by
  induction h with
  | start => exact List.Subset.refl _
  | generate before scope slot ih => rwa [generate_scopeNames]
  | reserve before name multiplex ih =>
    rw [reserve_scopeNames]
    exact List.subset_cons_of_subset _ ih
  | policy before change ih => rwa [change.scopeNames]

/-- The names handed out are those that the calls made, in order. -/
theorem used_eq (h : History start calls n) (hs : start.used = []) :
    n.used = calls.map (·.name) := by
  induction h with
  | start => exact hs
  | generate before scope slot ih => rw [generate_used, ih, List.map_cons]
  | reserve before name multiplex ih => rw [reserve_used, ih]
  | policy before change ih => rw [change.used, ih]

/-- **No two calls made the same name.** -/
theorem names_nodup (h : History start calls n) (hs : start.used = []) :
    (calls.map (·.name)).Nodup := by
  induction h with
  | start => exact List.nodup_nil
  | @generate calls n before scope slot ih =>
    rw [List.map_cons, List.nodup_cons, ← before.used_eq hs]
    exact ⟨generate_fresh n scope slot, before.used_eq hs ▸ ih⟩
  | reserve before name multiplex ih => exact ih
  | policy before change ih => exact ih

/-- The calls with one of the names: there is just the one. -/
theorem filter_name (h : History start calls n) (hs : start.used = []) {call : Generation}
    (hc : call ∈ calls) : calls.filter (·.name = call.name) = [call] := by
  have hnodup := h.names_nodup hs
  clear h
  induction calls with
  | nil => cases hc
  | cons first rest ih =>
    rw [List.map_cons, List.nodup_cons] at hnodup
    rcases List.mem_cons.mp hc with rfl | hmem
    · have hnone : rest.filter (·.name = call.name) = [] := by
        rw [List.filter_eq_nil_iff]
        intro other ho
        simp only [decide_eq_true_eq]
        exact fun heq => hnodup.1 (heq ▸ List.mem_map_of_mem ho)
      rw [List.filter_cons_of_pos (by simp), hnone]
    · have hne : first.name ≠ call.name := fun heq =>
        hnodup.1 (heq ▸ List.mem_map_of_mem hmem)
      rw [List.filter_cons_of_neg (by simpa using hne)]
      exact ih hmem hnodup.2

end History

end Naming

end StyleBook
