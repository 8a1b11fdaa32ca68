import StyleBook.Proofs.Engine.Links

namespace StyleBook

/-!
# What discarding takes away

Discarding a scope takes the scopes inside of it away and leaves the others as they are.

* `Engine.Without Gone` — an engine has the scopes of another one, except for those in `Gone`;
* `Engine.discard_without` — discarding a scope takes away what is inside of it.
-/

namespace Engine

variable {e e₀ e' : Engine} {id k : ScopeId} {Gone : ScopeId → Prop}

open Classical in
/-- The second engine has the scopes of the first one, except for those in `Gone`. -/
structure Without (Gone : ScopeId → Prop) (e₀ e : Engine) : Prop where
  keys : e.scopes.keys = e₀.scopes.keys.filter (¬ Gone ·)
  scope?_of_not {k : ScopeId} : ¬ Gone k → e.scope? k = e₀.scope? k
  singletons : e.singletons = e₀.singletons
  nextScope : e.nextScope = e₀.nextScope

namespace Without

/-- What is gone is not found. -/
theorem scope?_of (h : Without Gone e₀ e) (hk : Gone k) : e.scope? k = none := by
  rw [scope?_eq_none_iff, h.keys, List.mem_filter]
  simp [hk]

/-- What is found is not gone. -/
theorem scope?_some (h : Without Gone e₀ e) {s : Scope} (hs : e.scope? k = some s) :
    ¬ Gone k ∧ e₀.scope? k = some s := by
  by_cases hk : Gone k
  · rw [h.scope?_of hk] at hs
    cases hs
  · exact ⟨hk, h.scope?_of_not hk ▸ hs⟩

/-- Which scopes are gone matters, and not how that is said. -/
theorem congr {Gone' : ScopeId → Prop} (h : Without Gone e₀ e) (hiff : ∀ k, Gone k ↔ Gone' k) :
    Without Gone' e₀ e := by
  have heq : Gone = Gone' := funext fun k => propext (hiff k)
  exact heq ▸ h

theorem refl (e : Engine) : Without (fun _ => False) e e := ⟨by simp, fun _ => rfl, rfl, rfl⟩

/-- One more scope taken away. -/
theorem erase (h : Without Gone e₀ e) (id : ScopeId) :
    Without (fun k => Gone k ∨ k = id) e₀ { e with scopes := e.scopes.erase id } where
  keys := by
    rw [Dict.keys_erase, h.keys, List.filter_filter]
    refine List.filter_congr fun k _ => ?_
    by_cases hk : k = id <;> simp [hk]
  scope?_of_not {k} hk := by
    rw [not_or] at hk
    show (e.scopes.erase id).get? k = _
    rw [Dict.get?_erase_of_ne hk.2]
    exact h.scope?_of_not hk.1
  singletons := h.singletons
  nextScope := h.nextScope

/-- The more is gone, the fewer scopes are left. -/
theorem length_le {Gone' : ScopeId → Prop} (h : Without Gone e₀ e) (h' : Without Gone' e₀ e')
    (himp : ∀ k, Gone k → Gone' k) : e'.scopes.length ≤ e.scopes.length := by
  have hkeys : e'.scopes.keys.length ≤ e.scopes.keys.length := by
    rw [h.keys, h'.keys]
    refine (List.monotone_filter_right _ fun k hk => ?_).length_le
    simp only [decide_eq_true_eq] at hk ⊢
    exact fun hc => hk (himp k hc)
  simpa [Dict.keys] using hkeys

end Without

/-- Nested scopes that are discarded one after the other take away what is inside of them, when
    nothing of it was taken away before. -/
theorem foldl_discardWithin_without (h : Linked e₀) {s : Scope} (hs : e₀.scope? id = some s)
    {limit : Nat} (hdiscard : ∀ {Gone : ScopeId → Prop} {c : ScopeId} {e : Engine},
      Without Gone e₀ e →
      (∃ t, e₀.scope? c = some t) → (∀ k, e₀.Inside c k → ¬ Gone k) → e.scopes.length < limit →
        Without (fun k => Gone k ∨ e₀.Inside c k) e₀ (discardWithin limit c e))
    (list : List ScopeId) (hnodup : list.Nodup) (hmem : ∀ c ∈ list, c ∈ s.children)
    (h₀ : Without Gone e₀ e) (hdisjoint : ∀ c ∈ list, ∀ k, e₀.Inside c k → ¬ Gone k)
    (hlimit : e.scopes.length < limit) :
    Without (fun k => Gone k ∨ ∃ c ∈ list, e₀.Inside c k) e₀
      (list.foldl (fun e child => discardWithin limit child e) e) := by
  induction list generalizing Gone e with
  | nil => exact h₀.congr fun k => by simp
  | cons c rest ih =>
    rw [List.nodup_cons] at hnodup
    have hc : c ∈ s.children := hmem c List.mem_cons_self
    obtain ⟨t, ht, -⟩ := h.child_owner hs hc
    have hstep := hdiscard h₀ ⟨t, ht⟩ (hdisjoint c List.mem_cons_self) hlimit
    have hle := h₀.length_le hstep fun k => Or.inl
    rw [List.foldl_cons]
    refine (ih hnodup.2 (fun a ha => hmem a (List.mem_cons_of_mem c ha)) hstep ?_
      (lt_of_le_of_lt hle hlimit)).congr fun k => ?_
    · intro a ha k hin hgone
      rcases hgone with hgone | hin'
      · exact hdisjoint a (List.mem_cons_of_mem c ha) k hin hgone
      -- Nested scopes differ, so nothing is inside of two of them.
      · have hne : c ≠ a := fun heq => hnodup.1 (heq ▸ ha)
        exact h.children_disjoint hs hc (hmem a (List.mem_cons_of_mem c ha)) hne hin' hin
    · simp only [List.mem_cons, exists_eq_or_imp, or_assoc]

/-- Discarding takes away what is inside of a scope, when nothing of it was taken away before and
    the walk may be as long as there are scopes. -/
theorem discardWithin_without (h : Linked e₀) (limit : Nat) (h₀ : Without Gone e₀ e)
    (hlive : ∃ s, e₀.scope? id = some s) (hdisjoint : ∀ k, e₀.Inside id k → ¬ Gone k)
    (hlimit : e.scopes.length < limit) :
    Without (fun k => Gone k ∨ e₀.Inside id k) e₀ (discardWithin limit id e) := by
  induction limit generalizing id e Gone with
  | zero => exact absurd hlimit (Nat.not_lt_zero _)
  | succ limit ih =>
    obtain ⟨s, hs⟩ := hlive
    have hs' : e.scope? id = some s := by rw [h₀.scope?_of_not (hdisjoint id (.root hs)), hs]
    rw [discardWithin]
    simp only [hs']
    have herase := h₀.erase id
    -- The scope itself is gone before those nested in it, so the walk gets shorter.
    have hlength : (e.scopes.erase id).length < limit := by
      have hmem : id ∈ e.scopes.keys := mem_keys_of_scope? hs'
      have hlt : (e.scopes.erase id).keys.length < e.scopes.keys.length := by
        rw [Dict.keys_erase]
        exact List.length_filter_lt_length_iff_exists.mpr ⟨id, hmem, by simp⟩
      have : (e.scopes.erase id).length < e.scopes.length := by simpa [Dict.keys] using hlt
      omega
    refine (foldl_discardWithin_without h hs (fun h₀ hlive => ih h₀ hlive) s.children
      (h.children_nodup hs) (fun _ hc => hc) herase ?_ hlength).congr fun k => ?_
    · intro c hc k hin hgone
      obtain ⟨t, ht, howner⟩ := h.child_owner hs hc
      rcases hgone with hgone | rfl
      · exact hdisjoint k (.trans (.nested ht howner (.root hs)) hin) hgone
      · exact h.not_inside_child hs hc hin
    · rw [or_assoc]
      refine or_congr_right ⟨?_, fun hin => ?_⟩
      · rintro (rfl | ⟨c, hc, hin⟩)
        · exact .root hs
        · obtain ⟨t, ht, howner⟩ := h.child_owner hs hc
          exact .trans (.nested ht howner (.root hs)) hin
      · by_cases hk : k = id
        · exact .inl hk
        · exact .inr (h.inside_child hs hin hk)

/-- **Discarding a scope takes away what is inside of it.** -/
theorem discard_without (h : Linked e) (id : ScopeId) :
    Without (e.Inside id) e (e.discard id) := by
  cases hs : e.scope? id with
  | none =>
    have hnone : ∀ k, ¬ e.Inside id k := fun k hin => by
      obtain ⟨s, hs'⟩ := hin.root_live
      rw [hs] at hs'
      cases hs'
    have hsame : e.discard id = e := by
      unfold discard walkLimit discardWithin
      simp only [hs]
    rw [hsame]
    exact (Without.refl e).congr fun k => by simp [hnone k]
  | some s =>
    refine (discardWithin_without h e.walkLimit (.refl e) ⟨s, hs⟩ (fun _ _ => not_false)
      (Nat.lt_succ_self _)).congr fun k => ?_
    rw [false_or]

end Engine

end StyleBook
