import StyleBook.Proofs.Script.Runs
import StyleBook.Proofs.Sink.Inserting

namespace StyleBook

/-!
# Who uses a scope

A scope has as many users as the program has activated it and not deactivated it again, and as
there are active scopes that reference it.

* `Engine.held` — the users of a scope that no active scope accounts for;
* `Engine.Inserts.held`, `Engine.Releases.held` — activating a scope gives it one, deactivating it
  takes one away, whatever happens to other scopes on the way;
* `Run.users_eq` — the users of every scope, after every call of a run.
-/

namespace Engine

variable {e e₁ e' : Engine} {id k : ScopeId} {s t : Scope} {ids cleared : List ScopeId}
  {blocks : Journal}

/-- How many active scopes reference a scope. -/
def activeReferencers (id : ScopeId) (e : Engine) : Nat :=
  e.scopes.countP fun (_, t) => 0 < t.users ∧ id ∈ t.references

/-- The users of a scope that no active scope accounts for. -/
def held (k : ScopeId) (e : Engine) : Int := e.usersOf k - e.activeReferencers k

/-! ### Counting active scopes -/

/-- The scope is active and references `id`. -/
def Refers (id : ScopeId) (e : Engine) (k : ScopeId) : Prop :=
  ∃ t, e.scope? k = some t ∧ 0 < t.users ∧ id ∈ t.references

/-- Engines in which the same active scopes reference a scope count them alike. -/
theorem activeReferencers_congr (h : e.scopes.keys.Nodup) (h' : e'.scopes.keys.Nodup)
    (hiff : ∀ k, Refers id e' k ↔ Refers id e k) :
    e'.activeReferencers id = e.activeReferencers id := by
  -- Those that are counted are listed under their numbers, without repetition, so the lists are
  -- permutations of each other.
  have hmem : ∀ (e : Engine), e.scopes.keys.Nodup → ∀ k,
      k ∈ (e.scopes.filter fun (_, t) => 0 < t.users ∧ id ∈ t.references).map Prod.fst ↔
        Refers id e k := by
    intro e h k
    simp only [List.mem_map, List.mem_filter, decide_eq_true_eq]
    constructor
    · rintro ⟨⟨k, t⟩, ⟨hmem, hp⟩, rfl⟩
      exact ⟨t, Dict.get?_of_mem h hmem, hp⟩
    · rintro ⟨t, ht, hp⟩
      exact ⟨(k, t), ⟨Dict.mem_of_get? ht, hp⟩, rfl⟩
  have hnodup : ∀ (e : Engine), e.scopes.keys.Nodup →
      ((e.scopes.filter fun (_, t) => 0 < t.users ∧ id ∈ t.references).map Prod.fst).Nodup :=
    fun e h => (List.filter_sublist.map Prod.fst).nodup h
  have hperm := (List.perm_ext_iff_of_nodup (hnodup e' h') (hnodup e h)).mpr fun k => by
    rw [hmem e' h', hmem e h, hiff]
  have hlen := hperm.length_eq
  rw [List.length_map, List.length_map] at hlen
  unfold activeReferencers
  rw [List.countP_eq_length_filter, List.countP_eq_length_filter]
  exact hlen

/-- A change of one scope changes the count by that scope. -/
theorem activeReferencers_modifyScope (hs : e.scope? id = some s) (f : Scope → Scope)
    (k : ScopeId) :
    (e.modifyScope id f).activeReferencers k + (if 0 < s.users ∧ k ∈ s.references then 1 else 0) =
      e.activeReferencers k + (if 0 < (f s).users ∧ k ∈ (f s).references then 1 else 0) := by
  have hscopes : (e.modifyScope id f).scopes = e.scopes.insert id (f s) := by
    unfold modifyScope
    rw [hs]
  unfold activeReferencers
  rw [hscopes]
  have := Dict.countP_insert hs (f s) fun (_, t) => 0 < t.users ∧ k ∈ t.references
  simpa only [decide_eq_true_eq] using this

/-- An active scope that references another one is counted. -/
theorem activeReferencers_pos (hs : e.scope? id = some s) (hu : 0 < s.users)
    (hk : k ∈ s.references) : 0 < e.activeReferencers k :=
  List.countP_pos_iff.mpr ⟨(id, s), Dict.mem_of_get? hs, by simp [hu, hk]⟩

/-! ### One step -/

/-- Holds are kept with the scopes. -/
theorem held_of_scopes (h : e'.scopes = e.scopes) (k : ScopeId) : e'.held k = e.held k := by
  unfold held activeReferencers
  rw [usersOf_of_scopes h, h]

/-- A scope whose users change is held by as many more, and if it becomes active or no longer is,
    it accounts for users of its references or no longer does. -/
theorem held_modifyScope (ht : e.scope? id = some t) {f : Scope → Scope}
    (hrefs : (f t).references = t.references) (k : ScopeId) :
    (e.modifyScope id f).held k =
      e.held k + (if k = id then ((f t).users : Int) - t.users else 0) +
        ((if 0 < t.users ∧ k ∈ t.references then 1 else 0) -
          if 0 < (f t).users ∧ k ∈ t.references then 1 else 0) := by
  have hcount := activeReferencers_modifyScope ht f k
  rw [hrefs] at hcount
  have husers : (e.modifyScope id f).usersOf k = if k = id then (f t).users else e.usersOf k :=
    usersOf_modifyScope ht
  have hold : k = id → e.usersOf k = t.users := fun hk => hk ▸ usersOf_eq ht
  unfold held
  rw [husers]
  by_cases hk : k = id
  · rw [if_pos hk, if_pos hk, hold hk]
    split_ifs at hcount ⊢ <;> omega
  · rw [if_neg hk, if_neg hk]
    split_ifs at hcount ⊢ <;> omega

/-- Users come or go between the last and the first one. -/
theorem held_setUsers (hs : e.scope? id = some s) (hpos : 0 < s.users) {users : Nat}
    (hpos' : 0 < users) (k : ScopeId) :
    (e.setUsers id users).held k = e.held k + if k = id then (users : Int) - s.users else 0 := by
  have h : (e.setUsers id users).held k = _ :=
    held_modifyScope hs (f := fun s => { s with users }) rfl k
  rw [h]
  simp only [hpos, hpos', true_and, sub_self, add_zero]

/-- A scope's first user makes it account for a user of each of its references. -/
theorem held_markInserted (ht : e.scope? id = some t) (hu : t.users = 0) (s : Scope)
    (k : ScopeId) :
    (e.markInserted id s).held k =
      e.held k + (if k = id then 1 else 0) - if k ∈ t.references then 1 else 0 := by
  have h : (e.markInserted id s).held k = _ :=
    held_modifyScope ht (f := fun s => { s with users := 1, state := .inserted }) rfl k
  rw [h]
  simp only [hu, lt_irrefl, false_and, if_false, Nat.one_pos, true_and]
  split <;> split <;> omega

/-- Without its last user, a scope no longer accounts for users of its references. -/
theorem held_clear (ht : e.scope? id = some t) (hu : t.users = 1) (s : Scope) (k : ScopeId) :
    (e.clear id s).held k =
      e.held k - (if k = id then 1 else 0) + if k ∈ t.references then 1 else 0 := by
  have h : (e.clear id s).held k = _ :=
    held_modifyScope ht (f := fun s => { s with users := 0, state := .cleared }) rfl k
  rw [h]
  simp only [hu, lt_irrefl, false_and, if_false, Nat.one_pos, true_and]
  split <;> split <;> omega

/-! ### Activating and deactivating -/

variable {rank : ScopeId → Nat}

/-- Activating scopes that rank below a scope leaves its users alone. -/
theorem Inserts.usersOf_of_lt (h : Inserts e ids blocks e') (hr : Ranked rank e)
    (hlt : ∀ i ∈ ids, rank i < rank k) : e'.usersOf k = e.usersOf k := by
  induction h with
  | nil => rfl
  | @shared e e' id ids blocks s users hs hu _ ih =>
    have hstep : Rescoped (fun _ => Scope.Reused True) e
        ((e.setUsers id (users + 2)).report (.alreadyActive s.name (users + 2))) :=
      (Inserts.shared hs hu .nil).reused
    -- The scope ranks above all that are activated here, and above what these reference.
    have hne : k ≠ id := fun heq => lt_irrefl _ (heq ▸ hlt id (by simp))
    rw [ih (hr.rescoped hstep) fun i hi => hlt i (List.mem_cons_of_mem _ hi)]
    exact (usersOf_modifyScope hs).trans (if_neg hne)
  | @first e e₁ e' id ids inner blocks s texts ambient hs hu ht hrefs _ ihr ih =>
    have hambient : Rescoped (fun _ => Scope.Reused True) e { e with ambient } :=
      .of_scopes_eq rfl rfl rfl
    have hr₁ := (hr.rescoped hambient).rescoped hrefs.reused
    have hmark : Rescoped (fun _ => Scope.Reused True) e₁ (e₁.markInserted id s) :=
      (Rescoped.modifyScope fun _ _ => .insert trivial Nat.one_pos).trans (.report _)
    have hid := hlt id (by simp)
    have hne : k ≠ id := fun heq => lt_irrefl _ (heq ▸ hid)
    rw [ih (hr₁.rescoped hmark) fun i hi => hlt i (List.mem_cons_of_mem _ hi)]
    obtain ⟨t, ht', -⟩ := (hambient.trans hrefs.reused).scope hs
    refine ((usersOf_modifyScope ht').trans (if_neg hne)).trans ?_
    exact ihr (hr.rescoped hambient) fun r hrm => ((hr.reference hs hrm).1).trans hid

/-- How often a number is counted in a longer list. -/
theorem count_cons_int (id k : ScopeId) (ids : List ScopeId) :
    ((id :: ids).count k : Int) = ids.count k + if k = id then 1 else 0 := by
  rw [List.count_cons]
  by_cases hk : k = id
  · simp [hk]
  · simp [hk, Ne.symm hk]

/-- **Activating scopes gives each of them one user that no active scope accounts for.** -/
theorem Inserts.held_eq (h : Inserts e ids blocks e') (hs : Sound [] e) (hr : Ranked rank e)
    (k : ScopeId) : e'.held k = e.held k + ids.count k := by
  induction h with
  | nil => simp
  | @shared e e' id ids blocks s users hid hu _ ih =>
    have hstep : Rescoped (fun _ => Scope.Reused True) e
        ((e.setUsers id (users + 2)).report (.alreadyActive s.name (users + 2))) :=
      (Inserts.shared hid hu .nil).reused
    rw [ih (hs.reused hstep) (hr.rescoped hstep)]
    change (e.setUsers id (users + 2)).held k + _ = _
    rw [held_setUsers hid (by omega) (by omega), count_cons_int]
    split <;> omega
  | @first e e₁ e' id ids inner blocks s texts ambient hid hu ht hrefs _ ihr ih =>
    have hambient : Rescoped (fun _ => Scope.Reused True) e { e with ambient } :=
      .of_scopes_eq rfl rfl rfl
    have hmark : Rescoped (fun _ => Scope.Reused True) e₁ (e₁.markInserted id s) :=
      (Rescoped.modifyScope fun _ _ => .insert trivial Nat.one_pos).trans (.report _)
    have hs₁ := (hs.reused hambient).reused hrefs.reused
    have hr₁ := (hr.rescoped hambient).rescoped hrefs.reused
    obtain ⟨t, ht', hR⟩ := (hambient.trans hrefs.reused).scope hid
    -- The references rank below the scope, which has no users when they are active.
    have husers : t.users = 0 := by
      have := hrefs.usersOf_of_lt (k := id) (hr.rescoped hambient) fun r hrm =>
        (hr.reference hid hrm).1
      rw [← usersOf_eq ht', this]
      exact (usersOf_eq hid).trans hu
    have hinner : e₁.held k = e.held k + s.references.count k :=
      ihr (hs.reused hambient) (hr.rescoped hambient)
    rw [ih (hs₁.reused hmark) (hr₁.rescoped hmark), held_markInserted ht' husers, hinner,
      hR.references, (hs.linked.references_nodup hid).count, count_cons_int]
    split <;> split <;> push_cast <;> omega

/-- **Deactivating scopes takes from each of them one user that no active scope accounts for,** if
    they have as many. -/
theorem Releases.held_eq (h : Releases e ids cleared e') (hs : Sound [] e)
    (hheld : ∀ k, (ids.count k : Int) ≤ e.held k) (k : ScopeId) :
    e'.held k = e.held k - ids.count k := by
  induction h generalizing k with
  | nil => simp
  | @idle e e' id ids cleared s hid hu _ _ =>
    -- A scope without users has none that could be taken.
    have hone := hheld id
    unfold held at hone
    rw [usersOf_eq hid, hu, List.count_cons_self] at hone
    omega
  | @shared e e' id ids cleared s users hid hu _ ih =>
    have hstep : Rescoped (fun _ => Scope.Reused True) e
        ((e.setUsers id (users + 1)).report (.stillInUse s.name (users + 1))) :=
      (Releases.shared hid hu .nil).reused
    have hafter : ∀ k,
      ((e.setUsers id (users + 1)).report (.stillInUse s.name (users + 1))).held k =
        e.held k - if k = id then 1 else 0 := by
      intro k
      refine (held_setUsers hid (by omega) (by omega) k).trans ?_
      split <;> omega
    rw [ih (hs.reused hstep) (fun k => ?_) k, hafter, count_cons_int]
    · omega
    · rw [hafter]
      have := hheld k
      rw [count_cons_int] at this
      omega
  | @last e e₁ e' id ids inner cleared s hid hu hrefs _ ihr ih =>
    have hclear : Rescoped (fun _ => Scope.Reused True) e (e.clear id s) :=
      (Rescoped.modifyScope fun _ _ => .clear trivial).trans (.report _)
    have hcount : ∀ k, (s.references.reverse.count k : Int) =
        if k ∈ s.references then 1 else 0 := by
      intro k
      rw [List.count_reverse, (hs.linked.references_nodup hid).count]
      split <;> rfl
    -- What the scope accounted for is held by its references now, until they are released.
    have hinner : ∀ k, e₁.held k = e.held k - if k = id then 1 else 0 := by
      intro k
      rw [ihr (hs.reused hclear) (fun k => ?_) k, held_clear hid hu, hcount]
      · omega
      · rw [held_clear hid hu, hcount]
        have := hheld k
        rw [count_cons_int] at this
        omega
    rw [ih ((hs.reused hclear).reused hrefs.reused) (fun k => ?_) k, hinner, count_cons_int]
    · omega
    · rw [hinner]
      have := hheld k
      rw [count_cons_int] at this
      omega

/-! ### Other calls -/

/-- Users and what they hold are as before if all scopes keep their users and references, and those
    that come in have no users. -/
theorem users_congr (h : e.scopes.keys.Nodup) (h' : e'.scopes.keys.Nodup)
    (hsame : ∀ {j t}, e.scope? j = some t →
      ∃ t', e'.scope? j = some t' ∧ t'.users = t.users ∧ t'.references = t.references)
    (hborn : ∀ {j t'}, e'.scope? j = some t' → e.scope? j = none → t'.users = 0) (k : ScopeId) :
    e'.usersOf k = e.usersOf k ∧ e'.held k = e.held k := by
  have husers : e'.usersOf k = e.usersOf k := by
    cases ht : e.scope? k with
    | some t =>
      obtain ⟨t', ht', hu, -⟩ := hsame ht
      rw [usersOf_eq ht, usersOf_eq ht', hu]
    | none =>
      have hzero : e.usersOf k = 0 := by
        unfold usersOf
        rw [ht]
        rfl
      -- A scope that was not there has no users yet, if it is there now.
      cases ht' : e'.scope? k with
      | none =>
        unfold usersOf
        rw [ht, ht']
      | some t' => rw [usersOf_eq ht', hborn ht' ht, hzero]
  refine ⟨husers, ?_⟩
  unfold held
  rw [husers, activeReferencers_congr h h' fun j => ?_]
  constructor
  · rintro ⟨t', ht', hpos, hmem⟩
    cases ht : e.scope? j with
    | none => exact absurd (hborn ht' ht) (Nat.ne_of_gt hpos)
    | some t =>
      obtain ⟨u, hu', hu, hrefs⟩ := hsame ht
      cases ht'.symm.trans hu'
      exact ⟨t, ht, hu ▸ hpos, hrefs ▸ hmem⟩
  · rintro ⟨t, ht, hpos, hmem⟩
    obtain ⟨t', ht', hu, hrefs⟩ := hsame ht
    exact ⟨t', ht', hu ▸ hpos, hrefs ▸ hmem⟩

/-- So they are if scopes are only rewritten. -/
theorem Rescoped.users_eq {R : ScopeId → Scope → Scope → Prop} (h : Linked e)
    (hR : Rescoped R e e') (hsame : ∀ {j t t'}, e.scope? j = some t → e'.scope? j = some t' →
      R j t t' → t'.users = t.users ∧ t'.references = t.references) (k : ScopeId) :
    e'.usersOf k = e.usersOf k ∧ e'.held k = e.held k := by
  refine users_congr h.keys_nodup (hR.keys ▸ h.keys_nodup) (fun {j t} ht => ?_)
    (fun {j t'} ht' ht => ?_) k
  · obtain ⟨t', ht', hRt⟩ := hR.scope ht
    exact ⟨t', ht', hsame ht ht' hRt⟩
  · rw [scope?_eq_none_iff, ← hR.keys] at ht
    exact absurd (mem_keys_of_scope? ht') ht

/-- Restored users are held as before. -/
theorem held_of_usersOf (h : Linked e) (hR : Rescoped (fun _ => Scope.Reused True) e e')
    (hu : ∀ k, e'.usersOf k = e.usersOf k) (k : ScopeId) : e'.held k = e.held k := by
  refine (hR.users_eq h (fun {j t t'} ht ht' hRt => ⟨?_, hRt.references⟩) k).2
  rw [← usersOf_eq ht, ← usersOf_eq ht', hu]

/-- Names have nothing to do with users. -/
theorem users_of_renamed {P : ScopeId → Prop} (h : Linked e)
    (hR : Rescoped (fun k => Scope.Renamed (P k)) e e') (k : ScopeId) :
    e'.usersOf k = e.usersOf k ∧ e'.held k = e.held k := by
  refine hR.users_eq h (fun _ _ hRt => ?_) k
  have heq := hRt.eq_names
  exact ⟨by rw [heq], by rw [heq]⟩

/-- A definition leaves users alone, and new scopes have none. -/
theorem Extends.users_eq (h : Extends e e') (hs : Sound [] e) (hs' : Sound [] e') (k : ScopeId) :
    e'.usersOf k = e.usersOf k ∧ e'.held k = e.held k :=
  users_congr hs.linked.keys_nodup hs'.linked.keys_nodup
    (fun ht => ⟨_, h.settled ht (hs.settled ht), rfl, rfl⟩)
    (fun ht' ht => (h.born ht' ht).2) k

section Calls

variable {σ : Type} [Sink σ] {sink : σ} {s' : Engine × σ}

/-- An activation that succeeds adds one user. -/
theorem activate_ok_held (hs : Sound [] e) (h : activate id (e, sink) = (.ok (), s'))
    (k : ScopeId) : s'.1.held k = e.held k + if k = id then 1 else 0 := by
  obtain ⟨rank, hrank⟩ := hs.linked.exists_ranked
  obtain ⟨blocks, hins, -⟩ := activate_inserts h
  rw [hins.held_eq hs hrank k, count_cons_int]
  simp

/-- An activation that fails adds none. -/
theorem activate_error_held (hs : Sound [] e) {err : Error}
    (h : activate id (e, sink) = (.error err, s')) (k : ScopeId) : s'.1.held k = e.held k := by
  have hR := activate_reused hs.linked id sink
  rw [h] at hR
  exact held_of_usersOf hs.linked hR (activate_restores Sink.lawful_true hs.linked h).users k

/-- A deactivation that succeeds takes one user away, if there is one that can be taken. -/
theorem deactivate_ok_held (hs : Sound [] e) (h : deactivate id (e, sink) = (.ok (), s'))
    (hheld : ∀ k, (if k = id then 1 else 0) ≤ e.held k) (k : ScopeId) :
    s'.1.held k = e.held k - if k = id then 1 else 0 := by
  obtain ⟨cleared, hrel, -⟩ := deactivate_releases h
  rw [hrel.held_eq hs (fun k => ?_) k, count_cons_int]
  · simp
  · rw [count_cons_int]
    simpa using hheld k

end Calls

end Engine

/-! ### Runs -/

variable {μ : Type} {library : Library μ} {steps : List (Request μ × Answer)}

/-- The call has added a user to the scope. -/
def Request.activated (id : ScopeId) : Request μ × Answer → Bool
  | (.activate k, .ok _) => k = id
  | (.activateDefinition _ _, .ok answer) => answer = some id
  | _ => false

/-- The call has released a user of the scope. -/
def Request.deactivated (id : ScopeId) : Request μ × Answer → Bool
  | (.deactivate k, .ok _) => k = id
  | _ => false

/-- No call does both. -/
theorem Request.activated_of_deactivated {id : ScopeId} {step : Request μ × Answer}
    (h : Request.deactivated id step = true) : Request.activated id step = false := by
  obtain ⟨request, r⟩ := step
  cases request <;> first | rfl | cases h

/-- How often calls have added a user to a scope. -/
def activations (id : ScopeId) (steps : List (Request μ × Answer)) : Nat :=
  steps.countP (Request.activated id)

/-- How often calls have released a user of a scope. -/
def deactivations (id : ScopeId) (steps : List (Request μ × Answer)) : Nat :=
  steps.countP (Request.deactivated id)

/-- At no time was a scope deactivated more often than it was activated. -/
def Balanced (steps : List (Request μ × Answer)) : Prop :=
  ∀ before, before <+: steps → ∀ id, deactivations id before ≤ activations id before

/-- The balance of a scope after one more call. -/
theorem activations_concat (id : ScopeId) (step : Request μ × Answer) :
    activations id (steps ++ [step]) =
      activations id steps + if Request.activated id step then 1 else 0 := by
  unfold activations
  rw [List.countP_append, List.countP_singleton]

/-- Releases of one more call. -/
theorem deactivations_concat (id : ScopeId) (step : Request μ × Answer) :
    deactivations id (steps ++ [step]) =
      deactivations id steps + if Request.deactivated id step then 1 else 0 := by
  unfold deactivations
  rw [List.countP_append, List.countP_singleton]

open Engine

/-- **A call gives and takes the users that it says,** if no scope is deactivated that is not
    held. -/
theorem Performed.held_eq {σ : Type} [Sink σ] {request : Request μ} {s s' : Session μ σ}
    {r : Answer} (h : Performed library request s r s') (hs : Sound [] s.engine)
    (hheld : ∀ k, (if Request.deactivated k (request, r) then 1 else 0) ≤ s.engine.held k)
    (k : ScopeId) :
    s'.engine.held k = s.engine.held k + (if Request.activated k (request, r) then 1 else 0) -
      if Request.deactivated k (request, r) then 1 else 0 := by
  -- Building, naming and configuring leave users alone; what is left are activations and releases,
  -- by whether they succeed.
  cases h with
  | process h =>
    obtain ⟨hs', hx⟩ := (process_builds hs h).1.sound hs
    rw [(hx.users_eq hs hs' _).2]
    simp [Request.activated, Request.deactivated]
  | processInstance h =>
    obtain ⟨hs', hx⟩ := (processInstance_builds hs h).1.sound hs
    rw [(hx.users_eq hs hs' _).2]
    simp [Request.activated, Request.deactivated]
  | @activate id s r e sink h =>
    rcases r with err | ⟨⟩
    · rw [activate_error_held hs h]
      simp [Request.activated, Request.deactivated, Except.map]
    · rw [activate_ok_held hs h]
      simp [Request.activated, Request.deactivated, Except.map, eq_comm]
  | unprocessed h =>
    obtain ⟨hs', hx⟩ := (process_builds hs h).1.sound hs
    rw [(hx.users_eq hs hs' _).2]
    simp [Request.activated, Request.deactivated]
  | @activateDefinition limit key s id e m r e' sink h h' =>
    obtain ⟨hs', hx⟩ := (process_builds hs h).1.sound hs
    have hbuilt := (hx.users_eq hs hs' k).2
    rcases r with err | ⟨⟩
    · rw [activate_error_held hs' h', hbuilt]
      simp [Request.activated, Request.deactivated, Except.map]
    · rw [activate_ok_held hs' h', hbuilt]
      simp [Request.activated, Request.deactivated, Except.map, eq_comm]
  | @deactivate id s r e sink h =>
    rcases r with err | ⟨⟩
    · obtain ⟨rank, hrank⟩ := hs.linked.exists_ranked
      cases (deactivate_error hrank h).2
      simp [Request.activated, Request.deactivated, Except.map]
    · rw [deactivate_ok_held hs h fun k => by
        simpa [Request.deactivated, Except.map, eq_comm] using hheld k]
      simp [Request.activated, Request.deactivated, Except.map, eq_comm]
  | @nameFor id slot s r e h =>
    have hR := nameFor_renamed id slot s.engine
    rw [h] at hR
    rw [(users_of_renamed hs.linked hR k).2]
    simp [Request.activated, Request.deactivated]
  | configure h =>
    subst h
    simp only [Request.activated, Request.deactivated, Bool.false_eq_true, if_false, add_zero,
      sub_zero]
    exact held_of_scopes rfl k

/-- A scope is held by the program as often as it was activated and not deactivated. -/
theorem Run.held_eq {naming : NamingConfig} {catalog : Catalog} {ambient : Ambient} {memory : μ}
    {s : Engine × μ} (h : Run library (create naming catalog ambient, memory) steps s)
    (hb : Balanced steps) (k : ScopeId) :
    s.1.held k = (activations k steps : Int) - deactivations k steps := by
  -- By induction on the calls: the balance of the longer run bounds what the last call releases.
  induction h generalizing k with
  | start => rfl
  | @call σ _ steps e m r s' before request sink h ih =>
    have hbefore : Balanced steps := fun prior hprior =>
      hb prior (hprior.trans (List.prefix_append _ _))
    have hs := before.sound (sound_create naming catalog ambient)
    have hlast := hb _ (List.prefix_refl _)
    have hstep := (Request.performed h).held_eq hs fun j => ?_
    · rw [hstep, ih hbefore, activations_concat, deactivations_concat]
      push_cast
      omega
    · -- The deactivation that is to come is balanced by what has been activated before.
      rw [ih hbefore]
      have hj := hlast j
      rw [activations_concat, deactivations_concat] at hj
      by_cases hd : Request.deactivated j (request, r) = true
      · rw [Request.activated_of_deactivated hd, if_pos hd] at hj
        rw [if_pos hd]
        simp only [Bool.false_eq_true, if_false] at hj
        omega
      · have hle := hbefore _ (List.prefix_refl _) j
        rw [if_neg hd]
        omega

/-- **The users of a scope** are those that the program has added and not released, and one for
    each active scope that references it; the scope is in the sink as long as it has users, and as
    long as it is active all that it references is active. -/
theorem Run.users_balance {naming : NamingConfig} {catalog : Catalog}
    {ambient : Ambient} {memory : μ}
    {e : Engine} {m : μ} (h : Run library (create naming catalog ambient, memory) steps (e, m))
    (hb : Balanced steps) {id : ScopeId} {s : Scope} (hs : e.scope? id = some s) :
    s.users = activations id steps - deactivations id steps + e.activeReferencers id ∧
      (s.state = .inserted ↔ 0 < s.users) ∧
      (0 < s.users → ∀ r ∈ s.references, ∃ t, e.scope? r = some t ∧ 0 < t.users) := by
  have hsound := h.sound (sound_create naming catalog ambient)
  have husers : ∀ {id s}, e.scope? id = some s →
      s.users = activations id steps - deactivations id steps + e.activeReferencers id := by
    intro id s hs
    have hheld : e.held id = _ := h.held_eq hb id
    -- Both counts are natural numbers, and the difference is no cut-off by balance.
    have hle := hb steps (List.prefix_refl _) id
    unfold held at hheld
    rw [usersOf_eq hs] at hheld
    omega
  refine ⟨husers hs, hsound.linked.inserted_iff hs, fun hpos r hr => ?_⟩
  obtain ⟨t, ht, -⟩ := hsound.linked.reference_ready hs hr
  refine ⟨t, ht, ?_⟩
  have := activeReferencers_pos hs hpos hr
  rw [husers ht]
  omega

/-- Activated directly and for the scope that uses it, and then no longer for that one. -/
theorem users_of_shared_scope :
    ∃ steps e s, Run sampleLibrary (create {} .empty .initial, ()) steps (e, ()) ∧
      Balanced steps ∧ e.scope? 2 = some s ∧ s.users = 1 ∧
      (s.users = activations 2 steps - deactivations 2 steps + e.activeReferencers 2 ∧
        (s.state = .inserted ↔ 0 < s.users) ∧
        (0 < s.users → ∀ r ∈ s.references, ∃ t, e.scope? r = some t ∧ 0 < t.users)) := by
  have hout :
    ((Session.performAll sampleLibrary [.activateDefinition 2 0, .activate 2, .deactivate 1]
      (freshSession TextSink.empty)).any fun out =>
        out.1.map (·.2.toOption) = [some 1, some 2, none].map some &&
          (out.2.engine.scope? 2).any (·.users = 1)) = true := by decide +kernel
  obtain ⟨⟨steps, s'⟩, hall, hp⟩ := (Option.any_eq_true _ _).mp hout
  simp only [Bool.and_eq_true, decide_eq_true_eq] at hp
  obtain ⟨s, hs, hu⟩ := (Option.any_eq_true _ _).mp hp.2
  have hrun := Run.performAll .start hall
  have hb : Balanced steps := by
    rw [Session.performAll_eq_zip hall hp.1]
    intro before hbefore id
    simp only [List.map_cons, List.map_nil, List.zip_cons_cons, List.zip_nil_right,
      List.prefix_cons_iff, List.prefix_nil] at hbefore
    rcases hbefore with rfl | ⟨_, rfl, rfl | ⟨_, rfl, rfl | ⟨_, rfl, rfl⟩⟩⟩ <;>
      simp [activations, deactivations, Request.activated, Request.deactivated, List.countP_cons]
  exact ⟨steps, s'.engine, s, hrun, hb, hs, by simpa using hu, hrun.users_balance hb hs⟩

end StyleBook
