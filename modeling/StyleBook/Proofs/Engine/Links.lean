import StyleBook.Proofs.Engine.Scopes

namespace StyleBook

/-!
# The links between scopes

What holds of the links of an engine at every moment, also while definitions declare rules.

* `Engine.Linked` — links lead to scopes that are there, references lead down, owners and nested
  scopes know each other, processed scopes are merged, and the scopes in a sink are those with
  users;
* `Engine.Sound roots` — moreover, the scopes that are not processed are those inside of `roots`,
  the scopes of the definitions that are declaring;
* `Engine.Extends` — what a definition leaves alone: processed scopes stay as they are, and the
  others stay where they are.
-/

/-! ### Scopes -/

namespace Scope

/-- The scope is processed; it may have been activated since. -/
def Settled (s : Scope) : Prop := s.state ≠ .unprocessed

/-- What each rule inherits is known. -/
def Merged (s : Scope) : Prop :=
  ∀ rule ∈ s.rules, rule.content.body?.isSome → rule.merged.isSome

/-- The order has the key of each rule once: a new key goes to its end, and none is taken out. -/
def Listed (s : Scope) : Prop := s.order = s.keys

/-- Changes that leave the order alone, and the number of rules, leave all keys in the order. -/
theorem Listed.congr {s s' : Scope} (h : s.Listed) (horder : s'.order = s.order)
    (hlength : s'.rules.length = s.rules.length) : s'.Listed := by
  unfold Listed keys at *
  rw [horder, hlength, h]

/-- A rule that comes in at the end of the table has the next key. -/
theorem Listed.append {s s' : Scope} {rule : Rule} (h : s.Listed)
    (horder : s'.order = s.order ++ [s.rules.length]) (hrules : s'.rules = s.rules ++ [rule]) :
    s'.Listed := by
  unfold Listed keys at *
  rw [horder, hrules, h, List.length_append, List.length_singleton, List.range_succ]

/-- The keys in the order are those of rules. -/
theorem Listed.mem_order {s : Scope} {key : Nat} (h : s.Listed) :
    key ∈ s.order ↔ key < s.rules.length := by rw [h, keys, List.mem_range]

/-- The scope is changed, but its links are not, and it stays processed if it was. -/
structure SameLinks (s s' : Scope) : Prop where
  owner : s'.owner = s.owner
  children : s'.children = s.children
  references : s'.references = s.references
  settled : s.Settled → s'.Settled
  listed : s.Listed → s'.Listed

/-- The scope is changed, but its links are not, nor is it processed. -/
structure Relinked (s s' : Scope) : Prop where
  owner : s'.owner = s.owner
  children : s'.children = s.children
  references : s'.references = s.references
  settled : s'.Settled ↔ s.Settled
  merged : s.Settled → s.Merged → s'.Merged
  inserted : (s.state = .inserted ↔ 0 < s.users) → (s'.state = .inserted ↔ 0 < s'.users)
  listed : s.Listed → s'.Listed

/-- What is linked again has the same links. -/
theorem Relinked.sameLinks {s s' : Scope} (h : Relinked s s') : SameLinks s s' :=
  ⟨h.owner, h.children, h.references, h.settled.mpr, h.listed⟩

/-- The scope is changed only if it is not processed, and its links are not. -/
structure Retouched (s s' : Scope) : Prop where
  owner : s'.owner = s.owner
  children : s'.children = s.children
  references : s'.references = s.references
  state : s'.state = s.state
  users : s'.users = s.users
  listed : s.Listed → s'.Listed
  settled : s.Settled → s' = s

instance : IsPreorder Scope Relinked where
  refl _ := ⟨rfl, rfl, rfl, .rfl, fun _ h => h, id, id⟩
  trans _ _ _ h h' :=
    { owner := h'.owner.trans h.owner
      children := h'.children.trans h.children
      references := h'.references.trans h.references
      settled := h'.settled.trans h.settled
      merged := fun hs hm => h'.merged (h.settled.mpr hs) (h.merged hs hm)
      inserted := h'.inserted ∘ h.inserted
      listed := h'.listed ∘ h.listed }

instance : IsPreorder Scope Retouched where
  refl _ := ⟨rfl, rfl, rfl, rfl, rfl, id, fun _ => rfl⟩
  trans s s' s'' h h' :=
    { owner := h'.owner.trans h.owner
      children := h'.children.trans h.children
      references := h'.references.trans h.references
      state := h'.state.trans h.state
      users := h'.users.trans h.users
      listed := h'.listed ∘ h.listed
      settled := fun hs => by
        have heq := h.settled hs
        subst heq
        exact h'.settled hs }

namespace Retouched

variable {s s' : Scope}

/-- Retouching does not decide whether a scope is processed. -/
theorem settled_iff (h : Retouched s s') : s'.Settled ↔ s.Settled := by
  unfold Settled
  rw [h.state]

theorem relinked (h : Retouched s s') : Relinked s s' where
  owner := h.owner
  children := h.children
  references := h.references
  settled := h.settled_iff
  merged hs hm := by rwa [h.settled hs]
  inserted hi := by rwa [h.state, h.users]
  listed := h.listed

end Retouched

end Scope

namespace Engine

/-! ### Links -/

/-- The links between the scopes of an engine are sound. -/
structure Linked (e : Engine) : Prop where
  /-- No two scopes have one key. -/
  keys_nodup : e.scopes.keys.Nodup
  /-- Ids were handed out in order. -/
  lt_nextScope {k s} : e.scope? k = some s → k < e.nextScope
  /-- A scope has a reference once. -/
  references_nodup {k s} : e.scope? k = some s → s.references.Nodup
  /-- References lead to processed scopes of definitions. -/
  reference_ready {k s r} : e.scope? k = some s → r ∈ s.references →
    ∃ t, e.scope? r = some t ∧ t.Settled ∧ t.owner = none
  /-- References lead down. -/
  ranked : ∃ rank : ScopeId → Nat, ∀ {k s r}, e.scope? k = some s → r ∈ s.references →
    rank r < rank k
  /-- A scope nests another one once. -/
  children_nodup {k s} : e.scope? k = some s → s.children.Nodup
  /-- A nested scope knows its owner. -/
  child_owner {k s c} : e.scope? k = some s → c ∈ s.children →
    ∃ t, e.scope? c = some t ∧ t.owner = some k
  /-- An owner is older, knows the nested scope, and is processed after it. -/
  owner_child {k t o} : e.scope? k = some t → t.owner = some o →
    o < k ∧ ∃ s, e.scope? o = some s ∧ k ∈ s.children ∧ (s.Settled → t.Settled)
  /-- The scope of a definition is there and is not nested. -/
  singleton_live {d id} : e.singletons.get? d = some id →
    ∃ s, e.scope? id = some s ∧ s.owner = none
  /-- No two definitions have one scope. -/
  singleton_inj {d d' id} : e.singletons.get? d = some id → e.singletons.get? d' = some id →
    d = d'
  /-- A processed scope is merged. -/
  merged {k s} : e.scope? k = some s → s.Settled → s.Merged
  /-- The scopes in a sink are those with users. -/
  inserted_iff {k s} : e.scope? k = some s → (s.state = .inserted ↔ 0 < s.users)
  /-- The order of a scope has the keys of its rules. -/
  listed {k s} : e.scope? k = some s → s.Listed

variable {e e' e'' : Engine} {id k : ScopeId} {roots : List ScopeId}

/-- The links stay sound if no scope's links are changed and processed scopes are as they
    should be. -/
theorem Linked.rescoped (h : Linked e) (hr : Rescoped (fun _ => Scope.SameLinks) e e')
    (howner : ∀ {k t o s}, e'.scope? k = some t → t.owner = some o → e'.scope? o = some s →
      s.Settled → t.Settled)
    (hmerged : ∀ {k s}, e'.scope? k = some s → s.Settled → s.Merged)
    (hinserted : ∀ {k s}, e'.scope? k = some s → (s.state = .inserted ↔ 0 < s.users)) :
    Linked e' where
  keys_nodup := hr.keys ▸ h.keys_nodup
  lt_nextScope hs' := by
    obtain ⟨s, hs, -⟩ := hr.back hs'
    exact hr.nextScope ▸ h.lt_nextScope hs
  references_nodup hs' := by
    obtain ⟨s, hs, hl⟩ := hr.back hs'
    exact hl.references ▸ h.references_nodup hs
  reference_ready hs' hm := by
    obtain ⟨s, hs, hl⟩ := hr.back hs'
    obtain ⟨t, ht, hsettled, ho⟩ := h.reference_ready hs (hl.references ▸ hm)
    obtain ⟨t', ht', hl'⟩ := hr.scope ht
    exact ⟨t', ht', hl'.settled hsettled, hl'.owner.trans ho⟩
  -- The same ranks serve, since references are the same.
  ranked := by
    obtain ⟨rank, hrank⟩ := h.ranked
    refine ⟨rank, fun hs' hm => ?_⟩
    obtain ⟨s, hs, hl⟩ := hr.back hs'
    exact hrank hs (hl.references ▸ hm)
  children_nodup hs' := by
    obtain ⟨s, hs, hl⟩ := hr.back hs'
    exact hl.children ▸ h.children_nodup hs
  child_owner hs' hm := by
    obtain ⟨s, hs, hl⟩ := hr.back hs'
    obtain ⟨t, ht, ho⟩ := h.child_owner hs (hl.children ▸ hm)
    obtain ⟨t', ht', hl'⟩ := hr.scope ht
    exact ⟨t', ht', hl'.owner.trans ho⟩
  owner_child ht' ho := by
    obtain ⟨t, ht, hl⟩ := hr.back ht'
    obtain ⟨hlt, s, hs, hm, -⟩ := h.owner_child ht (hl.owner ▸ ho)
    obtain ⟨s', hs', hl'⟩ := hr.scope hs
    exact ⟨hlt, s', hs', hl'.children ▸ hm, howner ht' ho hs'⟩
  singleton_live hd := by
    obtain ⟨s, hs, ho⟩ := h.singleton_live (hr.singletons ▸ hd)
    obtain ⟨s', hs', hl⟩ := hr.scope hs
    exact ⟨s', hs', hl.owner.trans ho⟩
  singleton_inj hd hd' := h.singleton_inj (hr.singletons ▸ hd) (hr.singletons ▸ hd')
  merged := hmerged
  inserted_iff := hinserted
  listed hs' := by
    obtain ⟨s, hs, hl⟩ := hr.back hs'
    exact hl.listed (h.listed hs)

/-- Changes that keep each scope's links keep the links sound. -/
theorem Linked.relinked (h : Linked e) (hr : Rescoped (fun _ => Scope.Relinked) e e') :
    Linked e' := by
  refine h.rescoped (hr.mono fun _ _ _ _ => Scope.Relinked.sameLinks) ?_ ?_ ?_
  · intro k t' o s' ht' ho hs' hsettled
    obtain ⟨t, ht, hl⟩ := hr.back ht'
    obtain ⟨s, hs, hl'⟩ := hr.back hs'
    obtain ⟨-, s₀, hs₀, -, himp⟩ := h.owner_child ht (hl.owner ▸ ho)
    rw [hs] at hs₀
    cases hs₀
    exact hl.settled.mpr (himp (hl'.settled.mp hsettled))
  · intro k s' hs' hsettled
    obtain ⟨s, hs, hl⟩ := hr.back hs'
    have hsettled₀ := hl.settled.mp hsettled
    exact hl.merged hsettled₀ (h.merged hs hsettled₀)
  · intro k s' hs'
    obtain ⟨s, hs, hl⟩ := hr.back hs'
    exact hl.inserted (h.inserted_iff hs)

/-- A scope inside another one is not older. -/
theorem Linked.le_of_inside (h : Linked e) {root : ScopeId} (hk : e.Inside root k) :
    root ≤ k := by
  induction hk with
  | root _ => exact le_rfl
  | nested hs howner _ ih => exact ih.trans (h.owner_child hs howner).1.le

/-- What is inside of a processed scope is processed. -/
theorem Linked.settled_of_inside (h : Linked e) {root : ScopeId} (hk : e.Inside root k)
    {s t : Scope} (hs : e.scope? root = some s) (hsettled : s.Settled)
    (ht : e.scope? k = some t) : t.Settled := by
  induction hk generalizing t with
  | root _ =>
    rw [hs] at ht
    cases ht
    exact hsettled
  | nested hk howner _ ih =>
    rw [hk] at ht
    cases ht
    obtain ⟨-, o, ho, -, himp⟩ := h.owner_child hk howner
    exact himp (ih ho)

/-- A scope inside another one is that one, or inside of one nested in it. -/
theorem Linked.inside_child (h : Linked e) {root : ScopeId} {s : Scope}
    (hs : e.scope? root = some s) (hk : e.Inside root k) (hne : k ≠ root) :
    ∃ c ∈ s.children, e.Inside c k := by
  induction hk with
  | root _ => exact absurd rfl hne
  | @nested k o t ht howner _ ih =>
    by_cases ho : o = root
    · subst ho
      obtain ⟨-, s₀, hs₀, hmem, -⟩ := h.owner_child ht howner
      rw [hs] at hs₀
      cases hs₀
      exact ⟨k, hmem, .root ht⟩
    · obtain ⟨c, hc, hin⟩ := ih ho
      exact ⟨c, hc, .nested ht howner hin⟩

/-- The scope a scope is nested in is not inside of it. -/
theorem Linked.not_inside_child (h : Linked e) {s : Scope} (hs : e.scope? id = some s)
    {c : ScopeId} (hc : c ∈ s.children) : ¬ e.Inside c id := by
  intro hin
  obtain ⟨t, ht, howner⟩ := h.child_owner hs hc
  have hlt := (h.owner_child ht howner).1
  exact absurd (h.le_of_inside hin) (Nat.not_le.mpr hlt)

/-- No scope is inside of two scopes nested in one. -/
theorem Linked.children_disjoint (h : Linked e) {s : Scope} (hs : e.scope? id = some s)
    {c c' : ScopeId} (hc : c ∈ s.children) (hc' : c' ∈ s.children) (hne : c ≠ c')
    (hin : e.Inside c k) : ¬ e.Inside c' k := by
  have hstep : ∀ {a b : ScopeId}, a ∈ s.children → b ∈ s.children → b ≠ a → ¬ e.Inside a b := by
    intro a b ha hb hab hin
    obtain ⟨t, ht, howner⟩ := h.child_owner hs hb
    obtain ⟨o, ho, hin'⟩ := hin.owner_inside ht hab
    rw [howner] at ho
    cases ho
    exact h.not_inside_child hs ha hin'
  intro hin'
  rcases hin.linear hin' with hl | hl
  · exact hstep hc hc' (Ne.symm hne) hl
  · exact hstep hc' hc hne hl

/-- Changes that keep each scope's owner keep what is inside of what. -/
theorem Rescoped.inside_iff {R : ScopeId → Scope → Scope → Prop} (h : Rescoped R e e')
    (hown : ∀ k s s', R k s s' → s'.owner = s.owner) {root : ScopeId} :
    e'.Inside root k ↔ e.Inside root k := by
  constructor
  · refine fun hi => hi.of_owner fun hs' => ?_
    obtain ⟨s, hs, hR⟩ := h.back hs'
    exact ⟨s, hs, (hown _ _ _ hR).symm⟩
  · refine fun hi => hi.of_owner fun hs => ?_
    obtain ⟨s', hs', hR⟩ := h.scope hs
    exact ⟨s', hs', hown _ _ _ hR⟩

/-! ### While definitions declare -/

/-- The scope is not processed, if it is there. -/
def Unsettled (e : Engine) (k : ScopeId) : Prop := ∀ {s}, e.scope? k = some s → ¬ s.Settled

/-- The links are sound, and the scopes inside of `roots` are those that are not processed. -/
structure Sound (roots : List ScopeId) (e : Engine) : Prop where
  linked : e.Linked
  unsettled_iff {k s} : e.scope? k = some s → (¬ s.Settled ↔ ∃ root ∈ roots, e.Inside root k)
  roots_nodup : roots.Nodup
  root_owner {root} : root ∈ roots → ∃ s, e.scope? root = some s ∧ s.owner = none

/-- Changes that keep each scope's links keep the engine sound. -/
theorem Sound.relinked (h : Sound roots e) (hr : Rescoped (fun _ => Scope.Relinked) e e') :
    Sound roots e' where
  linked := h.linked.relinked hr
  unsettled_iff hs' := by
    obtain ⟨s, hs, hl⟩ := hr.back hs'
    rw [hl.settled, h.unsettled_iff hs]
    exact exists_congr fun root => and_congr_right fun _ =>
      (hr.inside_iff fun _ _ _ hl => hl.owner).symm
  roots_nodup := h.roots_nodup
  root_owner hroot := by
    obtain ⟨s, hs, howner⟩ := h.root_owner hroot
    obtain ⟨s', hs', hl⟩ := hr.scope hs
    exact ⟨s', hs', hl.owner.trans howner⟩

/-- Between definitions every scope is processed. -/
theorem Sound.settled (h : Sound [] e) {s : Scope} (hs : e.scope? k = some s) : s.Settled := by
  by_contra hn
  obtain ⟨root, hm, -⟩ := (h.unsettled_iff hs).mp hn
  simp at hm

/-- What a definition leaves alone while it declares. -/
structure Extends (e e' : Engine) : Prop where
  /-- Ids are handed out in order. -/
  nextScope_le : e.nextScope ≤ e'.nextScope
  /-- Processed scopes stay as they are. -/
  settled {k s} : e.scope? k = some s → s.Settled → e'.scope? k = some s
  /-- The other scopes stay, with their owners and users. -/
  unsettled {k s} : e.scope? k = some s → ¬ s.Settled →
    ∃ s', e'.scope? k = some s' ∧ ¬ s'.Settled ∧ s'.owner = s.owner ∧ s'.users = s.users
  /-- New scopes have new ids and no users. -/
  born {k s'} : e'.scope? k = some s' → e.scope? k = none → e.nextScope ≤ k ∧ s'.users = 0
  /-- Only new scopes become the scope of a definition. -/
  singletons {d k} : e'.singletons.get? d = some k →
    e.singletons.get? d = some k ∨ e.nextScope ≤ k

namespace Extends

/-- A scope stays, with its owner. -/
theorem scope (h : Extends e e') {s : Scope} (hs : e.scope? k = some s) :
    ∃ s', e'.scope? k = some s' ∧ (s'.Settled ↔ s.Settled) ∧ s'.owner = s.owner ∧
      s'.users = s.users := by
  by_cases hsettled : s.Settled
  · exact ⟨s, h.settled hs hsettled, .rfl, rfl, rfl⟩
  · obtain ⟨s', hs', hn, howner, husers⟩ := h.unsettled hs hsettled
    exact ⟨s', hs', by simp [hn, hsettled], howner, husers⟩

/-- What was inside of a scope stays inside of it. -/
theorem inside (h : Extends e e') {root : ScopeId} (hk : e.Inside root k) : e'.Inside root k :=
  hk.of_owner fun hs => (h.scope hs).imp fun _ h' => ⟨h'.1, h'.2.2.1⟩

theorem refl (e : Engine) : Extends e e where
  nextScope_le := le_rfl
  settled hs _ := hs
  unsettled hs hn := ⟨_, hs, hn, rfl, rfl⟩
  born hs hn := by rw [hn] at hs; cases hs
  singletons := .inl

/-- One call after the other leaves alone what both do. -/
theorem trans (h : Extends e e') (h' : Extends e' e'') : Extends e e'' where
  nextScope_le := h.nextScope_le.trans h'.nextScope_le
  settled hs hsettled := h'.settled (h.settled hs hsettled) hsettled
  unsettled hs hn := by
    obtain ⟨s', hs', hn', howner', husers'⟩ := h.unsettled hs hn
    obtain ⟨s'', hs'', hn'', howner'', husers''⟩ := h'.unsettled hs' hn'
    exact ⟨s'', hs'', hn'', howner''.trans howner', husers''.trans husers'⟩
  -- A scope that is new in the end was made by the first call or by the second one.
  born {k s''} hs'' hnone := by
    cases hk : e'.scope? k with
    | none =>
      obtain ⟨hle, husers⟩ := h'.born hs'' hk
      exact ⟨h.nextScope_le.trans hle, husers⟩
    | some s' =>
      obtain ⟨hle, husers⟩ := h.born hk hnone
      obtain ⟨t, ht, -, -, husers'⟩ := h'.scope hk
      rw [hs''] at ht
      cases ht
      exact ⟨hle, husers'.trans husers⟩
  singletons hd := by
    rcases h'.singletons hd with hd' | hle
    · exact h.singletons hd'
    · exact .inr (h.nextScope_le.trans hle)

end Extends

/-- Retouching scopes leaves alone what a definition has to leave alone. -/
theorem Rescoped.extends (h : Rescoped (fun _ => Scope.Retouched) e e') : Extends e e' where
  nextScope_le := h.nextScope.ge
  settled hs hsettled := by
    obtain ⟨s', hs', hl⟩ := h.scope hs
    exact hl.settled hsettled ▸ hs'
  unsettled hs hn := by
    obtain ⟨s', hs', hl⟩ := h.scope hs
    exact ⟨s', hs', fun hc => hn (hl.settled_iff.mp hc), hl.owner, hl.users⟩
  born hs' hnone := by
    obtain ⟨s, hs, -⟩ := h.back hs'
    rw [hnone] at hs
    cases hs
  singletons hd := .inl (h.singletons ▸ hd)

/-- Retouched scopes have their links. -/
theorem Rescoped.relinked (h : Rescoped (fun _ => Scope.Retouched) e e') :
    Rescoped (fun _ => Scope.Relinked) e e' := h.mono fun _ _ _ _ => Scope.Retouched.relinked

end Engine

end StyleBook
