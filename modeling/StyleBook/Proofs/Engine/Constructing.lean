import StyleBook.Proofs.Engine.Declaring
import StyleBook.Proofs.Engine.Discarding
import StyleBook.Proofs.Engine.Processing

namespace StyleBook

/-!
# What constructing and building change

A definition opens a scope, declares its rules, and then its scope is processed or discarded; on
the way other definitions may do the same.

While definitions declare, an engine is changed step by step: rules are declared, scopes nested and
used, and other definitions get their scopes.

* `Engine.opened_spec` — a new scope for a definition;
* `Engine.Pending id roots` — the engine while the scope of a definition is processed;
  `Engine.Pending.finish` and `Engine.Pending.abandoned` say how that ends;
* `Engine.Extends.processes`, `Engine.Extends.abandoned` — neither way changes what was there
  before the definition;
* `Engine.Builds P roots` — the steps of building, while the definitions of `roots` declare. Each
  styleset is declared under `P`;
* `Engine.Builds.sound` — the engine stays sound, and what was processed before stays as it was.
-/

namespace Engine

variable {e e' : Engine} {id k : ScopeId} {roots : List ScopeId}

/-! ### Opening a scope -/

/-- A scope becomes the scope of a definition. -/
theorem Sound.singleton (h : Sound roots e) (hid : ∃ s, e.scope? id = some s ∧ s.owner = none)
    (hnew : ∀ d, e.singletons.get? d ≠ some id) (key : Nat) :
    Sound roots { e with singletons := e.singletons.insert key id } := by
  -- Nesting does not look at the table of singletons, so only its two clauses are at stake.
  have hinside : ∀ {root k : ScopeId},
      { e with singletons := e.singletons.insert key id }.Inside root k ↔ e.Inside root k :=
    ⟨fun hin => hin.of_owner fun hs => ⟨_, hs, rfl⟩, fun hin => hin.of_owner fun hs => ⟨_, hs, rfl⟩⟩
  have hget : ∀ {d k}, (e.singletons.insert key id).get? d = some k →
      d = key ∧ k = id ∨ d ≠ key ∧ e.singletons.get? d = some k := by
    intro d k hd
    rw [Dict.get?_insert] at hd
    split at hd
    · exact .inl ⟨‹_›, (Option.some.inj hd).symm⟩
    · exact .inr ⟨‹_›, hd⟩
  have hl := h.linked
  refine ⟨?_, fun hs => ?_, h.roots_nodup, h.root_owner⟩
  · refine ⟨hl.keys_nodup, hl.lt_nextScope, hl.references_nodup, hl.reference_ready, hl.ranked,
      hl.children_nodup, hl.child_owner, hl.owner_child, fun hd => ?_, fun hd hd' => ?_, hl.merged,
      hl.inserted_iff, hl.listed⟩
    · rcases hget hd with ⟨-, rfl⟩ | ⟨-, hd⟩
      · exact hid
      · exact hl.singleton_live hd
    -- Two types with one scope: neither is the new one, since no type had that scope.
    · rcases hget hd with ⟨rfl, hk⟩ | ⟨-, hf⟩ <;> rcases hget hd' with ⟨rfl, hk'⟩ | ⟨-, hf'⟩
      · rfl
      · exact absurd (hk ▸ hf') (hnew _)
      · exact absurd (hk' ▸ hf) (hnew _)
      · exact hl.singleton_inj hf hf'
  · rw [h.unsettled_iff hs]
    exact exists_congr fun root => and_congr_right fun _ => hinside.symm

/-- The second engine is the first one with a scope for a definition of the given key. -/
structure Opened (roots : List ScopeId) (key : Nat) (e e' : Engine) : Prop where
  sound : Sound (e.nextScope :: roots) e'
  leaves : Extends e e'
  singleton {d} : e'.singletons.get? d = some e.nextScope → d = key
  back {k s} : e'.scope? k = some s → (k = e.nextScope ∧ Fresh none s) ∨ e.scope? k = some s

/-- The engine with a new scope for a definition. -/
def opened {μ : Type} (d : Definition μ) (e : Engine) : Engine :=
  let (name, naming) := e.naming.reserve d.scopeName d.multiplex
  let (id, grown) := addScope { name, definition := d.title, multiplex := d.multiplex }
    { e with naming }
  { grown with
    singletons := if d.multiplex then e.singletons else e.singletons.insert d.key id
    constructing := d.key :: e.constructing }

/-- Opening a scope always succeeds. -/
theorem openScope_eq {μ : Type} (d : Definition μ) (e : Engine) :
    openScope d e = (.ok e.nextScope, opened d e) := by
  obtain ⟨key, title, scopeName, multiplex, script⟩ := d
  cases multiplex <;> rfl

/-- **A new scope for a definition.** -/
theorem opened_spec {μ : Type} (d : Definition μ) (h : Sound roots e) :
    Opened roots d.key e (opened d e) := by
  -- The id is new, so it is not that of the scope of any definition.
  have hnew : ∀ d, e.singletons.get? d ≠ some e.nextScope := fun d hd => by
    obtain ⟨s, hs, -⟩ := h.linked.singleton_live hd
    exact absurd (h.linked.lt_nextScope hs) (lt_irrefl _)
  let naming := (e.naming.reserve d.scopeName d.multiplex).2
  let s : Scope :=
    { name := (e.naming.reserve d.scopeName d.multiplex).1, definition := d.title,
      multiplex := d.multiplex }
  have hg : Grown none e (addScope s { e with naming }).2 := by
    have hl : Linked { e with naming } := h.linked.relinked (.of_scopes_eq rfl rfl rfl)
    obtain ⟨h₁, h₂, h₃, h₄, h₅, h₆⟩ :=
      grown_addScope (s := s) hl ⟨rfl, rfl, rfl, rfl, rfl, rfl, rfl⟩ rfl
    exact ⟨h₁, h₂, h₃, h₄, h₅, h₆⟩
  have hsound := h.grown_root hg
  have hext := hg.extends (by simp)
  have hback : ∀ {k t}, (addScope s { e with naming }).2.scope? k = some t →
      (k = e.nextScope ∧ Fresh none t) ∨ e.scope? k = some t := by
    intro k t ht
    rcases hg.back ht with hnew | ⟨u, hu, ⟨rfl, -⟩ | ⟨-, hn⟩⟩
    · exact .inl hnew
    · exact .inr hu
    · cases hn
  have hget : ∀ {d' k}, (opened d e).singletons.get? d' = some k →
      e.singletons.get? d' = some k ∨ d' = d.key ∧ k = e.nextScope := by
    intro d' k hd
    change (if d.multiplex = true then e.singletons else
      e.singletons.insert d.key e.nextScope).get? d' = some k at hd
    split at hd
    · exact .inl hd
    · rw [Dict.get?_insert] at hd
      split at hd
      · exact .inr ⟨‹_›, (Option.some.inj hd).symm⟩
      · exact .inl hd
  refine ⟨?_, ⟨hext.nextScope_le, hext.settled, hext.unsettled, hext.born, fun hd => ?_⟩,
    fun hd => ?_, hback⟩
  · have hsound' := hsound.singleton (hsound.root_owner List.mem_cons_self) hnew d.key
    by_cases hm : d.multiplex = true
    · exact hsound.relinked (.of_scopes_eq rfl (if_pos hm) rfl)
    · exact hsound'.relinked (.of_scopes_eq rfl (if_neg hm) rfl)
  · exact (hget hd).imp_right fun h => h.2.ge
  · exact ((hget hd).resolve_left (hnew _)).1

/-! ### While the scope of a definition is processed -/

/-- The engine is sound but for the scopes inside of `id`, of which some may be processed. -/
structure Pending (id : ScopeId) (roots : List ScopeId) (e : Engine) : Prop where
  linked : e.Linked
  unsettled_iff {k s} : ¬ e.Inside id k → e.scope? k = some s →
    (¬ s.Settled ↔ ∃ root ∈ roots, e.Inside root k)
  roots_nodup : (id :: roots).Nodup
  root_owner {root} : root ∈ id :: roots → ∃ s, e.scope? root = some s ∧ s.owner = none
  unreferenced {k s} : e.scope? k = some s → id ∉ s.references

/-- The scope of a definition is going to be processed. -/
theorem Sound.pending (h : Sound (id :: roots) e) : Pending id roots e where
  linked := h.linked
  unsettled_iff hk hs := by rw [h.unsettled_iff hs, List.exists_mem_cons_iff, or_iff_right hk]
  roots_nodup := h.roots_nodup
  root_owner := h.root_owner
  unreferenced hs hm := by
    obtain ⟨t, ht, hsettled, -⟩ := h.linked.reference_ready hs hm
    exact h.unsettled List.mem_cons_self (.root ht) ht hsettled

namespace Pending

/-- Processing scopes inside of `id`. -/
theorem processes {r : Except Error Unit} (h : Pending id roots e)
    (hp : Processes (e.Inside id) e r e') : Pending id roots e' where
  linked := hp.linked
  unsettled_iff hk hs' := by
    rw [hp.inside_iff] at hk
    obtain ⟨s, hs, hR⟩ := hp.progressed.back hs'
    rw [(hR.relinked hk).settled, h.unsettled_iff hk hs]
    exact exists_congr fun root => and_congr_right fun _ => hp.inside_iff.symm
  roots_nodup := h.roots_nodup
  root_owner hroot := by
    obtain ⟨s, hs, ho⟩ := h.root_owner hroot
    obtain ⟨s', hs', hR⟩ := hp.progressed.scope hs
    exact ⟨s', hs', hR.owner.trans ho⟩
  unreferenced hs' hm := by
    obtain ⟨s, hs, hR⟩ := hp.progressed.back hs'
    exact h.unreferenced hs (hR.references ▸ hm)

/-- Scopes inside of other roots are not inside of `id`. -/
theorem not_inside (h : Pending id roots e) {root : ScopeId} (hroot : root ∈ roots)
    (hk : e.Inside root k) : ¬ e.Inside id k := by
  intro hin
  have hne : root ≠ id := fun heq => (List.nodup_cons.mp h.roots_nodup).1 (heq ▸ hroot)
  obtain ⟨s, hs, ho⟩ := h.root_owner List.mem_cons_self
  obtain ⟨t, ht, ho'⟩ := h.root_owner (List.mem_cons_of_mem id hroot)
  rcases hk.linear hin with hl | hl
  · obtain ⟨o, howner, -⟩ := hl.owner_inside hs (Ne.symm hne)
    rw [ho] at howner
    cases howner
  · obtain ⟨o, howner, -⟩ := hl.owner_inside ht hne
    rw [ho'] at howner
    cases howner

/-- **Processing has ended well.** -/
theorem finish (h : Pending id roots e)
    (hdone : ∀ {k s}, e.Inside id k → e.scope? k = some s → s.Settled) : Sound roots e where
  linked := h.linked
  unsettled_iff {k s} hs := by
    by_cases hk : e.Inside id k
    · exact iff_of_false (not_not.mpr (hdone hk hs)) fun ⟨root, hroot, hin⟩ =>
        h.not_inside hroot hin hk
    · exact h.unsettled_iff hk hs
  roots_nodup := (List.nodup_cons.mp h.roots_nodup).2
  root_owner hroot := h.root_owner (List.mem_cons_of_mem id hroot)

end Pending

/-! ### When a definition fails -/

/-- The second engine is the first one without what is inside of `id`, which no longer is the scope
    of the definition of the given key. -/
structure Abandoned (id : ScopeId) (key : Nat) (e e' : Engine) : Prop where
  keys : e'.scopes.keys.Sublist e.scopes.keys
  back {k s} : e'.scope? k = some s → ¬ e.Inside id k ∧ e.scope? k = some s
  kept {k s} : ¬ e.Inside id k → e.scope? k = some s → e'.scope? k = some s
  nextScope : e'.nextScope = e.nextScope
  singletons {d k} : e'.singletons.get? d = some k →
    e.singletons.get? d = some k ∧ (d = key → k ≠ id)

/-- Giving a scope up takes it away with all that is inside of it. -/
theorem abandon_abandoned (h : Linked e) (id : ScopeId) (key : Nat) :
    Abandoned id key e (e.abandon id key) := by
  -- The entry goes first. This changes no scope, nor what is inside of what.
  let freed : Engine := if e.singletons.get? key = some id then
    { e with singletons := e.singletons.erase key } else e
  have hscopes : freed.scopes = e.scopes := by unfold freed; split <;> rfl
  have hnext : freed.nextScope = e.nextScope := by unfold freed; split <;> rfl
  have hscope : ∀ k, freed.scope? k = e.scope? k := fun k => by unfold scope?; rw [hscopes]
  have hsingletons : ∀ {d k}, freed.singletons.get? d = some k →
      e.singletons.get? d = some k ∧ (d = key → k ≠ id) := by
    intro d k hd
    unfold freed at hd
    split at hd
    · change (e.singletons.erase key).get? d = some k at hd
      rw [Dict.get?_erase] at hd
      split at hd
      · cases hd
      · exact ⟨hd, fun heq => absurd heq ‹_›⟩
    · refine ⟨hd, ?_⟩
      rintro rfl rfl
      contradiction
  have hinside : ∀ {root k : ScopeId}, freed.Inside root k ↔ e.Inside root k :=
    ⟨fun hin => hin.of_owner fun hs => ⟨_, (hscope _).symm.trans hs, rfl⟩,
      fun hin => hin.of_owner fun hs => ⟨_, (hscope _).trans hs, rfl⟩⟩
  have hlinked : Linked freed :=
    { keys_nodup := hscopes ▸ h.keys_nodup
      lt_nextScope := fun hs => hnext ▸ h.lt_nextScope (hscope _ ▸ hs)
      references_nodup := fun hs => h.references_nodup (hscope _ ▸ hs)
      reference_ready := fun hs hm => by
        rw [hscope] at hs ⊢
        exact h.reference_ready hs hm
      ranked := h.ranked.imp fun rank hrank => fun hs hm => hrank (hscope _ ▸ hs) hm
      children_nodup := fun hs => h.children_nodup (hscope _ ▸ hs)
      child_owner := fun hs hm => by
        rw [hscope] at hs ⊢
        exact h.child_owner hs hm
      owner_child := fun hs ho => by
        rw [hscope] at hs ⊢
        exact h.owner_child hs ho
      singleton_live := fun hd => by
        rw [hscope]
        exact h.singleton_live (hsingletons hd).1
      singleton_inj := fun hd hd' => h.singleton_inj (hsingletons hd).1 (hsingletons hd').1
      merged := fun hs => h.merged (hscope _ ▸ hs)
      inserted_iff := fun hs => h.inserted_iff (hscope _ ▸ hs)
      listed := fun hs => h.listed (hscope _ ▸ hs) }
  have hw := discard_without hlinked id
  show Abandoned id key e (freed.discard id)
  refine ⟨?_, fun hs => ?_, fun hn hs => ?_, hw.nextScope.trans hnext, fun hd => ?_⟩
  · rw [hw.keys, hscopes]
    exact List.filter_sublist
  · obtain ⟨hn, hs⟩ := hw.scope?_some hs
    exact ⟨fun hin => hn (hinside.mpr hin), hscope _ ▸ hs⟩
  · rw [hw.scope?_of_not fun hin => hn (hinside.mp hin), hscope, hs]
  · exact hsingletons (hw.singletons ▸ hd)

/-- The scopes that are left are inside of what they were inside of. -/
theorem Abandoned.inside_iff {key : Nat} (a : Abandoned id key e e') {root : ScopeId}
    (hk : ¬ e.Inside id k) : e'.Inside root k ↔ e.Inside root k := by
  constructor
  · exact fun hin => hin.of_owner fun hs => ⟨_, (a.back hs).2, rfl⟩
  · intro hin
    induction hin with
    | root hs => exact .root (a.kept hk hs)
    | nested hs ho _ ih => exact .nested (a.kept hk hs) ho (ih fun hin => hk (.nested hs ho hin))

/-- Scopes of definitions are not inside of each other. -/
theorem not_inside_of_owner {s : Scope} (hs : e.scope? k = some s) (ho : s.owner = none)
    (hne : k ≠ id) : ¬ e.Inside id k := by
  intro hin
  obtain ⟨o, howner, -⟩ := hin.owner_inside hs hne
  rw [ho] at howner
  cases howner

/-- The links stay sound without a scope of a definition that no scope references. -/
theorem Linked.abandoned {key : Nat} (h : Linked e) (a : Abandoned id key e e')
    (hroot : ∃ s, e.scope? id = some s ∧ s.owner = none)
    (hunreferenced : ∀ {k s}, e.scope? k = some s → id ∉ s.references)
    (hkey : ∀ {d}, e.singletons.get? d = some id → d = key) : Linked e' where
  keys_nodup := a.keys.nodup h.keys_nodup
  lt_nextScope hs := a.nextScope ▸ h.lt_nextScope (a.back hs).2
  references_nodup hs := h.references_nodup (a.back hs).2
  reference_ready {k s r} hs hm := by
    obtain ⟨t, ht, hsettled, ho⟩ := h.reference_ready (a.back hs).2 hm
    have hne : r ≠ id := fun heq => hunreferenced (a.back hs).2 (heq ▸ hm)
    exact ⟨t, a.kept (not_inside_of_owner ht ho hne) ht, hsettled, ho⟩
  ranked := h.ranked.imp fun rank hrank => fun hs hm => hrank (a.back hs).2 hm
  children_nodup hs := h.children_nodup (a.back hs).2
  child_owner {k s c} hs hm := by
    obtain ⟨t, ht, ho⟩ := h.child_owner (a.back hs).2 hm
    -- What is nested in a scope that is left is not gone: what is gone has its owner gone with it,
    -- but for the scope that is discarded, which has none.
    refine ⟨t, a.kept (fun hin => ?_) ht, ho⟩
    by_cases hc : c = id
    · obtain ⟨u, hu, hnone⟩ := hroot
      rw [hc, hu] at ht
      cases ht
      rw [hnone] at ho
      cases ho
    · obtain ⟨o, ho', hin'⟩ := hin.owner_inside ht hc
      rw [ho] at ho'
      cases ho'
      exact (a.back hs).1 hin'
  owner_child ht ho := by
    obtain ⟨hn, ht⟩ := a.back ht
    obtain ⟨hlt, s, hs, hm, himp⟩ := h.owner_child ht ho
    exact ⟨hlt, s, a.kept (fun hin => hn (.nested ht ho hin)) hs, hm, himp⟩
  singleton_live {d k} hd := by
    obtain ⟨hd, hne⟩ := a.singletons hd
    obtain ⟨s, hs, ho⟩ := h.singleton_live hd
    have hk : k ≠ id := fun heq => hne (hkey (heq ▸ hd)) heq
    exact ⟨s, a.kept (not_inside_of_owner hs ho hk) hs, ho⟩
  singleton_inj hd hd' := h.singleton_inj (a.singletons hd).1 (a.singletons hd').1
  merged hs := h.merged (a.back hs).2
  inserted_iff hs := h.inserted_iff (a.back hs).2
  listed hs := h.listed (a.back hs).2

/-- **The scope of a definition that failed is discarded.** -/
theorem Pending.abandoned {key : Nat} (h : Pending id roots e) (a : Abandoned id key e e')
    (hkey : ∀ {d}, e.singletons.get? d = some id → d = key) : Sound roots e' where
  linked := h.linked.abandoned a (h.root_owner List.mem_cons_self) h.unreferenced hkey
  unsettled_iff hs := by
    obtain ⟨hn, hs⟩ := a.back hs
    rw [h.unsettled_iff hn hs]
    exact exists_congr fun root => and_congr_right fun _ => (a.inside_iff hn).symm
  roots_nodup := (List.nodup_cons.mp h.roots_nodup).2
  root_owner {root} hr := by
    obtain ⟨s, hs, ho⟩ := h.root_owner (List.mem_cons_of_mem id hr)
    have hne : root ≠ id := fun heq => (List.nodup_cons.mp h.roots_nodup).1 (heq ▸ hr)
    exact ⟨s, a.kept (not_inside_of_owner hs ho hne) hs, ho⟩

/-! ### What stays as it was -/

namespace Extends

variable {e₀ : Engine}

/-- Processing a new scope leaves the old ones alone. -/
theorem processes {r : Except Error Unit} (hx : Extends e₀ e) (h₀ : Linked e₀) (h : Linked e)
    (hnew : e₀.nextScope ≤ id) (hp : Processes (e.Inside id) e r e') : Extends e₀ e' where
  nextScope_le := hp.progressed.nextScope ▸ hx.nextScope_le
  settled hs hsettled := by
    obtain ⟨s', hs', hR⟩ := hp.progressed.scope (hx.settled hs hsettled)
    exact hR.settled hsettled ▸ hs'
  unsettled hs hn := by
    obtain ⟨s₁, hs₁, hn₁, ho₁, hu₁⟩ := hx.unsettled hs hn
    obtain ⟨s', hs', hR⟩ := hp.progressed.scope hs₁
    have hk : ¬ e.Inside id _ := fun hin =>
      absurd (h₀.lt_nextScope hs) (Nat.not_lt.mpr (hnew.trans (h.le_of_inside hin)))
    exact ⟨s', hs', fun hc => hn₁ ((hR.relinked hk).settled.mp hc), hR.owner.trans ho₁,
      hR.users.trans hu₁⟩
  born hs' hnone := by
    obtain ⟨s, hs, hR⟩ := hp.progressed.back hs'
    obtain ⟨hle, hu⟩ := hx.born hs hnone
    exact ⟨hle, hR.users.trans hu⟩
  singletons hd := hx.singletons (hp.progressed.singletons ▸ hd)

/-- Discarding a new scope leaves the old ones alone. -/
theorem abandoned {key : Nat} (hx : Extends e₀ e) (h₀ : Linked e₀) (h : Linked e)
    (hnew : e₀.nextScope ≤ id) (a : Abandoned id key e e') : Extends e₀ e' := by
  have hold : ∀ {k s}, e₀.scope? k = some s → ¬ e.Inside id k := fun hs hin =>
    absurd (h₀.lt_nextScope hs) (Nat.not_lt.mpr (hnew.trans (h.le_of_inside hin)))
  refine ⟨a.nextScope ▸ hx.nextScope_le, fun hs hsettled => ?_, fun hs hn => ?_,
    fun hs' hnone => ?_,
    fun hd => hx.singletons (a.singletons hd).1⟩
  · exact a.kept (hold hs) (hx.settled hs hsettled)
  · obtain ⟨s', hs', hrest⟩ := hx.unsettled hs hn
    exact ⟨s', a.kept (hold hs) hs', hrest⟩
  · exact hx.born (a.back hs').2 hnone

end Extends

end Engine

/-! ### What building changes -/

namespace Engine

/-- **What declaring does,** while the definitions of `roots` declare, the latest one first. Every
    rule is declared in a scope inside of the latest root. -/
inductive Builds (P : Engine → ScopeId → StyleBody → Prop) :
    List ScopeId → Engine → Engine → Prop
  /-- Nothing happens. -/
  | refl {roots e} : Builds P roots e e
  /-- One thing after the other. -/
  | trans {roots e e' e''} (first : Builds P roots e e') (second : Builds P roots e' e'') :
    Builds P roots e e''
  /-- Something is changed that is no scope. -/
  | aside {roots e e'} (scopes : e'.scopes = e.scopes) (singletons : e'.singletons = e.singletons)
    (nextScope : e'.nextScope = e.nextScope) : Builds P roots e e'
  /-- Rules are declared in a scope. -/
  | declare {root roots id C e e'} (inside : e.Inside root id)
    (allowed : ∀ content body, C content → content.body? = some body → P e id body)
    (change : Rescoped (fun k => Scope.Declared (k = id) C) e e') :
    Builds P (root :: roots) e e'
  /-- A scope is nested in a scope. -/
  | nest {root roots id e e'} (inside : e.Inside root id) (change : Grown (some id) e e') :
    Builds P (root :: roots) e e'
  /-- A scope uses a processed one. -/
  | refer {root roots id used e e'} (inside : e.Inside root id)
    (ready : ∃ t, e.scope? used = some t ∧ t.Settled ∧ t.owner = none)
    (change : Rescoped (fun k => Scope.Referenced (k = id) used) e e') :
    Builds P (root :: roots) e e'
  /-- A definition declares, and its scope is processed. -/
  | processed {roots μ e e₁ e'} (d : Definition μ)
    (inner : Builds P (e.nextScope :: roots) (opened d e) e₁)
    (run : processScope e.nextScope e₁ = (.ok (), e')) : Builds P roots e e'
  /-- A definition declares, but its scope cannot be processed. -/
  | unprocessed {roots μ e e₁ e₂ err} (d : Definition μ)
    (inner : Builds P (e.nextScope :: roots) (opened d e) e₁)
    (run : processScope e.nextScope e₁ = (.error err, e₂)) :
    Builds P roots e (e₂.abandon e.nextScope d.key)
  /-- A definition fails while it declares. -/
  | failed {roots μ e e₁} (d : Definition μ)
    (inner : Builds P (e.nextScope :: roots) (opened d e) e₁) :
    Builds P roots e (e₁.abandon e.nextScope d.key)

variable {e e' : Engine} {roots : List ScopeId} {P : Engine → ScopeId → StyleBody → Prop}

/-- The scope that a definition opened is going to be processed or discarded. -/
theorem Opened.pending {key : Nat} {e₁ : Engine} (ho : Opened roots key e e₁)
    (hs : Sound (e.nextScope :: roots) e') (hx : Extends e₁ e') :
    Pending e.nextScope roots e' ∧ Extends e e' ∧
      ∀ {d}, e'.singletons.get? d = some e.nextScope → d = key := by
  refine ⟨hs.pending, ho.leaves.trans hx, fun hd => ?_⟩
  obtain ⟨s, hs, -⟩ := ho.sound.root_owner List.mem_cons_self
  rcases hx.singletons hd with hd' | hle
  · exact ho.singleton hd'
  · exact absurd (ho.sound.linked.lt_nextScope hs) (Nat.not_lt.mpr hle)

/-- Processing the scope of a definition. -/
theorem Pending.processScope {id : ScopeId} (h : Pending id roots e) (hs : Sound (id :: roots) e) :
    Processes (e.Inside id) e (processScope id e).1 (processScope id e).2 :=
  processWithin_spec e.walkLimit id e h.linked fun _ hin => hs.unsettled List.mem_cons_self hin

/-- **Building keeps the engine sound, and what was processed before as it was.** -/
theorem Builds.sound (h : Builds P roots e e') (hs : Sound roots e) :
    Sound roots e' ∧ Extends e e' := by
  induction h with
  | refl => exact ⟨hs, .refl _⟩
  | trans _ _ ih ih' =>
    obtain ⟨hs', hx⟩ := ih hs
    obtain ⟨hs'', hx'⟩ := ih' hs'
    exact ⟨hs'', hx.trans hx'⟩
  | aside scopes singletons nextScope =>
    exact ⟨hs.relinked (.of_scopes_eq scopes singletons nextScope),
      Rescoped.extends (.of_scopes_eq scopes singletons nextScope)⟩
  | declare inside _ change =>
    have hr := change.retouched (hs.unsettled List.mem_cons_self inside)
    exact ⟨hs.relinked hr.relinked, hr.extends⟩
  | nest inside change =>
    refine ⟨hs.grown_nested change List.mem_cons_self inside, change.extends fun o ho => ?_⟩
    cases ho
    exact hs.unsettled List.mem_cons_self inside
  | refer inside ready change =>
    exact ⟨hs.referenced List.mem_cons_self inside change ready,
      change.extends_of_referenced (hs.unsettled List.mem_cons_self inside)⟩
  -- The three ends of a definition. Nothing refers to its scope while it declares, so it may be
  -- processed then, or taken out again.
  | @processed roots μ e e₁ e' d _ run ih =>
    have ho := opened_spec d hs
    obtain ⟨hs₁, hx₁⟩ := ih ho.sound
    obtain ⟨hp, hx, -⟩ := ho.pending hs₁ hx₁
    have hproc := hp.processScope hs₁
    rw [run] at hproc
    refine ⟨(hp.processes hproc).finish fun hin hs' => ?_,
      hx.processes hs.linked hs₁.linked le_rfl hproc⟩
    exact hproc.settled rfl (hproc.inside_iff.mp hin) hs'
  | @unprocessed roots μ e e₁ e₂ err d _ run ih =>
    have ho := opened_spec d hs
    obtain ⟨hs₁, hx₁⟩ := ih ho.sound
    obtain ⟨hp, hx, hkey⟩ := ho.pending hs₁ hx₁
    have hproc := hp.processScope hs₁
    rw [run] at hproc
    have ha := abandon_abandoned hproc.linked e.nextScope d.key
    refine ⟨(hp.processes hproc).abandoned ha fun hd => hkey ?_, ?_⟩
    · exact hproc.progressed.singletons ▸ hd
    · have hx₂ := hx.processes hs.linked hs₁.linked le_rfl hproc
      exact hx₂.abandoned hs.linked hproc.linked le_rfl ha
  | @failed roots μ e e₁ d _ ih =>
    have ho := opened_spec d hs
    obtain ⟨hs₁, hx₁⟩ := ih ho.sound
    obtain ⟨hp, hx, hkey⟩ := ho.pending hs₁ hx₁
    have ha := abandon_abandoned hs₁.linked e.nextScope d.key
    exact ⟨hp.abandoned ha hkey, hx.abandoned hs.linked hs₁.linked le_rfl ha⟩

end Engine

end StyleBook
