import StyleBook.Proofs.Scope.Integrity

namespace StyleBook

/-!
# Scopes in layers

A scope uses scopes, extends a scope and nests scopes. What it uses and extends was processed
before, and what is nested in it is newer. So the scopes that are processed stand in layers,
whatever is built on the way: each of them rests on scopes of lower layers only.

The name of a slot is looked up along the owners of a scope, and then along the scopes that the
outermost one extends. Owners are older, and scopes that are extended stand in lower layers, so
neither walk comes back to where it was. The limits on walks are there for the definitions only;
no walk reaches its limit.

* `Scope.RestsOn` — a scope uses, extends or nests another one
* `Scope.SameLayout` — it still does, and has the same rules; `Engine.processScope_layout` —
  processing keeps this
* `Engine.Layered` — processed scopes rest on scopes of lower rank
* `Engine.layered_survives`, `Run.layered` — so it is whatever is built, and after any calls
* `Engine.Founded` — scopes that are extended have a lower rank;
  `Layered.founded` — so it is in layers
* `Engine.inheritedWithin_ends`, `Engine.nameForWithin_ends` — a limit that suffices is as good as
  any higher one, and there is a name
* `Engine.nameFor_ends` — the limit suffices
-/

namespace Scope

/-- **The scope uses, extends or nests the other one.** -/
inductive RestsOn (s : Scope) (j : ScopeId) : Prop
  | reference (h : j ∈ s.references)
  | base (h : s.base = some j)
  | child (h : j ∈ s.children)

/-- The scope has the rules and the links that it had. Names, and what is kept with
    rules, may be others. -/
structure SameLayout (s s' : Scope) : Prop where
  owner : s'.owner = s.owner
  base : s'.base = s.base
  children : s'.children = s.children
  references : s'.references = s.references
  order : s'.order = s.order
  contents : s'.rules.map (·.content) = s.rules.map (·.content)

variable {s s' : Scope}

namespace SameLayout

instance : IsPreorder Scope SameLayout where
  refl _ := ⟨rfl, rfl, rfl, rfl, rfl, rfl⟩
  trans _ _ _ h h' := ⟨h'.owner.trans h.owner, h'.base.trans h.base, h'.children.trans h.children,
    h'.references.trans h.references, h'.order.trans h.order, h'.contents.trans h.contents⟩

/-- A change of names, users, the state, or the order by kind. -/
theorem of_rules (hrules : s'.rules = s.rules) (horder : s'.order = s.order)
    (howner : s'.owner = s.owner) (hbase : s'.base = s.base) (hchildren : s'.children = s.children)
    (hreferences : s'.references = s.references) : SameLayout s s' :=
  ⟨howner, hbase, hchildren, hreferences, horder, by rw [hrules]⟩

/-- The same layout rests on the same scopes. -/
theorem restsOn_iff (h : SameLayout s s') {j : ScopeId} : s'.RestsOn j ↔ s.RestsOn j := by
  constructor
  · rintro (hj | hj | hj)
    · exact .reference (h.references ▸ hj)
    · exact .base (h.base ▸ hj)
    · exact .child (h.children ▸ hj)
  · rintro (hj | hj | hj)
    · exact .reference (h.references.symm ▸ hj)
    · exact .base (h.base.trans hj)
    · exact .child (h.children.symm ▸ hj)

theorem length_eq (h : SameLayout s s') : s'.rules.length = s.rules.length := by
  have := congrArg List.length h.contents
  rwa [List.length_map, List.length_map] at this

theorem listed (h : SameLayout s s') (hl : s.Listed) : s'.Listed := hl.congr h.order h.length_eq

end SameLayout

theorem Renamed.sameLayout {P : Prop} (h : Renamed P s s') : SameLayout s s' := by
  have heq := h.eq_names
  exact .of_rules h.rules (by rw [heq]) h.owner (by rw [heq]) (by rw [heq]) (by rw [heq])

theorem Remerged.sameLayout (h : Remerged s s') : SameLayout s s' := by
  have heq := h.eq_rules
  refine ⟨by rw [heq], by rw [heq], by rw [heq], by rw [heq], h.order,
    h.map_rules fun hmerged => ?_⟩
  exact hmerged.content

theorem Reused.sameLayout {P : Prop} (h : Reused P s s') : SameLayout s s' := by
  have heq := h.eq_users
  exact .of_rules h.rules (by rw [heq]) h.owner (by rw [heq]) (by rw [heq]) (by rw [heq])

end Scope

namespace Engine

variable {e e' : Engine} {id k j : ScopeId} {s : Scope} {roots : List ScopeId}

/-- **Processing keeps the layout of all scopes.** -/
theorem processWithin_layout (limit : Nat) (id : ScopeId) (e : Engine) :
    Rescoped (fun _ => Scope.SameLayout) e (processWithin limit id e).2 :=
  processWithin_steps
    (fun id key e => (assignName_renamed id key e).mono fun _ _ _ _ hR => hR.sameLayout)
    (fun id key e => (mergeAt_remerged id key e).mono fun _ _ _ _ hR => hR.sameLayout)
    (fun _ _ => .modifyScope fun _ _ => .of_rules rfl rfl rfl rfl rfl rfl)
    (fun _ _ => .modifyScope fun _ _ => .of_rules rfl rfl rfl rfl rfl rfl)
    (fun event _ => .report event)
    limit id e

/-- Processing keeps the layout of all scopes. -/
theorem processScope_layout (id : ScopeId) (e : Engine) :
    Rescoped (fun _ => Scope.SameLayout) e (processScope id e).2 :=
  processWithin_layout e.walkLimit id e

/-- **Scopes stand in layers:** what they extend is processed, and processed scopes rest on scopes
    of lower rank. -/
structure Layered (e : Engine) : Prop where
  base_ready {k s b} : e.scope? k = some s → s.base = some b → e.Ready b
  ranked : ∃ rank : ScopeId → Nat, ∀ {k s j}, e.scope? k = some s → s.Settled → s.RestsOn j →
    rank j < rank k

/-- What a processed scope rests on is processed. -/
theorem Layered.settled_of_restsOn (h : Layered e) (hl : Linked e) (hs : e.scope? k = some s)
    (hsettled : s.Settled) (hj : s.RestsOn j) : ∃ t, e.scope? j = some t ∧ t.Settled := by
  rcases hj with hj | hj | hj
  · obtain ⟨t, ht, hsettled', -⟩ := hl.reference_ready hs hj
    exact ⟨t, ht, hsettled'⟩
  · obtain ⟨t, ht, hsettled', -⟩ := h.base_ready hs hj
    exact ⟨t, ht, hsettled'⟩
  · obtain ⟨t, ht, howner⟩ := hl.child_owner hs hj
    obtain ⟨-, u, hu, -, hchild⟩ := hl.owner_child ht howner
    cases hs.symm.trans hu
    exact ⟨t, ht, hchild hsettled⟩

/-- All ranks of live scopes lie below some bound. -/
theorem exists_rank_bound (e : Engine) (rank : ScopeId → Nat) :
    ∃ bound, ∀ {k s}, e.scope? k = some s → rank k < bound := by
  refine ⟨(e.scopes.keys.map rank).sum + 1, fun hs => Nat.lt_succ_of_le ?_⟩
  exact List.le_sum_of_mem (List.mem_map_of_mem (mem_keys_of_scope? hs))

/-- Changes that keep layouts, and process no scope. -/
theorem Layered.rescoped (h : Layered e) (hr : Rescoped (fun _ => Scope.SameLayout) e e')
    (hstate : ∀ {k s s'}, e.scope? k = some s → e'.scope? k = some s' → (s'.Settled ↔ s.Settled)) :
    Layered e' where
  base_ready hs' hb := by
    obtain ⟨s, hs, hR⟩ := hr.back hs'
    obtain ⟨t, ht, hsettled, ho⟩ := h.base_ready hs (hR.base ▸ hb)
    obtain ⟨t', ht', hR'⟩ := hr.scope ht
    exact ⟨t', ht', (hstate ht ht').mpr hsettled, hR'.owner.trans ho⟩
  ranked := by
    obtain ⟨rank, hrank⟩ := h.ranked
    refine ⟨rank, fun hs' hsettled hj => ?_⟩
    obtain ⟨s, hs, hR⟩ := hr.back hs'
    exact hrank hs ((hstate hs hs').mp hsettled) (hR.restsOn_iff.mp hj)

/-- Scopes are declared. -/
theorem Layered.redeclares (h : Layered e) (hr : Redeclares e e') : Layered e' where
  base_ready hs' hb := by
    obtain ⟨t, ht, hsettled, ho⟩ := hr.base_ready h.base_ready hs' hb
    exact ⟨t, hr.kept ht hsettled, hsettled, ho⟩
  ranked := by
    obtain ⟨rank, hrank⟩ := h.ranked
    exact ⟨rank, fun hs' hsettled hj => hrank (hr.settled_back hs' hsettled) hsettled hj⟩

/-- **The scope of a definition is processed.** What is inside of it gets ranks above all others,
    the newer the lower. -/
theorem Layered.processed (h : Layered e) (hs : Sound (id :: roots) e)
    (hrun : processScope id e = (.ok (), e')) : Layered e' := by
  have hproc := hs.pending.processScope hs
  have hlayout := processScope_layout id e
  rw [hrun] at hproc hlayout
  have hkept : ∀ {k s}, e.scope? k = some s → s.Settled → e'.scope? k = some s :=
    fun hk hsettled => by
    obtain ⟨s', hs', hR⟩ := hproc.progressed.scope hk
    exact hR.settled hsettled ▸ hs'
  refine ⟨fun hs' hb => ?_, ?_⟩
  · obtain ⟨s, hs₀, hR⟩ := hlayout.back hs'
    obtain ⟨t, ht, hsettled, ho⟩ := h.base_ready hs₀ (hR.base ▸ hb)
    exact ⟨t, hkept ht hsettled, hsettled, ho⟩
  classical
  obtain ⟨rank, hrank⟩ := h.ranked
  obtain ⟨bound, hbound⟩ := e.exists_rank_bound rank
  have hold : ∀ {k s}, e.scope? k = some s → s.Settled → ¬ e.Inside id k := fun hk hsettled hin =>
    hs.unsettled List.mem_cons_self hin hk hsettled
  refine ⟨fun k => if e.Inside id k then bound + (e.nextScope - k) else rank k,
    fun {k s' j} hs' hsettled hj => ?_⟩
  obtain ⟨s, hs₀, hR⟩ := hlayout.back hs'
  have hj₀ : s.RestsOn j := hR.restsOn_iff.mp hj
  beta_reduce
  by_cases hin : e.Inside id k
  · rw [if_pos hin]
    rcases hj₀ with hj₀ | hj₀ | hj₀
    · obtain ⟨t, ht, hsettled', -⟩ := hs.linked.reference_ready hs₀ hj₀
      rw [if_neg (hold ht hsettled')]
      exact (hbound ht).trans_le (Nat.le_add_right _ _)
    · obtain ⟨t, ht, hsettled', -⟩ := h.base_ready hs₀ hj₀
      rw [if_neg (hold ht hsettled')]
      exact (hbound ht).trans_le (Nat.le_add_right _ _)
    · -- What is nested in the scope is newer, and inside of the definition's as well.
      obtain ⟨t, ht, howner⟩ := hs.linked.child_owner hs₀ hj₀
      have hlt := (hs.linked.owner_child ht howner).1
      have hnext := hs.linked.lt_nextScope ht
      rw [if_pos (.nested ht howner hin)]
      exact Nat.add_lt_add_left (Nat.sub_lt_sub_left (hlt.trans hnext) hlt) bound
  · -- The scope was processed before, and so was what it rests on.
    have hsettled₀ : s.Settled := by
      obtain ⟨s₁, hs₁, hp⟩ := hproc.progressed.scope hs₀
      cases hs'.symm.trans hs₁
      exact (hp.relinked hin).settled.mp hsettled
    obtain ⟨t, ht, hsettled'⟩ := h.settled_of_restsOn hs.linked hs₀ hsettled₀ hj₀
    rw [if_neg hin, if_neg (hold ht hsettled')]
    exact hrank hs₀ hsettled₀ hj₀

/-- The scope of a definition is discarded. Scopes that are processed then rest
    on none inside of it. -/
theorem Layered.abandoned {e₂ : Engine} {key : Nat} (h : Layered e) (hs : Sound (id :: roots) e)
    (hr : Rescoped (fun _ => Scope.SameLayout) e e₂)
    (hkept : ∀ {k s}, e.scope? k = some s → s.Settled → e₂.scope? k = some s)
    (hout : ∀ {k s s₂}, ¬ e.Inside id k → e.scope? k = some s → e₂.scope? k = some s₂ →
      (s₂.Settled ↔ s.Settled))
    (ha : Abandoned id key e₂ e') : Layered e' := by
  have hinside : ∀ {k}, e₂.Inside id k ↔ e.Inside id k := hr.inside_iff fun _ _ _ hR => hR.owner
  refine ⟨fun hs' hb => ?_, ?_⟩
  · obtain ⟨hn, hs₂⟩ := ha.back hs'
    obtain ⟨s, hs₀, hR⟩ := hr.back hs₂
    obtain ⟨t, ht, hsettled, ho⟩ := h.base_ready hs₀ (hR.base ▸ hb)
    refine ⟨t, ha.kept (fun hin => ?_) (hkept ht hsettled), hsettled, ho⟩
    exact hs.unsettled List.mem_cons_self (hinside.mp hin) ht hsettled
  · obtain ⟨rank, hrank⟩ := h.ranked
    refine ⟨rank, fun hs' hsettled hj => ?_⟩
    obtain ⟨hn, hs₂⟩ := ha.back hs'
    obtain ⟨s, hs₀, hR⟩ := hr.back hs₂
    have hn₀ : ¬ e.Inside id _ := fun hin => hn (hinside.mpr hin)
    exact hrank hs₀ ((hout hn₀ hs₀ hs₂).mp hsettled) (hR.restsOn_iff.mp hj)

/-- **Scopes stay in layers, whatever is built.** -/
theorem layered_survives : Survives Layered where
  unchanged h hr _ := h.rescoped (hr.mono fun _ s _ _ heq => heq ▸ refl_of Scope.SameLayout s)
    fun hs hs' => by
      obtain ⟨_, hs₁, rfl⟩ := hr.scope hs
      cases hs'.symm.trans hs₁
      exact .rfl
  -- Only two events change what scopes rest on: a scope is processed, or it is given up.
  redeclares h _ _ hr _ := h.redeclares hr
  processed h hs _ hrun := h.processed hs hrun
  unprocessed {id _ e _ _ key} h hs _ hrun := by
    have hproc := hs.pending.processScope hs
    have hlayout := processScope_layout id e
    rw [hrun] at hproc hlayout
    -- What is processed by then is kept, and outside of the scope nothing is processed anew.
    refine h.abandoned hs hlayout (fun hk hsettled => ?_) (fun hn hk hk₂ => ?_)
      (abandon_abandoned hproc.linked id key)
    · obtain ⟨s', hs', hR⟩ := hproc.progressed.scope hk
      exact hR.settled hsettled ▸ hs'
    · obtain ⟨s', hs', hR⟩ := hproc.progressed.scope hk
      cases hk₂.symm.trans hs'
      exact (hR.relinked hn).settled
  failed {id _ e key} h hs :=
    h.abandoned hs (refl_of (Rescoped fun _ => Scope.SameLayout) e) (fun hk _ => hk)
      (fun _ hk hk₂ => by cases hk.symm.trans hk₂; exact .rfl) (abandon_abandoned hs.linked id key)

/-- **So they do across calls.** -/
theorem layered_callwise : Callwise (Preserves Layered) := by
  refine layered_survives.callwise (fun h hs hr _ => ?_) fun {e e' id slot r} h hrun => ?_
  · refine h.rescoped (hr.mono fun _ _ _ _ hR => hR.sameLayout) fun hk hk' => ?_
    obtain ⟨s', hs', hR⟩ := hr.scope hk
    cases hk'.symm.trans hs'
    exact iff_of_true (hR.settled (hs.settled hk)) (hs.settled hk)
  · have hrenamed := nameFor_renamed id slot e
    rw [hrun] at hrenamed
    refine h.rescoped (hrenamed.mono fun _ _ _ _ hR => hR.sameLayout) fun hk hk' => ?_
    obtain ⟨s', hs', hR⟩ := hrenamed.scope hk
    cases hk'.symm.trans hs'
    exact hR.relinked.settled

/-- An engine without scopes has no layers. -/
theorem layered_create (naming : NamingConfig) (catalog : Catalog) (ambient : Ambient) :
    Layered (create naming catalog ambient) where
  base_ready hs := by cases hs
  ranked := ⟨fun _ => 0, fun hs => by cases hs⟩

end Engine

open Engine

/-- **After any calls the scopes stand in layers.** -/
theorem Run.layered {μ : Type} {library : Library μ} {naming : NamingConfig} {catalog : Catalog}
    {ambient : Ambient} {memory : μ} {s : Engine × μ} {steps : List (Request μ × Answer)}
    (h : Run library (create naming catalog ambient, memory) steps s) : Layered s.1 := by
  have hs := sound_create naming catalog ambient
  exact (h.callwise layered_callwise hs hs.unnamed (layered_create naming catalog ambient)).2

/-! ### Looking names up ends -/

namespace Engine

variable {e e' : Engine} {id k : ScopeId} {slot : String} {rank : ScopeId → Nat}

/-- What scopes extend is there, and has a lower rank. -/
structure Founded (rank : ScopeId → Nat) (e : Engine) : Prop where
  base {k s b} : e.scope? k = some s → s.base = some b → rank b < rank k ∧ b ∈ e.scopes.keys

/-- Changes that keep layouts. -/
theorem Founded.rescoped (h : Founded rank e) (hr : Rescoped (fun _ => Scope.SameLayout) e e') :
    Founded rank e' where
  base hs' hb := by
    obtain ⟨s, hs, hR⟩ := hr.back hs'
    rw [hr.keys]
    exact h.base hs (hR.base ▸ hb)

/-- A scope that is not processed may have any rank above those that are. -/
theorem Layered.founded (h : Layered e) : ∃ rank, Founded rank e := by
  classical
  obtain ⟨rank, hrank⟩ := h.ranked
  obtain ⟨bound, hbound⟩ := e.exists_rank_bound rank
  refine ⟨fun k => if ∃ s, e.scope? k = some s ∧ s.Settled then rank k else bound,
    ⟨fun {k s b} hs hb => ?_⟩⟩
  obtain ⟨t, ht, hsettled, -⟩ := h.base_ready hs hb
  refine ⟨?_, mem_keys_of_scope? ht⟩
  have hb' : ∃ s, e.scope? b = some s ∧ s.Settled := ⟨t, ht, hsettled⟩
  rw [if_pos hb']
  by_cases hk : ∃ s, e.scope? k = some s ∧ s.Settled
  · rw [if_pos hk]
    obtain ⟨u, hu, husettled⟩ := hk
    cases hs.symm.trans hu
    exact hrank hs husettled (.base hb)
  · rw [if_neg hk]
    exact hbound ht

/-! ### Along scopes that are extended -/

/-- **The walk along scopes that are extended ends,** with a name or without one. -/
theorem inheritedWithin_ends (h : Founded rank e) (slot : String) {limit : Nat}
    {base : Option ScopeId}
    (hlimit : ∀ b, base = some b → e.below rank b < limit) :
    ∃ found, ∀ more, limit ≤ more → e.inheritedWithin slot more base = .ok found := by
  induction limit generalizing base with
  | zero =>
    cases base with
    | none => exact ⟨none, fun more _ => by cases more <;> rfl⟩
    | some b => exact absurd (hlimit b rfl) (Nat.not_lt_zero _)
  | succ limit ih =>
    cases base with
    | none => exact ⟨none, fun more _ => by cases more <;> rfl⟩
    | some b =>
      -- The first step is the same for all of these limits.
      have hstep : ∀ {r}, (∀ rest, limit ≤ rest → e.inheritedWithin slot (rest + 1) (some b) = r) →
          ∀ more, limit + 1 ≤ more → e.inheritedWithin slot more (some b) = r := by
        intro r hr more hmore
        obtain ⟨rest, rfl⟩ := Nat.exists_eq_succ_of_ne_zero (Nat.ne_zero_of_lt hmore)
        exact hr rest (Nat.le_of_succ_le_succ hmore)
      cases hs : e.scope? b with
      | none => exact ⟨none, hstep fun rest _ => by simp only [inheritedWithin, hs]⟩
      | some s =>
        cases hname : s.nameOf? slot with
        | some name => exact ⟨some name, hstep fun rest _ =>
            by simp only [inheritedWithin, hs, hname]⟩
        | none =>
          have hbase : ∀ c, s.base = some c → e.below rank c < limit := fun c hc => by
            obtain ⟨hlt, hlive⟩ := h.base hs hc
            exact (below_lt_of_live hlt hlive).trans_le (Nat.le_of_lt_succ (hlimit b rfl))
          obtain ⟨found, hfound⟩ := ih hbase
          refine ⟨found, hstep fun rest hrest => ?_⟩
          simp only [inheritedWithin, hs, hname, hfound rest hrest]

/-- So an inherited name is found or missing. -/
theorem inheritedWithin_walkLimit (h : Founded rank e) (slot : String) (base : Option ScopeId) :
    ∃ found, ∀ more, e.walkLimit ≤ more → e.inheritedWithin slot more base = .ok found :=
  inheritedWithin_ends h slot fun b _ => below_lt_walkLimit e b

/-! ### Along owners -/

/-- The outermost scope has a name for the slot, or gets one. -/
theorem foundName_outermost (h : Founded rank e) {s : Scope} (howner : s.owner = none)
    (slot : String) :
    ∃ name e', ∀ limit, foundName limit s slot e = (.ok name, e') := by
  obtain ⟨found, hfound⟩ := inheritedWithin_walkLimit h slot s.base
  cases found with
  | some name =>
    refine ⟨name, e, fun limit => ?_⟩
    unfold foundName
    simp only [howner, stateful_bind, stateful_get, hfound _ le_rfl]
    rfl
  | none =>
    refine ⟨(e.naming.generate s.name slot).name, (generateName s.name slot e).2, fun limit => ?_⟩
    unfold foundName
    simp only [howner, stateful_bind, stateful_get, hfound _ le_rfl]
    rfl

/-- A name that the scope has is the name. -/
theorem nameForWithin_known {s : Scope} {name : String} (limit : Nat) (hs : e.scope? id = some s)
    (hname : s.nameOf? slot = some name) : nameForWithin (limit + 1) id slot e = (.ok name, e) := by
  rw [nameForWithin_succ, stateful_bind_ok (requireScope_some hs)]
  simp only [hname]
  rfl

/-- Another name is kept. -/
theorem nameForWithin_found {s : Scope} {name : String} {limit : Nat} (hs : e.scope? id = some s)
    (hname : s.nameOf? slot = none) (hfound : foundName limit s slot e = (.ok name, e')) :
    nameForWithin (limit + 1) id slot e =
      (.ok name, e'.modifyScope id fun s => { s with names := s.names.insert slot name }) := by
  rw [nameForWithin_succ, stateful_bind_ok (requireScope_some hs)]
  simp only [hname]
  rw [stateful_bind_ok hfound]
  rfl

/-- **The walk along owners ends with a name.** -/
theorem nameForWithin_ends (hl : Linked e) (h : Founded rank e) (slot : String)
    {limit : Nat} {s : Scope}
    (hs : e.scope? id = some s) (hlimit : e.below (fun k => k) id < limit) :
    ∃ name e', ∀ more, limit ≤ more → nameForWithin more id slot e = (.ok name, e') := by
  induction limit generalizing id s with
  | zero => exact absurd hlimit (Nat.not_lt_zero _)
  | succ limit ih =>
    -- What the scope does not know comes from its owner, or from the scopes it extends.
    have hfound : ∃ name e', ∀ more, limit ≤ more → foundName more s slot e = (.ok name, e') := by
      cases howner : s.owner with
      | none =>
        obtain ⟨name, e', hwalk⟩ := foundName_outermost h howner slot
        exact ⟨name, e', fun more _ => hwalk more⟩
      | some o =>
        obtain ⟨hlt, t, ht, -⟩ := hl.owner_child hs howner
        have hbelow : e.below (fun k => k) o < e.below (fun k => k) id :=
          below_lt_of_live hlt (mem_keys_of_scope? ht)
        obtain ⟨name, e', hwalk⟩ := ih ht (hbelow.trans_le (Nat.le_of_lt_succ hlimit))
        exact ⟨name, e', fun more hmore => by rw [foundName_some howner, hwalk more hmore]⟩
    obtain ⟨name, e', hfound⟩ := hfound
    have hsplit : ∀ more, limit + 1 ≤ more → ∃ rest, more = rest + 1 ∧ limit ≤ rest :=
      fun more hmore => ⟨more - 1, by omega, by omega⟩
    cases hname : s.nameOf? slot with
    | some known =>
      refine ⟨known, e, fun more hmore => ?_⟩
      obtain ⟨rest, rfl, -⟩ := hsplit more hmore
      exact nameForWithin_known rest hs hname
    | none =>
      refine ⟨name, e'.modifyScope id fun s => { s with names := s.names.insert slot name },
        fun more hmore => ?_⟩
      obtain ⟨rest, rfl, hrest⟩ := hsplit more hmore
      exact nameForWithin_found hs hname (hfound rest hrest)

/-- **A scope that is there has a name for each slot,** with the limit on walks
    and with any higher one. -/
theorem nameFor_ends (hl : Linked e) (h : Layered e) (slot : String) {s : Scope}
    (hs : e.scope? id = some s) :
    ∃ name e', ∀ more, e.walkLimit ≤ more → nameForWithin more id slot e = (.ok name, e') := by
  obtain ⟨rank, hrank⟩ := h.founded
  exact nameForWithin_ends hl hrank slot hs (below_lt_walkLimit e id)

end Engine

end StyleBook
