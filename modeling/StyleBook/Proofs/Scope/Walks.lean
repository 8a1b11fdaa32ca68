import StyleBook.Proofs.Rule.Clones
import StyleBook.Proofs.Scope.Layers
import StyleBook.Proofs.Text.TextErrors

namespace StyleBook

/-!
# Walks that end

Scopes use scopes, extend scopes and have groups about scopes. None of these ways leads back to
where it started, also where rules of groups were copied, and owners do not lead back either.

Texts are written, scopes activated and released, and names found by walking from scope to scope. No
such walk comes back to where it was, so it ends by itself: the limits on walks are there for the
definitions only.

* `Engine.Points`, `Engine.Grounded rank` — where scopes lead, and that they lead to lower rank
* `Engine.not_transGen_self` — then nothing leads back
* `Engine.Grounded.called`, `CopyingRun.grounded` — scopes are grounded after any calls
* `Ends` — a walk ends by itself; `Ends.bind`, `Ends.step` — how walks are put together
* `Engine.serializeWithin_ends`, `Engine.activateWithin_ends`, `Engine.deactivateWithin_ends` — each
  of these walks ends when the limit suffices
* `CopyingRun.walks_end` — after any calls nothing leads back, and all walks end
-/

namespace Engine

variable {e e' : Engine} {k j : ScopeId} {rank : ScopeId → Nat}

/-- **Where a scope leads:** it uses the other one, extends it, or has a group about it. -/
inductive Points (e : Engine) (k j : ScopeId) : Prop
  | reference {s} (hs : e.scope? k = some s) (h : j ∈ s.references)
  | base {s} (hs : e.scope? k = some s) (h : s.base = some j)
  | group (h : e.Groups k j)

/-- The scope is nested in the other one. -/
def OwnedBy (e : Engine) (k o : ScopeId) : Prop := ∃ s, e.scope? k = some s ∧ s.owner = some o

/-- **Scopes lead to scopes of lower rank,** which are there. -/
structure Grounded (rank : ScopeId → Nat) (e : Engine) : Prop where
  lower {k j : ScopeId} : e.Points k j → rank j < rank k
  live {k j : ScopeId} : e.Points k j → j ∈ e.scopes.keys

/-- Where a scope leads, it led before, if layouts are kept. -/
theorem Points.back (h : e'.Points k j) (hr : Rescoped (fun _ => Scope.SameLayout) e e') :
    e.Points k j := by
  cases h with
  | reference hs' hj =>
    obtain ⟨s, hs, hR⟩ := hr.back hs'
    exact .reference hs (hR.references ▸ hj)
  | base hs' hj =>
    obtain ⟨s, hs, hR⟩ := hr.back hs'
    exact .base hs (hR.base ▸ hj)
  | group h => exact .group (h.back hr fun _ _ _ hR => hR.contents)

/-- A rank that falls along a relation keeps it from leading back. -/
theorem not_transGen_self (rank : ScopeId → Nat) {r : ScopeId → ScopeId → Prop}
    (h : ∀ {k j}, r k j → rank j < rank k) (k : ScopeId) : ¬ Relation.TransGen r k k := by
  have hlt : ∀ {k j}, Relation.TransGen r k j → rank j < rank k := fun hkj => by
    induction hkj with
    | single h₁ => exact h h₁
    | tail _ h₁ ih => exact (h h₁).trans ih
  exact fun hk => lt_irrefl _ (hlt hk)

/-- Owners do not lead back: what is nested is newer. -/
theorem Linked.not_owned_self (hl : Linked e) (k : ScopeId) :
    ¬ Relation.TransGen e.OwnedBy k k := by
  have holder : ∀ {k o}, e.OwnedBy k o → o < k := fun ⟨_, hs, ho⟩ => (hl.owner_child hs ho).1
  exact not_transGen_self (fun k => k) holder k

namespace Grounded

/-- The layout is all that ranks depend on. -/
theorem rescoped (h : Grounded rank e) (hr : Rescoped (fun _ => Scope.SameLayout) e e') :
    Grounded rank e' where
  lower hp := h.lower (hp.back hr)
  live hp := hr.keys ▸ h.live (hp.back hr)

/-- Users do not matter for them. -/
theorem reused (h : Grounded rank e) (hr : Rescoped (fun _ => Scope.Reused True) e e') :
    Grounded rank e' := h.rescoped (hr.mono fun _ _ _ _ hR => hR.sameLayout)

/-- The ranks serve for references. -/
theorem ranked (h : Grounded rank e) : Ranked rank e where
  reference hs hr := ⟨h.lower (.reference hs hr), h.live (.reference hs hr)⟩

/-- And for what scopes extend. -/
theorem founded (h : Grounded rank e) : Founded rank e where
  base hs hb := ⟨h.lower (.base hs hb), h.live (.base hs hb)⟩

/-- **A call keeps scopes grounded.** Those that were there lead where they led. The new ones lead
    to old ones, or to new ones of a lower layer; a rule of a group that was
    copied leads to an old one. -/
theorem called (h : Grounded rank e) (hs' : Sound [] e') (hl : Layered e')
    (hc : Carries (fun _ => Scope.Continued) e e')
    (hst : Stocks (fun j => ∃ k, e.Groups k j) e e') : ∃ rank', Grounded rank' e' := by
  classical
  obtain ⟨layer, hlayer⟩ := hl.ranked
  obtain ⟨bound, hbound⟩ := e.exists_rank_bound rank
  have hlive : ∀ {k}, k ∈ e.scopes.keys → k ∈ e'.scopes.keys := fun hk => by
    obtain ⟨s, hs⟩ := mem_keys_iff.mp hk
    obtain ⟨s', hs', -⟩ := hc _ s hs
    exact mem_keys_of_scope? hs'
  -- What an old scope leads to is old, and it did before.
  have hold : ∀ {k j}, k ∈ e.scopes.keys → e'.Points k j → e.Points k j := fun {k j} hk hp => by
    obtain ⟨s, hs⟩ := mem_keys_iff.mp hk
    obtain ⟨s₁, hs₁, hcont⟩ := hc k s hs
    have heq := hcont.eq_names
    cases hp with
    | reference hs₂ hj =>
      cases hs₁.symm.trans hs₂
      rw [heq] at hj
      exact .reference hs hj
    | base hs₂ hj =>
      cases hs₁.symm.trans hs₂
      rw [heq] at hj
      exact .base hs hj
    | group hg =>
      obtain ⟨s₂, hs₂, rule, hrule, hcondition⟩ := hg
      cases hs₁.symm.trans hs₂
      rw [heq] at hrule
      exact .group ⟨s, hs, rule, hrule, hcondition⟩
  -- A new scope leads to an old one, or to one of a lower layer.
  have hnew : ∀ {k j}, k ∉ e.scopes.keys → e'.Points k j →
      j ∈ e.scopes.keys ∨ layer j < layer k ∧ j ∈ e'.scopes.keys := fun {k j} hk hp => by
    have hrests : ∀ {s'}, e'.scope? k = some s' → s'.RestsOn j →
        layer j < layer k ∧ j ∈ e'.scopes.keys := fun hs₂ hj => by
      obtain ⟨t, ht, -⟩ := hl.settled_of_restsOn hs'.linked hs₂ (hs'.settled hs₂) hj
      exact ⟨hlayer hs₂ (hs'.settled hs₂) hj, mem_keys_of_scope? ht⟩
    cases hp with
    | reference hs₂ hj => exact .inr (hrests hs₂ (.reference hj))
    | base hs₂ hj => exact .inr (hrests hs₂ (.base hj))
    | group hg =>
      rcases hst.groups hg with ⟨s, hs, -⟩ | ⟨k', hcopied⟩ | ⟨t, ht, hj⟩
      · exact absurd (mem_keys_of_scope? hs) hk
      · exact .inl (h.live (.group hcopied))
      · exact .inr (hrests ht (.child hj))
  refine ⟨fun k => if k ∈ e.scopes.keys then rank k else bound + layer k, fun {k j} hp => ?_,
    fun {k j} hp => ?_⟩
  · have hlow : j ∈ e.scopes.keys → rank j < bound := fun hj => by
      obtain ⟨t, ht⟩ := mem_keys_iff.mp hj
      exact hbound ht
    by_cases hk : k ∈ e.scopes.keys
    · have hp₀ := hold hk hp
      rw [if_pos hk, if_pos (h.live hp₀)]
      exact h.lower hp₀
    · rw [if_neg hk]
      rcases hnew hk hp with hj | ⟨hlt, -⟩
      · rw [if_pos hj]
        exact (hlow hj).trans_le (Nat.le_add_right _ _)
      · split
        · exact (hlow ‹_›).trans_le (Nat.le_add_right _ _)
        · exact Nat.add_lt_add_left hlt bound
  · by_cases hk : k ∈ e.scopes.keys
    · exact hlive (h.live (hold hk hp))
    · exact (hnew hk hp).elim hlive fun hj => hj.2

end Grounded

end Engine

open Engine

variable {μ : Type} {library : Library μ} {naming : NamingConfig} {catalog : Catalog}
    {ambient : Ambient}
  {memory : μ} {steps : List (Request μ × Answer)} {s : Engine × μ}

/-- **After any calls scopes are grounded,** if rules of groups are only copied. -/
theorem CopyingRun.grounded
    (h : CopyingRun library (create naming catalog ambient, memory) steps s) :
    ∃ rank, Grounded rank s.1 := by
  induction h with
  | start =>
    have hnone : ∀ {k j}, ¬ (create naming catalog ambient).Points k j := by
      rintro k j (⟨hs, -⟩ | ⟨hs, -⟩ | ⟨_, hs, -⟩) <;> cases hs
    exact ⟨fun _ => 0, fun hp => absurd hp hnone, fun hp => absurd hp hnone⟩
  | @call σ _ steps e m r s' before request sink copies hperform ih =>
    obtain ⟨rank, hrank⟩ := ih
    have hrun := before.run.call request sink hperform
    have hs := before.run.sound (sound_create naming catalog ambient)
    have hperformed := Request.performed hperform
    exact hrank.called (hperformed.sound hs) hrun.layered
      ((hperformed.served hs (request.declares_anything library (e, m))).continued hs)
      (hperformed.stocks hs copies)

/-! ### Walks that end -/

variable {S α β : Type}

/-- **A walk with a limit ends by itself:** a higher limit comes to the same, and it is not for the
    limit that the walk stops. -/
structure Ends (walk : Nat → ExceptT Error (StateM S) α) (limit : Nat) (s : S) : Prop where
  same {more : Nat} : limit ≤ more → walk more s = walk limit s
  within (chain : String) : (walk limit s).1 ≠ .error (.endless chain)

namespace Ends

variable {walk : Nat → ExceptT Error (StateM S) α} {limit : Nat} {s : S}

/-- A computation without a limit. -/
theorem const {c : ExceptT Error (StateM S) α} (h : ∀ chain, (c s).1 ≠ .error (.endless chain)) :
    Ends (fun _ => c) limit s := ⟨fun _ => rfl, h⟩

/-- It has a result. -/
theorem ok {c : ExceptT Error (StateM S) α} {a : α} (h : (c s).1 = .ok a) :
    Ends (fun _ => c) limit s := const fun chain => by rw [h]; exact nofun

/-- One walk after the other. -/
theorem bind {rest : Nat → α → ExceptT Error (StateM S) β} (h : Ends walk limit s)
    (hrest : ∀ a s', walk limit s = (.ok a, s') → Ends (fun limit => rest limit a) limit s') :
    Ends (fun limit => walk limit >>= rest limit) limit s where
  same hle := by
    rw [stateful_bind, stateful_bind, h.same hle]
    rcases hwalk : walk limit s with ⟨err | a, s'⟩
    · rfl
    · exact (hrest a s' hwalk).same hle
  within chain := by
    rw [stateful_bind]
    have hne := h.within chain
    rcases hwalk : walk limit s with ⟨err | a, s'⟩ <;> rw [hwalk] at hne
    · intro heq
      cases heq
      exact hne rfl
    · exact (hrest a s' hwalk).within chain

/-- A walk ends if so it does behind its first step. -/
theorem step (h : Ends (fun limit => walk (limit + 1)) limit s) : Ends walk (limit + 1) s where
  same {more} hle := by
    obtain ⟨rest, rfl⟩ : ∃ rest, more = rest + 1 := ⟨more - 1, by omega⟩
    exact h.same (Nat.le_of_succ_le_succ hle)
  within := h.within

/-- The same walk, written in another way. -/
theorem congr {walk' : Nat → ExceptT Error (StateM S) α} {s' : S} (h : Ends walk limit s)
    (heq : ∀ limit, walk' limit s' = walk limit s) : Ends walk' limit s' where
  same hle := by rw [heq, heq, h.same hle]
  within chain := by
    rw [heq]
    exact h.within chain

/-- A walk that comes to the same for all limits. -/
theorem of_eq {r : Except Error α × S} (h : ∀ limit, walk limit s = r)
    (hr : ∀ chain, r.1 ≠ .error (.endless chain)) : Ends walk limit s where
  same _ := (h _).trans (h _).symm
  within chain := by
    rw [h]
    exact hr chain

end Ends

namespace Engine

variable {e : Engine} {rank : ScopeId → Nat} {id k : ScopeId} {limit : Nat}

/-! ### Texts -/

/-- The error is not about a limit. -/
def Limitless (err : Error) : Prop := ∀ chain, err ≠ .endless chain

/-- A conversion that does not stop for the limit ends with every limit. -/
theorem ends_of_fails {c : Convert α} (h : Convert.Fails Limitless c) (a : Ambient) :
    Ends (fun _ => c) limit a := .const fun chain herr => h a _ herr chain rfl

/-- A missing name is not a limit that is reached. -/
theorem limitless_of_lacks {names : StyleBook.Names} {rule : Rule} {err : Error}
    (h : rule.Lacks names err) :
    Limitless err := by
  rintro chain rfl
  cases h with
  | own _ _ herr => cases herr
  | selector _ _ hl | dependent _ _ hl => cases hl.2

/-- Rules are written after finitely many steps, if their groups are. -/
theorem ruleTexts_ends {nested : Nat → ScopeId → Convert (List String)} (rules : List Rule)
    (hnested : ∀ rule ∈ rules, ∀ condition j, rule.content = .group condition j →
      ∀ a, Ends (fun limit => nested limit j) limit a) (a : Ambient) :
    Ends (fun limit => ruleTexts e (nested limit) rules) limit a := by
  induction rules generalizing a with
  | nil => exact .ok rfl
  | cons rule rest ih =>
    -- Each rule adds its texts to those of the rest, and only groups ask for a smaller limit.
    have hrest := ih fun r hr => hnested r (List.mem_cons_of_mem _ hr)
    have htail : ∀ (texts : List String) a, Ends (fun limit => do
        let others ← ruleTexts e (nested limit) rest
        return texts ++ others) limit a := fun texts a => (hrest a).bind fun _ _ _ => .ok rfl
    have hgroup : ∀ condition j, rule.content = .group condition j → ∀ a,
        Ends (fun limit => ruleTexts.groupText (nested limit) condition j) limit a :=
      fun condition j hcontent a => by
        unfold ruleTexts.groupText
        exact (hnested rule List.mem_cons_self condition j hcontent a).bind fun _ _ _ => .ok rfl
    have hcss : ∀ a, Ends (fun _ => rule.css e.setting) limit a := ends_of_fails <|
      (Rule.css_fails rule).mono fun _ => limitless_of_lacks
    unfold ruleTexts
    split
    · exact htail [] a
    · exact htail [] a
    · next condition j hcontent =>
      refine .bind ?_ fun texts a _ => htail texts a
      unfold ruleTexts.groupTexts
      split
      · split
        · exact hgroup _ j hcontent a
        · exact .ok rfl
      · exact hgroup _ j hcontent a
    · exact (hcss a).bind fun texts a _ => htail texts a

/-- **Writing the text of a scope ends** when the limit suffices. -/
theorem serializeWithin_ends (h : Grounded rank e) (hlimit : e.below rank k < limit) (a : Ambient) :
    Ends (fun limit => e.serializeWithin limit k) limit a := by
  induction limit generalizing k a with
  | zero => exact absurd hlimit (Nat.not_lt_zero _)
  | succ limit ih =>
    refine .step ?_
    unfold serializeWithin
    cases hs : e.scope? k with
    | none => exact .const fun _ herr => by cases herr
    | some s =>
      have hvars : ∀ a, Ends (fun _ => rootDeclarations e.setting s.rules) limit a :=
        ends_of_fails <|
        (rootDeclarations_fails s.rules).mono fun _ hamong => by
          obtain ⟨_, _, hlacks⟩ := hamong
          exact limitless_of_lacks hlacks
      refine (hvars a).bind fun vars a _ =>
        (ruleTexts_ends s.rules (fun rule hrule condition j hcontent a =>
        ih ?_ a) a).bind fun _ _ _ => .ok rfl
      -- What a group is about has a lower rank.
      have hp : e.Points k j := .group ⟨s, hs, rule, hrule, condition, hcontent⟩
      exact (below_lt_of_live (h.lower hp) (h.live hp)).trans_le (Nat.le_of_lt_succ hlimit)

/-- Whatever the limit, the text of no scope is endless. -/
theorem serialize_limitless (h : Grounded rank e) (k : ScopeId) (a : Ambient) (chain : String) :
    (e.serialize k a).1 ≠ .error (.endless chain) :=
  (serializeWithin_ends h (below_lt_walkLimit e k) a).within chain

/-! ### Users -/

variable {σ : Type} [Sink σ]

/-- Scopes are released one after the other, if each is released after finitely many steps. -/
theorem deactivateEach_ends (list : List ScopeId) (s : Engine × σ) (h : Grounded rank s.1)
    (hlist : ∀ r ∈ list, ∀ s', Reuses (fun _ => True) s s' →
      Ends (fun limit => deactivateWithin limit r) limit s') :
    Ends (fun limit => deactivateEach (deactivateWithin limit) list) limit s := by
  induction list generalizing s with
  | nil => exact .ok rfl
  | cons r rest ih =>
    refine (hlist r List.mem_cons_self s (.refl _)).bind fun _ s₁ h₁ => ?_
    have hR : Reuses (fun _ => True) s (deactivateWithin limit r s).2 :=
      Rescoped.mono (deactivateWithin_reused limit r s h.ranked) fun _ _ _ _ hk =>
        hk.mono fun _ => trivial
    rw [h₁] at hR
    exact ih s₁ (h.reused hR) fun a ha s' hs' =>
      hlist a (List.mem_cons_of_mem _ ha) s' (hR.trans hs')

/-- **Releasing a user ends** when the limit suffices. -/
theorem deactivateWithin_ends (s : Engine × σ) (h : Grounded rank s.1)
    (hlimit : s.1.below rank id < limit) :
    Ends (fun limit => deactivateWithin limit id) limit s := by
  induction limit generalizing id s with
  | zero => exact absurd hlimit (Nat.not_lt_zero _)
  | succ limit ih =>
    obtain ⟨e, sink⟩ := s
    -- One step of the limit is spent on the scope itself; only its last user goes on to its
    -- references.
    refine .step ?_
    cases hs : e.scope? id with
    | none => exact .of_eq (fun _ => deactivateWithin_unknown hs) fun _ => nofun
    | some t =>
      match hu : t.users with
      | 0 => exact .of_eq (fun _ => deactivateWithin_idle hs hu) fun _ => nofun
      | users + 2 => exact .of_eq (fun _ => deactivateWithin_shared hs hu) fun _ => nofun
      | 1 =>
        have hclear : Rescoped (fun _ => Scope.Reused True) e (e.clear id t) :=
          (Rescoped.modifyScope fun t _ => .clear trivial).trans (.report _)
        refine .congr (deactivateEach_ends t.references.reverse (e.clear id t, Sink.remove id sink)
          (h.reused hclear) fun r hr s' hs' => ih s' (h.reused (hclear.trans hs')) ?_)
          fun _ => deactivateWithin_last hs hu
        have hp : e.Points id r := .reference hs (List.mem_reverse.mp hr)
        rw [(hclear.trans hs').below]
        exact (below_lt_of_live (h.lower hp) (h.live hp)).trans_le (Nat.le_of_lt_succ hlimit)

/-- Scopes are activated one after the other, if each is activated after finitely many steps. -/
theorem activateEach_ends (list done : List ScopeId) (s : Engine × σ) (h : Grounded rank s.1)
    (hlist : ∀ r ∈ list, ∀ s', Reuses (fun _ => True) s s' →
      Ends (fun limit => activateWithin limit r) limit s') :
    Ends (fun limit => activateEach (activateWithin limit) done list) limit s := by
  induction list generalizing done s with
  | nil => exact .ok rfl
  | cons r rest ih =>
    have hfirst := hlist r List.mem_cons_self s (.refl _)
    have hR : Reuses (fun _ => True) s (activateWithin limit r s).2 :=
      Rescoped.mono (activateWithin_reused limit r s h.ranked) fun _ _ _ _ hk =>
        hk.mono fun _ => trivial
    -- If the first one fails, the others are released, and this never fails itself.
    refine ⟨fun hle => ?_, fun chain => ?_⟩
    · rw [activateEach_cons, activateEach_cons, hfirst.same hle]
      rcases ha : activateWithin limit r s with ⟨err | ⟨⟩, s₁⟩
      · rfl
      · rw [ha] at hR
        exact (ih (r :: done) s₁ (h.reused hR) fun a ha s' hs' =>
          hlist a (List.mem_cons_of_mem _ ha) s' (hR.trans hs')).same hle
    · have hne := hfirst.within chain
      rw [activateEach_cons]
      rcases ha : activateWithin limit r s with ⟨err | ⟨⟩, s₁⟩ <;> rw [ha] at hR hne
      · exact hne
      · exact (ih (r :: done) s₁ (h.reused hR) fun a ha s' hs' =>
          hlist a (List.mem_cons_of_mem _ ha) s' (hR.trans hs')).within chain

/-- **Adding a user ends** when the limit suffices. -/
theorem activateWithin_ends (s : Engine × σ) (h : Grounded rank s.1)
    (hlimit : s.1.below rank id < limit) : Ends (fun limit => activateWithin limit id) limit s := by
  induction limit generalizing id s with
  | zero => exact absurd hlimit (Nat.not_lt_zero _)
  | succ limit ih =>
    obtain ⟨e, sink⟩ := s
    -- As before, now with the first user. Its text comes first and may fail, but never for the
    -- limit.
    refine .step ?_
    cases hs : e.scope? id with
    | none => exact .of_eq (fun _ => activateWithin_unknown hs) fun _ => nofun
    | some t =>
      match hu : t.users with
      | users + 1 => exact .of_eq (fun _ => activateWithin_shared hs hu) fun _ => nofun
      | 0 =>
        have htexts := serialize_limitless h id e.ambient
        have hfirst : ∀ limit, activateWithin (limit + 1) id (e, sink) = _ := fun _ =>
          activateWithin_first hs hu
        rcases hserialize : e.serialize id e.ambient with ⟨err | texts, ambient⟩ <;>
          rw [hserialize] at htexts hfirst
        · exact .of_eq hfirst fun chain heq => htexts chain (by cases heq; rfl)
        · have hambient : Rescoped (fun _ => Scope.Reused True) e { e with ambient } :=
            .of_scopes_eq rfl rfl rfl
          suffices hinserting : Ends (fun limit => inserting limit id t texts) limit
            ({ e with ambient }, sink) from hinserting.congr hfirst
          refine (activateEach_ends t.references [] ({ e with ambient }, sink) (h.reused hambient)
            fun r hr s' hs' => ih s' (h.reused (hambient.trans hs')) ?_).bind fun _ s₁ _ => ?_
          · have hp : e.Points id r := .reference hs hr
            rw [(hambient.trans hs').below]
            exact (below_lt_of_live (h.lower hp) (h.live hp)).trans_le (Nat.le_of_lt_succ hlimit)
          -- The references may have changed the scope, so it is looked up again.
          · have hrequire : ∀ s₂ : Engine × σ,
              Ends (fun _ => onEngine (requireScope id)) limit s₂ :=
              fun s₂ => .const fun chain => by
                rw [onEngine_apply]
                cases hs₂ : s₂.1.scope? id with
                | none => rw [requireScope_none hs₂]; exact nofun
                | some u => rw [requireScope_some hs₂]; exact nofun
            have hinserted :
              Ends (fun _ => changeSink (Sink.insertAll id texts)) limit s₁ := .ok rfl
            exact hinserted.bind fun _ s₂ _ => (hrequire s₂).bind fun _ _ _ => .ok rfl

/-! ### Names -/

/-- **Finding a name ends** with the limit on walks. -/
theorem nameForWithin_walkLimit (hl : Linked e) (h : Layered e) (k : ScopeId) (slot : String) :
    Ends (fun limit => nameForWithin limit k slot) e.walkLimit e := by
  cases hs : e.scope? k with
  | none =>
    have hunknown : ∀ limit, nameForWithin (limit + 1) k slot e = (.error .unknownScope, e) :=
      fun _ => by rw [nameForWithin_succ, stateful_bind_error (requireScope_none hs)]
    exact .step (.of_eq hunknown fun _ => nofun)
  | some t =>
    obtain ⟨name, e', hwalk⟩ := nameFor_ends hl h slot hs
    exact ⟨fun hle => (hwalk _ hle).trans (hwalk _ le_rfl).symm, fun chain => by
      rw [hwalk _ le_rfl]
      exact nofun⟩

end Engine

/-! ### After any calls -/

/-- **After any calls nothing leads back, and all walks end.** If rules of groups are only copied,
    scopes lead neither to themselves by what they use, extend and have groups about, nor by their
    owners; a scope has the owner in which it is nested. Texts, activations and releases come to the
    same with any limit from the number of scopes on, whoever uses scopes by then, and it is never
    for the limit that they stop; so do names, and those that are inherited. -/
theorem CopyingRun.walks_end
    (h : CopyingRun library (create naming catalog ambient, memory) steps s) :
    (∀ k, ¬ Relation.TransGen s.1.Points k k) ∧
      (∀ k, ¬ Relation.TransGen s.1.OwnedBy k k) ∧
      (∀ k o, s.1.OwnedBy k o ↔ ∃ t, s.1.scope? o = some t ∧ k ∈ t.children) ∧
      (∀ e, Rescoped (fun _ => Scope.Reused True) s.1 e → ∀ k,
        (∀ a, Ends (fun limit => e.serializeWithin limit k) e.walkLimit a) ∧
          ∀ {σ : Type} [Sink σ] (sink : σ),
            Ends (fun limit => activateWithin limit k) e.walkLimit (e, sink) ∧
              Ends (fun limit => deactivateWithin limit k) e.walkLimit (e, sink)) ∧
      (∀ k slot, Ends (fun limit => nameForWithin limit k slot) s.1.walkLimit s.1) ∧
      ∀ slot base, ∃ found, ∀ limit, s.1.walkLimit ≤ limit →
        s.1.inheritedWithin slot limit base = .ok found := by
  obtain ⟨rank, hrank⟩ := h.grounded
  have hs := h.run.sound (sound_create naming catalog ambient)
  -- The same ranks fall along all links, so none leads back, and they bound all walks.
  refine ⟨not_transGen_self rank hrank.lower, hs.linked.not_owned_self, fun k o => ⟨?_, ?_⟩,
    fun e he k => ?_, nameForWithin_walkLimit hs.linked h.run.layered,
    inheritedWithin_walkLimit hrank.founded⟩
  · rintro ⟨t, ht, ho⟩
    obtain ⟨-, u, hu, hk, -⟩ := hs.linked.owner_child ht ho
    exact ⟨u, hu, hk⟩
  · rintro ⟨u, hu, hk⟩
    exact hs.linked.child_owner hu hk
  · have he' := hrank.reused he
    exact ⟨serializeWithin_ends he' (below_lt_walkLimit e k), fun sink =>
      ⟨activateWithin_ends (e, sink) he' (below_lt_walkLimit e k),
        deactivateWithin_ends (e, sink) he' (below_lt_walkLimit e k)⟩⟩

/-- A library of a definition with a group. -/
def printLibrary : Library Unit := fun key =>
  ⟨key, "Card", "card", false, .group (.media "print") (.add "part" (.cls .empty) fun _ => .done)
    fun _ => .done⟩

/-- A definition that is given a copy of the rule of that group, and uses the definition with it. -/
def copyingDefinition : Definition Unit :=
  ⟨7, "Copy", "copy", false, .addUnnamed (.ofContent (.group (.media "print") 2)) fun _ =>
    .use 0 fun _ => .done⟩

/-- A scope with a copied group leads to the scope that the group is about, and its walks end. -/
theorem walks_end_of_copy : ∃ steps s,
    CopyingRun printLibrary (create {} .empty .initial, ()) steps s ∧ s.1.Points 1 2 ∧
      s.1.Points 3 2 ∧ s.1.Points 3 1 ∧ (∀ k, ¬ Relation.TransGen s.1.Points k k) ∧
      ∀ a, Ends (fun limit => s.1.serializeWithin limit 3) s.1.walkLimit a := by
  let about (t : Scope) : Bool := t.rules.any (·.content.nested? = some 2)
  have hout :
    (((Request.process 2 0).perform printLibrary (freshSession TextSink.empty)).any fun out =>
      (out.2.engine.scope? 1).any about &&
        ((Request.processInstance 2 copyingDefinition).perform printLibrary
          ⟨out.2.engine, (), TextSink.empty⟩).any fun out' =>
            (out'.2.engine.scope? 1).any about && (out'.2.engine.scope? 3).any about &&
              (out'.2.engine.scope? 3).any (fun t => 1 ∈ t.references)) = true := by decide +kernel
  obtain ⟨⟨r₁, s₁⟩, h₁, hp₁⟩ := (Option.any_eq_true _ _).mp hout
  obtain ⟨hcard, hcopy⟩ := Bool.and_eq_true_iff.mp hp₁
  obtain ⟨⟨r₂, s₂⟩, h₂, hp₂⟩ := (Option.any_eq_true _ _).mp hcopy
  simp only [Bool.and_eq_true] at hp₂
  obtain ⟨⟨hcard₂, hcopy₂⟩, huse⟩ := hp₂
  have hgroups : ∀ {e : Engine} {k : ScopeId}, (e.scope? k).any about = true → e.Groups k 2 := by
    intro e k h
    obtain ⟨t, ht, hany⟩ := (Option.any_eq_true _ _).mp h
    obtain ⟨rule, hrule, hnested⟩ := List.any_eq_true.mp hany
    exact ⟨t, ht, rule, hrule, RuleContent.eq_group_of_nested? (of_decide_eq_true hnested)⟩
  -- The library is given no rules of groups, and the definition only the copy.
  have hlibrary : ∀ {C : RuleContent → Prop}, (∀ body, C (.cls body)) →
      ∀ key, (printLibrary key).script.Offers C := fun hC key =>
    ⟨⟨hC _, fun _ => trivial⟩, fun _ => trivial⟩
  have hfirst : (Request.process 2 0).Copies printLibrary (create {} .empty .initial, ()) :=
    .of_offers (C := fun content => ∀ condition j, content ≠ .group condition j)
      (hlibrary fun _ _ _ => nofun) (fun a ha => by cases ha; exact hlibrary (fun _ _ _ => nofun) 0)
      fun condition j hne => absurd rfl (hne condition j)
  have hsecond : (Request.processInstance 2 copyingDefinition).Copies printLibrary
    (s₁.engine, ()) :=
    .of_offers (C := fun content => ∀ condition j, content = .group condition j → j = 2)
      (hlibrary fun _ _ _ => nofun)
      (fun a ha => by cases ha; exact ⟨fun _ _ h => by cases h; rfl, fun _ _ => trivial⟩)
      fun condition j hj => ⟨1, hj condition j rfl ▸ hgroups hcard⟩
  have hrun := (CopyingRun.start.call (.process 2 0) TextSink.empty hfirst h₁).call
    (.processInstance 2 copyingDefinition) TextSink.empty hsecond h₂
  obtain ⟨t, ht, hreference⟩ := (Option.any_eq_true _ _).mp huse
  obtain ⟨hcycles, -, -, hwalks, -⟩ := hrun.walks_end
  exact ⟨_, _, hrun, .group (hgroups hcard₂), .group (hgroups hcopy₂),
    .reference ht (of_decide_eq_true hreference), hcycles, (hwalks _ (.refl _) 3).1⟩

end StyleBook
