import StyleBook.Proofs.Engine.Merging

namespace StyleBook

/-!
# What rules inherit

The effective styleset of a rule is its own one over those of its parents, by recursion on the graph
of parents. Merging keeps effective stylesets with rules on the way, and what it keeps is right: it
is what the recursion gives that keeps nothing.

* `Engine.Parent`, `Engine.Acyclic` — the graph of parents;
* `Engine.Effective`, `Engine.effective` — the effective styleset of a rule: as a relation, which
  has none for a rule that is its own ancestor, and as a function, when there are no such rules;
* `Engine.Effective.rearranged` — it does not matter in which places rules are;
* `Engine.Truthful` — what is kept with rules is right;
* `Engine.mergeWithin_merges` — merging a rule gives its effective styleset and keeps only what is
  right.
-/

/-- Where a rule stands: its scope and its key. -/
abbrev Place := ScopeId × Nat

/-- Where the rule of a handle stands. -/
def RuleRef.place (r : RuleRef) : Place := (r.scope, r.key)

/-! ### Stylesets, part by part -/

namespace Styleset

/-- A change of the parts of stylesets, which leaves the names of properties alone. -/
structure Change where
  /-- What becomes of a value. -/
  declaration : Declaration → Declaration
  /-- What becomes of a custom property. -/
  custom : CustomProperty → CustomProperty
  /-- What becomes of a dependent styleset. -/
  dependent : Selector × Styleset → Selector × Styleset

namespace Change

variable (c : Change)

/-- The styleset with its parts changed. -/
def apply (s : Styleset) : Styleset where
  properties := s.properties.map (Prod.map id c.declaration)
  custom := s.custom.map c.custom
  dependents := s.dependents.map c.dependent

@[simp] theorem apply_empty : c.apply .empty = .empty := rfl

/-- Changing parts goes through merging. -/
theorem apply_merge (s source : Styleset) :
    c.apply (s.merge source) = (c.apply s).merge (c.apply source) := by
  unfold apply merge
  rw [List.map_append, List.map_append, List.foldl_map]
  congr 1
  exact (List.foldl_hom (List.map (Prod.map id c.declaration)) fun d a =>
    (Dict.map_insert c.declaration a.1 a.2 d).symm).symm

theorem apply_merged (parents : List Styleset) (own : Styleset) :
    c.apply (.merged parents own) = .merged (parents.map c.apply) (c.apply own) := by
  have hfold : c.apply (parents.foldl merge empty) = (parents.map c.apply).foldl merge empty := by
    rw [List.foldl_map]
    exact (List.foldl_hom c.apply fun s t => (c.apply_merge s t).symm).symm
  unfold merged
  rw [apply_merge, hfold]

end Change

end Styleset

namespace Engine

open Relation

variable {e e' : Engine} {r p : Place} {v w : Styleset} {body : StyleBody}

/-! ### The graph of parents -/

/-- The styleset and the parents of the rule in a place, if there is one that has them. -/
def body? (r : Place) (e : Engine) : Option StyleBody :=
  (e.rule? r.1 r.2).bind (·.content.body?)

/-- The rule in one place is a parent of the rule in another one. -/
def Parent (e : Engine) (p r : Place) : Prop :=
  ∃ body, e.body? r = some body ∧ p ∈ body.parents.map RuleRef.place

/-- **No rule is its own ancestor.** -/
def Acyclic (e : Engine) : Prop := ∀ r, ¬ TransGen e.Parent r r

theorem body?_eq_some_iff : e.body? r = some body ↔
    ∃ rule, e.rule? r.1 r.2 = some rule ∧ rule.content.body? = some body := Option.bind_eq_some_iff

theorem body?_of_rule {rule : Rule} (h : e.rule? r.1 r.2 = some rule) :
    e.body? r = rule.content.body? := by
  unfold body?
  rw [h, Option.bind_some]

theorem parent_of_mem (h : e.body? r = some body) {ref : RuleRef} (hr : ref ∈ body.parents) :
    e.Parent ref.place r := ⟨body, h, List.mem_map_of_mem hr⟩

/-- Stylesets and parents that are the same have the same graph. -/
theorem parent_congr (h : ∀ r, e'.body? r = e.body? r) : e'.Parent = e.Parent := by
  funext p r
  unfold Parent
  rw [h]

/-- **No cycle leads to the rule:** neither it nor a rule above it is its own ancestor. -/
def Unlooped (e : Engine) (r : Place) : Prop :=
  ∀ q, ReflTransGen e.Parent q r → ¬ TransGen e.Parent q q

/-- Where no cycle leads to, going to parents ends. -/
theorem Unlooped.acc (h : e.Unlooped r) : Acc e.Parent r := by
  -- The places of rules are finitely many, and only rules have parents.
  have hfinite : Finite {p // p ∈ e.allRules ∧ ReflTransGen e.Parent p r} :=
    ((List.finite_toSet e.allRules).subset fun p hp => hp.1).to_subtype
  let Above (p q : {p // p ∈ e.allRules ∧ ReflTransGen e.Parent p r}) : Prop :=
    TransGen e.Parent p.1 q.1
  have htrans : IsTrans _ Above := ⟨fun _ _ _ => TransGen.trans⟩
  have hirrefl : Std.Irrefl Above := ⟨fun p => h p.1 p.2.2⟩
  have hwf : WellFounded Above := Finite.wellFounded_of_trans_of_irrefl Above
  have hnone : ∀ {p}, e.body? p = none → Acc e.Parent p := fun hbody => by
    refine ⟨_, fun a ha => ?_⟩
    obtain ⟨body, hb, -⟩ := ha
    cases hbody.symm.trans hb
  have hmem : ∀ {p body}, e.body? p = some body → p ∈ e.allRules := fun hbody => by
    obtain ⟨rule, hrule, -⟩ := body?_eq_some_iff.mp hbody
    exact mem_allRules hrule
  have hrules : ∀ p : {p // p ∈ e.allRules ∧ ReflTransGen e.Parent p r}, Acc e.Parent p.1 := by
    intro p
    induction p using hwf.induction with
    | _ p ih =>
      refine ⟨_, fun q hq => ?_⟩
      cases hbody : e.body? q with
      | none => exact hnone hbody
      | some body => exact ih ⟨q, hmem hbody, .head hq p.2.2⟩ (.single hq)
  cases hbody : e.body? r with
  | none => exact hnone hbody
  | some body => exact hrules ⟨r, hmem hbody, .refl⟩

/-- Without cycles, going to parents ends. -/
theorem Acyclic.wellFounded (h : e.Acyclic) : WellFounded e.Parent :=
  ⟨fun _ => Unlooped.acc fun q _ => h q⟩

/-- There are no cycles if rules rank above their parents. -/
theorem acyclic_of_rank (rank : Place → Nat) (h : ∀ r ∈ e.allRules, ∀ body,
    e.body? r = some body → ∀ p ∈ body.parents, rank p.place < rank r) : e.Acyclic := by
  have hparent : ∀ p r, e.Parent p r → rank p < rank r := by
    rintro p r ⟨body, hbody, hp⟩
    obtain ⟨ref, href, rfl⟩ := List.mem_map.mp hp
    obtain ⟨rule, hrule, -⟩ := body?_eq_some_iff.mp hbody
    exact h r (mem_allRules hrule) body hbody ref href
  have habove : ∀ p r, TransGen e.Parent p r → rank p < rank r := by
    intro p r hpr
    induction hpr with
    | single hp => exact hparent _ _ hp
    | tail _ hp ih => exact ih.trans (hparent _ _ hp)
  exact fun r hr => absurd (habove r r hr) (lt_irrefl _)

/-! ### Effective stylesets -/

/-- **The effective styleset of a rule:** its own one over those of its parents, in order. What has
    no styleset, and what is not there, hands down nothing. -/
inductive Effective (e : Engine) : Place → Styleset → Prop
  /-- There is no styleset. -/
  | nothing {r : Place} (h : e.body? r = none) : Effective e r .empty
  /-- There is one, and the parents have effective ones. -/
  | inherited {r : Place} {body : StyleBody} {values : Place → Styleset}
    (h : e.body? r = some body)
    (parents : ∀ p ∈ body.parents, Effective e p.place (values p.place)) :
    Effective e r (.merged (body.parents.map fun p => values p.place) body.styleset)

/-- The rules with stylesets of one engine are rules of another one, where `place` takes them, and
    so are their parents. The parts of their stylesets are changed by `change`. -/
structure Rearranged (place : Place → Place) (change : Styleset.Change) (e e' : Engine) :
    Prop where
  found {r : Place} {body : StyleBody} : e.body? r = some body →
    ∃ body', e'.body? (place r) = some body' ∧
    body'.styleset = change.apply body.styleset ∧
    body'.parents.map RuleRef.place = body.parents.map fun p => place p.place
  missing {r : Place} {body : StyleBody} {p : RuleRef} : e.body? r = some body → p ∈ body.parents →
    e.body? p.place = none →
    e'.body? (place p.place) = none

namespace Effective

/-- A rule has one effective styleset at most. -/
theorem unique (h : e.Effective r v) (h' : e.Effective r w) : v = w := by
  induction h generalizing w with
  | nothing hnone =>
    cases h' with
    | nothing _ => rfl
    | inherited hsome _ => cases hnone.symm.trans hsome
  | @inherited r body values hsome _ ih =>
    cases h' with
    | nothing hnone => cases hnone.symm.trans hsome
    | @inherited _ _ values' hsome' parents' =>
      cases hsome.symm.trans hsome'
      rw [List.map_congr_left fun p hp => ih p hp (parents' p hp)]

/-- Effective stylesets depend on nothing but the stylesets and parents of rules. -/
theorem congr (h : ∀ r, e'.body? r = e.body? r) (hv : e.Effective r v) : e'.Effective r v := by
  induction hv with
  | nothing hnone => exact .nothing ((h _).trans hnone)
  | inherited hsome _ ih => exact .inherited ((h _).trans hsome) ih

/-- A rule that has an effective styleset is not above itself, nor are its ancestors. -/
theorem acc (h : e.Effective r v) : Acc e.Parent r := by
  induction h with
  | nothing hnone =>
    refine ⟨_, fun p hp => ?_⟩
    obtain ⟨body, hsome, -⟩ := hp
    cases hnone.symm.trans hsome
  | inherited hsome _ ih =>
    refine ⟨_, fun p hp => ?_⟩
    obtain ⟨body, hsome', hmem⟩ := hp
    cases hsome.symm.trans hsome'
    obtain ⟨ref, href, rfl⟩ := List.mem_map.mp hmem
    exact ih ref href

theorem not_above (h : e.Effective r v) : ¬ TransGen e.Parent r r := by
  have hacc : Acc (TransGen e.Parent) r := h.acc.transGen
  clear h
  induction hacc with
  | intro r _ ih => exact fun hr => ih r hr hr

/-- **It does not matter in which places rules are.** -/
theorem rearranged {place : Place → Place} {change : Styleset.Change}
    (h : Rearranged place change e e') (hv : e.Effective r v) (hr : (e.body? r).isSome) :
    e'.Effective (place r) (change.apply v) := by
  induction hv with
  | nothing hnone =>
    rw [hnone] at hr
    cases hr
  | @inherited r body values hsome _ ih =>
    obtain ⟨body', hbody', hown, hplaces⟩ := h.found hsome
    have hparent : ∀ p ∈ body.parents,
        e'.Effective (place p.place) (change.apply (values p.place)) := by
      intro p hp
      cases hbody : e.body? p.place with
      | some _ => exact ih p hp (by rw [hbody]; rfl)
      | none =>
        have hempty : values p.place = .empty :=
          (‹∀ p ∈ body.parents, e.Effective p.place (values p.place)› p hp).unique (.nothing hbody)
        rw [hempty, Styleset.Change.apply_empty]
        exact .nothing (h.missing hsome hp hbody)
    -- Effective stylesets are unique, so it does not matter which ones are chosen for the parents.
    let values' (q : Place) : Styleset := Classical.epsilon fun w => e'.Effective q w
    have hvalues : ∀ p ∈ body.parents, e'.Effective (place p.place) (values' (place p.place)) ∧
        values' (place p.place) = change.apply (values p.place) := by
      intro p hp
      have hspec := Classical.epsilon_spec ⟨_, hparent p hp⟩
      exact ⟨hspec, hspec.unique (hparent p hp)⟩
    have hparents : ∀ p ∈ body'.parents, e'.Effective p.place (values' p.place) := by
      intro p hp
      have hmem : p.place ∈ body'.parents.map RuleRef.place := List.mem_map_of_mem hp
      rw [hplaces] at hmem
      obtain ⟨q, hq, heq⟩ := List.mem_map.mp hmem
      exact heq ▸ (hvalues q hq).1
    have hmap : (body'.parents.map fun p => values' p.place) =
        (body.parents.map fun p => values p.place).map change.apply := by
      calc (body'.parents.map fun p => values' p.place)
          = (body'.parents.map RuleRef.place).map values' := by rw [List.map_map]; rfl
        _ = body.parents.map fun p => values' (place p.place) := by
          rw [hplaces, List.map_map]
          rfl
        _ = body.parents.map fun p => change.apply (values p.place) :=
          List.map_congr_left fun p hp => (hvalues p hp).2
        _ = (body.parents.map fun p => values p.place).map change.apply := by
          rw [List.map_map]
          rfl
    rw [change.apply_merged, ← hown, ← hmap]
    exact .inherited hbody' hparents

end Effective

/-- The effective styleset of a rule, by recursion on the graph of parents. -/
def effective (e : Engine) (h : e.Acyclic) (r : Place) : Styleset :=
  match _hbody : e.body? r with
  | none => .empty
  | some body =>
    .merged (body.parents.attach.map fun p => effective e h p.1.place) body.styleset
termination_by h.wellFounded.wrap r
decreasing_by exact parent_of_mem _hbody p.2

theorem effective_none (h : e.Acyclic) (hbody : e.body? r = none) :
    e.effective h r = .empty := by
  rw [effective]
  split
  · rfl
  · rename_i hsome
    cases hbody.symm.trans hsome

/-- **The effective styleset of a rule is its own one over those of its parents.** -/
theorem effective_some (h : e.Acyclic) (hbody : e.body? r = some body) :
    e.effective h r =
      .merged (body.parents.map fun p => e.effective h p.place) body.styleset := by
  rw [effective]
  split
  · rename_i hnone
    cases hbody.symm.trans hnone
  · rename_i hsome
    cases hbody.symm.trans hsome
    rw [List.attach_map_val (f := fun p : RuleRef => e.effective h p.place)]

/-- The function and the relation agree. -/
theorem effective_spec (h : e.Acyclic) (r : Place) : e.Effective r (e.effective h r) := by
  induction r using h.wellFounded.induction with
  | _ r ih =>
    cases hbody : e.body? r with
    | none =>
      rw [effective_none h hbody]
      exact .nothing hbody
    | some body =>
      rw [effective_some h hbody]
      exact .inherited hbody fun p hp => ih p.place (parent_of_mem hbody hp)

/-- Where no cycle leads to, there is an effective styleset. -/
theorem Unlooped.effective (h : e.Unlooped r) : ∃ v, e.Effective r v := by
  have hacc := h.acc
  clear h
  induction hacc with
  | intro r _ ih =>
    cases hbody : e.body? r with
    | none => exact ⟨_, .nothing hbody⟩
    | some body =>
      let values (q : Place) : Styleset := Classical.epsilon fun v => e.Effective q v
      have hvalues : ∀ p ∈ body.parents, e.Effective p.place (values p.place) := fun p hp =>
        Classical.epsilon_spec (ih p.place (parent_of_mem hbody hp))
      exact ⟨_, .inherited hbody hvalues⟩

/-! ### What is kept with rules -/

/-- **What is kept with rules is right:** only rules with stylesets have merged ones, and these are
    effective. -/
structure Truthful (e : Engine) : Prop where
  kept {id key rule m} : e.rule? id key = some rule → rule.merged = some m →
    rule.content.body?.isSome ∧ ∀ v, e.Effective (id, key) v → m = v

/-- The same rules keep the same. -/
theorem Truthful.of_rules (ht : e.Truthful) (h : ∀ id key, e'.rule? id key = e.rule? id key) :
    e'.Truthful := by
  refine ⟨fun hr hm => ?_⟩
  rw [h] at hr
  obtain ⟨hsome, heff⟩ := ht.kept hr hm
  refine ⟨hsome, fun v hv => heff v (hv.congr fun r => ?_)⟩
  unfold body?
  rw [h]

/-- What is kept with a rule is no styleset of its own. -/
theorem body?_setMerged {id : ScopeId} {key : Nat} {rule : Rule}
    (hr : e.rule? id key = some rule) (m : Styleset) (r : Place) :
    (e.setMerged id key m).body? r = e.body? r := by
  unfold body?
  rw [rule?_setMerged hr]
  split
  · rename_i hsame
    rw [hsame.1, hsame.2, hr]
    rfl
  · rfl

/-- What is right may be kept. -/
theorem Truthful.setMerged (ht : e.Truthful) {id : ScopeId} {key : Nat} {rule : Rule}
    (hr : e.rule? id key = some rule) (hbody : rule.content.body?.isSome) {m : Styleset}
    (hm : ∀ v, e.Effective (id, key) v → m = v) : (e.setMerged id key m).Truthful := by
  have hbodies : ∀ r, e.body? r = (e.setMerged id key m).body? r := fun r =>
    (body?_setMerged hr m r).symm
  refine ⟨fun {id' key' rule' m'} hr' hm' => ?_⟩
  rw [rule?_setMerged hr] at hr'
  split at hr'
  · rename_i hsame
    obtain ⟨rfl, rfl⟩ := hsame
    cases hr'
    cases hm'
    exact ⟨hbody, fun v hv => hm v (hv.congr hbodies)⟩
  · obtain ⟨hsome, heff⟩ := ht.kept hr' hm'
    exact ⟨hsome, fun v hv => heff v (hv.congr hbodies)⟩

/-- Scopes outside of `A`, and all stylesets and parents, are as they were, and what is kept with
    rules is right. -/
structure Merges (A : ScopeId → Prop) (e e' : Engine) : Prop where
  scope? {k} : ¬ A k → e'.scope? k = e.scope? k
  body? (r : Place) : e'.body? r = e.body? r
  truthful : e'.Truthful

namespace Merges

variable {A : ScopeId → Prop} {e'' : Engine}

theorem refl (ht : e.Truthful) : Merges A e e := ⟨fun _ => rfl, fun _ => rfl, ht⟩

theorem trans (h : Merges A e e') (h' : Merges A e' e'') : Merges A e e'' where
  scope? hk := (h'.scope? hk).trans (h.scope? hk)
  body? r := (h'.body? r).trans (h.body? r)
  truthful := h'.truthful

theorem report (ht : e.Truthful) (event : Event) : Merges A e (e.report event) :=
  ⟨fun _ => rfl, fun _ => rfl, ht.of_rules fun _ _ => rfl⟩

/-- Keeping what is right with a rule in `A`. -/
theorem setMerged (h : Merges A e e') {id : ScopeId} {key : Nat} {rule : Rule} (hA : A id)
    (hr : e'.rule? id key = some rule) (hbody : rule.content.body?.isSome) {m : Styleset}
    (hm : ∀ v, e.Effective (id, key) v → m = v) : Merges A e (e'.setMerged id key m) where
  scope? {k} hk := by
    have hne : k ≠ id := fun heq => hk (heq ▸ hA)
    unfold Engine.setMerged
    simp only [hr]
    rw [scope?_modifyScope_of_ne _ hne]
    exact h.scope? hk
  body? r := (body?_setMerged hr m r).trans (h.body? r)
  truthful := h.truthful.setMerged hr hbody fun v hv => hm v (hv.congr fun r => (h.body? r).symm)

end Merges

/-- Merging parents one after the other hands down their effective stylesets, if merging each of
    them gives its effective one. -/
theorem mergeParents_merges {A : ScopeId → Prop} {idle : List Place} (parents : List RuleRef)
    (start : Styleset) (h : Merges A e e') (hparents : ∀ p ∈ parents, ∀ e', Merges A e e' →
      Merges A e' (mergeWithin idle p.scope p.key e').2 ∧
        ∀ v, e.Effective p.place v → (mergeWithin idle p.scope p.key e').1 = v) :
    Merges A e (mergeParents idle parents start e').2 ∧ ∀ values : Place → Styleset,
      (∀ p ∈ parents, e.Effective p.place (values p.place)) →
        (mergeParents idle parents start e').1 =
          (parents.map fun p => values p.place).foldl Styleset.merge start := by
  induction parents generalizing start e' with
  | nil => exact ⟨h, fun _ _ => rfl⟩
  | cons p rest ih =>
    obtain ⟨hmerges, hvalue⟩ := hparents p (by simp) e' h
    obtain ⟨hmerges', hvalues⟩ := ih (start.merge (mergeWithin idle p.scope p.key e').1)
      (h.trans hmerges) fun a ha => hparents a (List.mem_cons_of_mem p ha)
    rw [mergeParents_cons]
    refine ⟨hmerges', fun values heff => ?_⟩
    rw [hvalues values fun a ha => heff a (List.mem_cons_of_mem p ha), List.map_cons,
      List.foldl_cons, hvalue _ (heff p (by simp))]

/-- **Merging a rule gives its effective styleset, and what it keeps on the way is right.** Parents
    do not leave the scopes in `A`. Rules that are being merged are below the rule, which has no
    effective styleset if it is one of them. -/
theorem mergeWithin_merges {A : ScopeId → Prop} (idle : List Place) (id : ScopeId) (key : Nat)
    (e : Engine) (ht : e.Truthful) (hA : A id)
    (hclosed : ∀ {p r : Place}, e.Parent p r → A r.1 → A p.1)
    (hidle : ∀ c, (e.body? c).isSome → c ∉ idle → TransGen e.Parent (id, key) c) :
    Merges A e (mergeWithin idle id key e).2 ∧
      ∀ v, e.Effective (id, key) v → (mergeWithin idle id key e).1 = v := by
  -- Each step to the parents takes a rule from `idle`; the engine changes on the way.
  induction hn : idle.length using Nat.strong_induction_on generalizing idle id key e with
  | _ n ih =>
    cases h : e.rule? id key with
    | none =>
      have hnone : e.body? (id, key) = none := Option.bind_eq_none_iff.mpr fun _ hr => by
        cases h.symm.trans hr
      rw [mergeWithin_missing h]
      exact ⟨.report ht _, fun v hv => (Effective.nothing hnone).unique hv⟩
    | some rule =>
      have hbody? : e.body? (id, key) = rule.content.body? := body?_of_rule h
      cases hm : rule.merged with
      | some m =>
        rw [mergeWithin_known h hm]
        exact ⟨.refl ht, (ht.kept h hm).2⟩
      | none =>
        cases hbody : rule.content.body? with
        | none =>
          rw [mergeWithin_bodiless h hm hbody]
          exact ⟨.refl ht, fun v hv => (Effective.nothing (hbody?.trans hbody)).unique hv⟩
        | some body =>
          rw [hbody] at hbody?
          by_cases hmem : (id, key) ∈ idle
          · rw [mergeWithin_fresh h hm hbody hmem]
            have hlt : (idle.erase (id, key)).length < n := by
              have := List.length_pos_of_mem hmem
              rw [List.length_erase_of_mem hmem]
              omega
            obtain ⟨hmerges, hvalues⟩ := mergeParents_merges (A := A) body.parents .empty
              (.refl ht) fun p hp e' he' => by
                have hparent : e.Parent p.place (id, key) := parent_of_mem hbody? hp
                have hgraph := parent_congr he'.body?
                obtain ⟨hmerges, hvalue⟩ := ih _ hlt (idle.erase (id, key)) p.scope p.key e'
                  he'.truthful (hclosed hparent hA) (by rw [hgraph]; exact hclosed)
                  (fun c hc hnot => by
                    rw [he'.body?] at hc
                    rw [hgraph]
                    by_cases heq : c = (id, key)
                    · exact heq ▸ .single hparent
                    · refine .head hparent (hidle c hc fun hmem' => hnot ?_)
                      exact (List.mem_erase_of_ne heq).mpr hmem') rfl
                exact ⟨hmerges, fun v hv => hvalue v (hv.congr he'.body?)⟩
            have hvalue : ∀ v, e.Effective (id, key) v →
                (mergeParents (idle.erase (id, key)) body.parents .empty e).1.merge body.styleset =
                  v := by
              intro v hv
              cases hv with
              | nothing hnone => cases hbody?.symm.trans hnone
              | @inherited _ _ values hsome parents =>
                cases hbody?.symm.trans hsome
                rw [hvalues values parents]
                rfl
            obtain ⟨rule', hrule', hR⟩ :=
              (mergeParents_remerged (idle.erase (id, key)) body.parents .empty e).rule?_some h
            refine ⟨hmerges.setMerged hA hrule' ?_ hvalue, hvalue⟩
            rw [hR.content, hbody]
            rfl
          · -- The rule is its own ancestor.
            rw [mergeWithin_cyclic h hm hbody hmem]
            have hcycle := hidle (id, key) (by rw [hbody?]; rfl) hmem
            exact ⟨.report ht _, fun v hv => absurd hcycle hv.not_above⟩

/-- Rules that are not being merged at all. -/
theorem mergeRule_merges {A : ScopeId → Prop} {id : ScopeId} (ht : e.Truthful) (hA : A id)
    (hclosed : ∀ {p r : Place}, e.Parent p r → A r.1 → A p.1) (key : Nat) :
    Merges A e (mergeRule id key e).2 ∧
      ∀ v, e.Effective (id, key) v → (mergeRule id key e).1 = v := by
  refine mergeWithin_merges e.allRules id key e ht hA hclosed fun c hc hnot => absurd ?_ hnot
  obtain ⟨body, hbody⟩ := Option.isSome_iff_exists.mp hc
  obtain ⟨rule, hrule, -⟩ := body?_eq_some_iff.mp hbody
  exact mem_allRules hrule

/-- The step for one rule keeps what is right, too. -/
theorem mergeAt_merges {A : ScopeId → Prop} {id : ScopeId} (ht : e.Truthful) (hA : A id)
    (hclosed : ∀ {p r : Place}, e.Parent p r → A r.1 → A p.1) (key : Nat) :
    Merges A e (mergeAt id key e).2 := by
  refine mergeAt_cases (.refl ht) fun rule body hr hbody => ?_
  obtain ⟨hmerges, hvalue⟩ := mergeRule_merges ht hA hclosed key
  obtain ⟨rule', hr', hR⟩ := (mergeWithin_remerged e.allRules id key e).rule?_some hr
  refine hmerges.setMerged hA hr' ?_ hvalue
  rw [hR.content, hbody]
  rfl

end Engine

end StyleBook
